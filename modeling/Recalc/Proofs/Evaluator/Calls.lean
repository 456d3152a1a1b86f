import Recalc.Proofs.Evaluator.Apply

/-!
# Calls and the tree

Whatever keys the objects of a tree have, the changes of a batch do to the tree of an evaluator what
the batch does to a tree alone, and neither rebuilding entities nor a pass touches the tree or the
registry. With the standard registry no entity is refused while it is
rebuilt, so a batch that passes the check succeeds and performs itself on the tree
(`Evaluator.Standard.exists_apply`).

A call that is refused leaves the evaluator as it was, but for whether the next update counts as a
first one (`Standard.after_cases`). So what holds over runs of successful calls holds over any calls
(`Evolves.standard`, `Evolves.coherent`).
-/

namespace Recalc

namespace Progress

/-- With the standard registry no entity is refused while it is rebuilt. -/
theorem turns_rebuildAll {p : Progress} (hr : p.evaluator.registry = .standard)
    (hn : p.evaluator.tree.Named) (names : List String) :
    ∃ p', p.rebuildAll names = (p', none) ∧ p.Turns p.evaluator.tree p' := by
  induction names generalizing p with
  | nil => exact ⟨p, rfl, rfl, rfl⟩
  | cons name names ih =>
    have hstep : ∃ mid, p.rebuildEntity name = .ok mid ∧ p.Turns p.evaluator.tree mid := by
      cases hget : p.evaluator.tree.get? name with
      | none => exact ⟨p, Coherent.rebuildEntity_of_none hget, rfl, rfl⟩
      | some r =>
        refine ⟨_, Coherent.rebuildEntity_of_some hr hget (hn name r hget), ?_⟩
        obtain ⟨readers, reads, hset⟩ := Evaluator.setReads_eq _ name _
        rw [hset]
        exact ⟨rfl, rfl⟩
    obtain ⟨mid, hmid, hturns⟩ := hstep
    obtain ⟨p', hp', hlast⟩ := ih (p := mid) (hturns.registry.trans hr)
      (by rw [hturns.tree]; exact hn)
    rw [hturns.tree] at hlast
    refine ⟨p', ?_, hturns.trans hlast⟩
    rw [rebuildAll, hmid]
    exact hp'

end Progress

namespace Evaluator

/-- The evaluator reads entities of all kinds the standard way, and each record stands under its own
name. -/
structure Standard (e : Evaluator) : Prop where
  /-- The registry is the standard one. -/
  registry : e.registry = .standard
  /-- Records stand under their names. -/
  named : e.tree.Named

namespace Standard

variable {e : Evaluator}

theorem ofEngine (settings : Settings) (engine : Engine) :
    (Evaluator.ofEngine settings engine).Standard := ⟨rfl, Tree.named_empty⟩

/-- Without entities nothing but structural changes passes the check. -/
theorem values_eq_nil_of_isEmpty {b : ChangeBatch} (hv : e.validateAll [b] = .ok ())
    (he : e.tree.isEmpty = true) (hs : b.structural = []) : b.values = [] := by
  obtain ⟨mid, ha⟩ := validateAll_singleton.1 hv
  have hmid : Outlook.ofTree e.tree = mid := by
    have h := ha.structural
    rw [hs] at h
    exact Except.ok.inj h
  refine List.eq_nil_iff_forall_not_mem.2 fun w hw => ?_
  have hentity := (ha.values w.1 (List.mem_map_of_mem hw)).entity
  rw [← hmid, Outlook.ofTree, List.isEmpty_iff.1 he] at hentity
  simp [SortedSet.mem_ofList] at hentity

theorem perform_of_isEmpty {b : ChangeBatch} (hv : e.validateAll [b] = .ok ())
    (he : e.tree.isEmpty = true) (hs : b.structural = []) : e.tree.perform b = e.tree := by
  rw [Tree.perform, hs, values_eq_nil_of_isEmpty hv he hs]
  rfl

/-- **A batch that passes the check succeeds**, and performs itself on the tree. -/
theorem exists_apply (h : e.Standard) {b : ChangeBatch} (hv : e.validateAll [b] = .ok ()) :
    ∃ e' u, e.apply b = (e', .ok u) ∧ e'.tree = e.tree.perform b ∧ e'.Standard := by
  rw [apply, hv]
  simp only
  split
  · rename_i hempty
    rw [ChangeBatch.hasStructural, Bool.not_not, Bool.and_eq_true, List.isEmpty_iff] at hempty
    exact ⟨e, .empty, rfl, (perform_of_isEmpty hv hempty.1 hempty.2).symm, h⟩
  · have hp := Progress.turns_perform ⟨e, .empty⟩ b
    obtain ⟨p', hp', hlast⟩ := Progress.turns_rebuildAll
      (p := { Progress.perform ⟨e, .empty⟩ b with
        work := { (Progress.perform ⟨e, .empty⟩ b).work with rebuild := .empty } })
      (hp.registry.trans h.registry) (by rw [hp.tree]; exact h.named.perform b)
      (Progress.perform ⟨e, .empty⟩ b).work.rebuild.keys
    have htree : (finish p' b).1.tree = e.tree.perform b := hlast.tree.trans hp.tree
    have hresult : e.applyChecked b = ((finish p' b).1, .ok (finish p' b).2) := by
      rw [applyChecked]
      have hrebuild : (Progress.perform ⟨e, .empty⟩ b).rebuild = (p', none) := hp'
      rw [hrebuild]
    refine ⟨_, _, hresult, htree, ?_, ?_⟩
    · exact hlast.registry.trans (hp.registry.trans h.registry)
    · rw [htree]
      exact h.named.perform b

/-- A batch that succeeds performs itself on the tree. -/
theorem of_apply (h : e.Standard) {b : ChangeBatch} {e' : Evaluator} {u : Update}
    (ha : e.apply b = (e', .ok u)) : e'.tree = e.tree.perform b ∧ e'.Standard := by
  obtain ⟨e'', u', ha', htree, hs⟩ := h.exists_apply (validateAll_of_apply ha)
  rw [ha'] at ha
  cases ha
  exact ⟨htree, hs⟩

/-- A batch is refused without a trace, or it succeeds. -/
theorem apply_cases (h : e.Standard) (b : ChangeBatch) :
    (e.apply b).1 = e ∨ ∃ u, e.apply b = ((e.apply b).1, .ok u) := by
  cases hv : e.validateAll [b] with
  | error rejection => exact .inl (by rw [apply, hv])
  | ok _ =>
    obtain ⟨e', u, ha, -⟩ := h.exists_apply hv
    exact .inr ⟨u, by rw [ha]⟩

/-- A call that succeeds leaves the evaluator standard. -/
theorem performs (h : e.Standard) {c : Call} {e' : Evaluator} (hc : e.Performs c e') :
    e'.Standard := by
  cases hc with
  | update hu =>
    cases hu with
    | load hl =>
      have h' : Standard { e with evaluatedOnce := false } := ⟨h.registry, h.named⟩
      exact (h'.of_apply (load_eq_ok hl)).2
    | apply ha => exact (h.of_apply ha).2
  | evaluate he =>
    rw [evaluate_eq_ok he]
    exact ⟨h.registry, h.named⟩
  | evaluateAll => exact ⟨h.registry, h.named⟩

end Standard

/-! ### Calls that succeed or are refused -/

/-- What a call leaves of an evaluator, whether it succeeds or is refused. -/
def after (e : Evaluator) : Call → Evaluator
  | .load records => (e.load records).1
  | .apply b => (e.apply b).1
  | .evaluate changed => (e.evaluate changed).1
  | .evaluateAll => e.evaluateAll.1

/-- The second evaluator is what some of the allowed calls leave of the first, with questions about
the order in between. -/
inductive Evolves (allowed : Call → Prop) (start : Evaluator) : Evaluator → Prop where
  /-- Nothing was asked. -/
  | start : Evolves allowed start start
  /-- One more call was made. -/
  | call {e : Evaluator} (c : Call) (run : Evolves allowed start e) (hc : allowed c) :
      Evolves allowed start (e.after c)
  /-- The evaluation order was asked for. -/
  | evaluationOrder {e : Evaluator} (run : Evolves allowed start e) :
      Evolves allowed start e.evaluationOrder.2
  /-- The paths on cycles were asked for. -/
  | cyclicPaths {e : Evaluator} (run : Evolves allowed start e) :
      Evolves allowed start e.cyclicPaths.2
  /-- The order of what paths affect was asked for. -/
  | affectedOrder {e : Evaluator} (changed : List String) (run : Evolves allowed start e) :
      Evolves allowed start (e.affectedOrder changed).2

theorem Performs.eq_after {e e' : Evaluator} {c : Call} (h : e.Performs c e') : e' = e.after c := by
  cases h with
  | update hu => cases hu with | load h => rw [after, h] | apply h => rw [after, h]
  | evaluate h => rw [after, h]
  | evaluateAll => rfl

/-- Calls that succeed are calls. -/
theorem Reaches.evolves {allowed : Call → Prop} {start e : Evaluator}
    (h : Reaches allowed start e) : Evolves allowed start e := by
  induction h with
  | start => exact .start
  | call _ hc hp ih => exact hp.eq_after ▸ ih.call _ hc

/-- A call is performed, or it is refused, and then at most the next update is a first one again. -/
theorem Standard.after_cases {e : Evaluator} (h : e.Standard) (c : Call) :
    e.Performs c (e.after c) ∨ ∃ evaluatedOnce, e.after c = { e with evaluatedOnce } := by
  cases c with
  | load records =>
    cases hn : checkNames (records.map (·.name)) with
    | error rejection => exact .inr ⟨e.evaluatedOnce, by rw [after, load, hn]⟩
    | ok _ =>
      have hload : e.load records =
          { e with evaluatedOnce := false }.apply (loadBatch e.tree records) := by
        rw [load, hn]
      have h' : Standard { e with evaluatedOnce := false } := ⟨h.registry, h.named⟩
      rcases h'.apply_cases (loadBatch e.tree records) with hb | ⟨u, hb⟩
      · exact .inr ⟨false, by rw [after, hload, hb]⟩
      · exact .inl (.update (.load (u := u) (by rw [after, hload]; exact hb)))
  | apply b =>
    rcases h.apply_cases b with hb | ⟨u, hb⟩
    · exact .inr ⟨e.evaluatedOnce, hb⟩
    · exact .inl (.update (.apply hb))
  | evaluate changed =>
    rw [after, evaluate]
    split
    · exact .inr ⟨e.evaluatedOnce, rfl⟩
    · rename_i hfind
      refine .inl (.evaluate (r := (e.runPass (some (distinct changed)) .empty).2.2) ?_)
      rw [evaluate, hfind]
  | evaluateAll => exact .inl .evaluateAll

/-- A question about affected paths leaves everything but the order. -/
theorem affectedOrder_cases (e : Evaluator) (changed : List String) :
    (e.affectedOrder changed).2 = e ∨
      (e.affectedOrder changed).2 = { e with graph := e.graph.refreshed } := by
  rw [affectedOrder]
  split
  · exact .inl rfl
  · exact .inr rfl

/-- Every evaluator that comes from a standard one is standard, whatever the calls are. -/
theorem Evolves.standard {allowed : Call → Prop} {start e : Evaluator} (hs : start.Standard)
    (h : Evolves allowed start e) : e.Standard := by
  induction h with
  | start => exact hs
  | call c _ _ ih =>
    rcases ih.after_cases c with hp | ⟨_, hr⟩
    · exact ih.performs hp
    · rw [hr]
      exact ⟨ih.registry, ih.named⟩
  | evaluationOrder _ ih => exact ⟨ih.registry, ih.named⟩
  | cyclicPaths _ ih => exact ⟨ih.registry, ih.named⟩
  | @affectedOrder e changed _ ih =>
    rcases e.affectedOrder_cases changed with ha | ha <;> rw [ha]
    · exact ih
    · exact ⟨ih.registry, ih.named⟩

end Evaluator

/-- Bringing the order up to date keeps an evaluator coherent. -/
theorem Coherent.refreshed {e : Evaluator} (h : Coherent e (fun _ => False) (fun _ => False)) :
    Coherent { e with graph := e.graph.refreshed } (fun _ => False) (fun _ => False) := by
  rw [h.graph.refreshed_eq]
  have hordered : Coherent
      { e.ordered with snapshot := e.snapshot, evaluatedOnce := e.evaluatedOnce }
      (fun _ => False) (fun _ => False) := h.withSnapshot h.exists_value_iff
  exact hordered

/-- **Whatever is asked, an evaluator stays coherent**, as long as objects have keys of paths. -/
theorem Evaluator.Evolves.coherent {settings : Settings} {engine : Engine} {e : Evaluator}
    (h : Evolves Call.Tidy (ofEngine settings engine) e) :
    Coherent e (fun _ => False) (fun _ => False) := by
  induction h with
  | start => exact .ofEngine settings engine
  | call c run ht ih =>
    rcases (run.standard (.ofEngine settings engine)).after_cases c with hp | ⟨once, hr⟩
    · exact ih.performs ht hp
    · rw [hr]
      exact ih.withEvaluatedOnce once
  | evaluationOrder _ ih => exact ih.refreshed
  | cyclicPaths _ ih => exact ih.refreshed
  | @affectedOrder e changed _ ih =>
    rcases e.affectedOrder_cases changed with ha | ha <;> rw [ha]
    · exact ih
    · exact ih.refreshed

end Recalc
