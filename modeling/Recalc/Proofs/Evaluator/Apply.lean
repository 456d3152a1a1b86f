import Recalc.Proofs.Evaluator.Batch
import Recalc.Proofs.Evaluator.Pass

/-!
# Runs of an evaluator

A run is a sequence of successful calls (`Evaluator.Reaches`). Every call keeps an evaluator
coherent, so every evaluator that a run reaches from an empty one is coherent
(`Reaches.coherent`). In particular no checked batch is refused while entities are rebuilt
(`Coherent.applies`).
-/

namespace Recalc

namespace Evaluator

/-- The paths that the pass of a batch starts from; nothing stands for all paths. -/
def passRoots (p : Progress) (b : ChangeBatch) : Option (List String) :=
  if b.full || !p.evaluator.evaluatedOnce then none
  else some (p.work.roots.extend b.changed.keys).keys

/-- A pass that is not over all paths starts from the marked ones. -/
theorem passRoots_eq_some {p : Progress} (h : p.work.roots.InStep) {b : ChangeBatch}
    {list : List String} (hl : passRoots p b = some list) : b.full = false ∧
      ∀ path, path ∈ list ↔ path ∈ p.work.roots.keys ∨ path ∈ b.changed.keys := by
  rw [passRoots] at hl
  split at hl
  · cases hl
  · rename_i hsome
    obtain rfl := Option.some.inj hl
    rw [Bool.not_eq_true, Bool.or_eq_false_iff] at hsome
    exact ⟨hsome.1, fun path => h.mem_keys_extend⟩

theorem finish_eq (p : Progress) (b : ChangeBatch) :
    finish p b =
      let result := p.evaluator.runPass (passRoots p b) p.work.previous
      ({ result.1 with evaluatedOnce := true },
        updateOf b (!p.evaluator.evaluatedOnce) p.work.removed result.2.1 result.1.snapshot
          result.2.2) := rfl

/-- The pass of a batch leaves the tree as it is. -/
theorem tree_finish {p : Progress} (h : p.evaluator.graph.Sound) (b : ChangeBatch) :
    (finish p b).1.tree = p.evaluator.tree := by
  rw [finish_eq]
  simp only [(runPass_eq h (passRoots p b) p.work.previous).1]
  rfl

/-- What happens in a batch: its changes are made step by step, the queued entities are rebuilt, and
a pass runs. -/
structure Applies (e : Evaluator) (b : ChangeBatch) (p p' : Progress) : Prop where
  /-- The changes are those of the batch. -/
  performed : p = Progress.perform ⟨e, .empty⟩ b
  /-- The changes are made in steps. -/
  moves : Progress.Moves ⟨e, .empty⟩ p
  /-- The evaluator matches its tree, up to marked leaves and queued entities. -/
  underway : p.Underway
  /-- The queued entities are rebuilt. -/
  rebuilt : Coherent.Rebuilt { p with work := { p.work with rebuild := .empty } }
    p.work.rebuild.keys p'
  /-- Afterwards only marked leaves are without a value. -/
  coherent : Coherent p'.evaluator (· ∈ p'.work.roots.keys) (fun _ => False)
  /-- The result is that of the pass. -/
  result : e.applyChecked b = ((finish p' b).1, .ok (finish p' b).2)

/-- The pass of a batch starts from all marked paths. -/
theorem Applies.mem_passRoots {e : Evaluator} {b : ChangeBatch} {p p' : Progress}
    (ha : e.Applies b p p') : ∀ list, passRoots p' b = some list →
      ∀ path ∈ p'.work.roots.keys, path ∈ list := by
  intro list hl path hpath
  exact ((passRoots_eq_some ha.rebuilt.inStep hl).2 path).2 (.inl hpath)

theorem validateAll_of_apply {e e' : Evaluator} {b : ChangeBatch} {u : Update}
    (h : e.apply b = (e', .ok u)) : e.validateAll [b] = .ok () := by
  rw [apply] at h
  split at h
  · cases h
  · assumption

/-- A batch that succeeds is proper. It does nothing if there is neither an entity nor a structural
change, and is applied otherwise. -/
theorem apply_eq_ok {e e' : Evaluator} {b : ChangeBatch} {u : Update}
    (h : e.apply b = (e', .ok u)) : b.Proper ∧
      (e.tree.isEmpty = true ∧ b.structural = [] ∧ e' = e ∧ u = .empty ∨
        e.applyChecked b = (e', .ok u)) := by
  have hv := validateAll_of_apply h
  refine ⟨proper_of_validateAll hv, ?_⟩
  rw [apply, hv] at h
  simp only at h
  split at h
  · rename_i hempty
    rw [ChangeBatch.hasStructural, Bool.not_not, Bool.and_eq_true, List.isEmpty_iff] at hempty
    cases h
    exact .inl ⟨hempty.1, hempty.2, rfl, rfl⟩
  · exact .inr h

/-- A checked batch that succeeds makes its changes, rebuilds the queued entities and runs its
pass. -/
theorem applyChecked_eq_ok {e e' : Evaluator} {b : ChangeBatch} {u : Update}
    (h : e.applyChecked b = (e', .ok u)) : ∃ p,
      (Progress.perform ⟨e, .empty⟩ b).rebuild = (p, none) ∧ e' = (finish p b).1 ∧
        u = (finish p b).2 := by
  rw [applyChecked] at h
  generalize (Progress.perform ⟨e, .empty⟩ b).rebuild = r at h ⊢
  obtain ⟨p, _ | rejection⟩ := r
  · obtain ⟨he, hu⟩ := Prod.mk.inj h
    exact ⟨p, rfl, he.symm, (Except.ok.inj hu).symm⟩
  · cases (Prod.mk.inj h).2

/-- A checked batch that is refused stays as it was when an entity was not rebuilt. -/
theorem applyChecked_eq_error {e e' : Evaluator} {b : ChangeBatch} {rejection : Rejection}
    (h : e.applyChecked b = (e', .error rejection)) : ∃ p,
      (Progress.perform ⟨e, .empty⟩ b).rebuild = (p, some rejection) ∧ e' = p.evaluator := by
  rw [applyChecked] at h
  generalize (Progress.perform ⟨e, .empty⟩ b).rebuild = r at h ⊢
  obtain ⟨p, _ | refused⟩ := r
  · cases (Prod.mk.inj h).2
  · obtain ⟨he, hrefused⟩ := Prod.mk.inj h
    obtain rfl := Except.error.inj hrefused
    exact ⟨p, rfl, he.symm⟩

theorem evaluatedOnce_of_applyChecked {e e' : Evaluator} {b : ChangeBatch} {u : Update}
    (h : e.applyChecked b = (e', .ok u)) : e'.evaluatedOnce = true := by
  obtain ⟨p, -, rfl, -⟩ := applyChecked_eq_ok h
  rfl

/-- Loading succeeds if the batch that replaces the tree does. -/
theorem load_eq_ok {e e' : Evaluator} {records : List EntityRecord} {u : Update}
    (h : e.load records = (e', .ok u)) :
    { e with evaluatedOnce := false }.apply (loadBatch e.tree records) = (e', .ok u) := by
  rw [load] at h
  split at h
  · cases h
  · exact h

theorem tidy_loadBatch (tree : Tree) {records : List EntityRecord}
    (h : ∀ r ∈ records, r.entity.Tidy) : (loadBatch tree records).Tidy where
  structural c hc := by
    rw [loadBatch, List.mem_append, List.mem_map, List.mem_map] at hc
    rcases hc with ⟨name, -, rfl⟩ | ⟨r, hr, rfl⟩
    · trivial
    · exact h r hr
  values w hw := by cases hw

end Evaluator

namespace Coherent

variable {e : Evaluator}

section

variable (h : Coherent e (fun _ => False) (fun _ => False))
include h

/-- **A checked batch is applied**: no entity is refused while the queued ones are rebuilt. -/
theorem applies {b : ChangeBatch} (hp : b.Proper) (ht : b.Tidy) :
    ∃ p p', e.Applies b p p' := by
  have hu := Progress.underway_start h
  have hm := hu.perform_moves hp ht
  have hu' := hm.underway hu
  obtain ⟨p', he, hb, hc⟩ := hu'.coherent.rebuild hu'.inStep.roots
  refine ⟨_, p', rfl, hm, hu', hb, hc, ?_⟩
  rw [Evaluator.applyChecked, he]

/-- Whether a pass has completed makes no difference. -/
theorem withEvaluatedOnce (evaluatedOnce : Bool) :
    Coherent { e with evaluatedOnce } (fun _ => False) (fun _ => False) :=
  { h with mirrored := ⟨h.mirrored.inverse, h.mirrored.readers, h.mirrored.reads⟩ }

end

/-- A batch that passes the check succeeds. -/
theorem exists_apply (h : Coherent e (fun _ => False) (fun _ => False)) {b : ChangeBatch}
    (hv : e.validateAll [b] = .ok ()) (ht : b.Tidy) : ∃ e' u, e.apply b = (e', .ok u) := by
  rw [Evaluator.apply, hv]
  simp only
  split
  · exact ⟨_, _, rfl⟩
  · obtain ⟨p, p', ha⟩ := h.applies (Evaluator.proper_of_validateAll hv) ht
    exact ⟨_, _, ha.result⟩

/-- The evaluator after a batch is coherent. -/
theorem finish {b : ChangeBatch} {p p' : Progress} (ha : e.Applies b p p') :
    Coherent (Evaluator.finish p' b).1 (fun _ => False) (fun _ => False) :=
  (ha.coherent.runPass p'.work.previous ha.mem_passRoots).withEvaluatedOnce true

/-- A batch that succeeds leaves the evaluator coherent. -/
theorem apply (h : Coherent e (fun _ => False) (fun _ => False)) {b : ChangeBatch} (ht : b.Tidy)
    {e' : Evaluator} {u : Update} (ha : e.apply b = (e', .ok u)) :
    Coherent e' (fun _ => False) (fun _ => False) := by
  obtain ⟨hp, ⟨-, -, rfl, -⟩ | hc⟩ := Evaluator.apply_eq_ok ha
  · exact h
  · obtain ⟨p, p', hap⟩ := h.applies hp ht
    rw [hap.result] at hc
    obtain rfl := (Prod.mk.inj hc).1
    exact finish hap

end Coherent

/-! ### Runs -/

/-- A call that an evaluator answers with a pass. -/
inductive Call where
  /-- Replaces the tree by records. -/
  | load (records : List EntityRecord)
  /-- Applies a batch. -/
  | apply (batch : ChangeBatch)
  /-- Evaluates again what reads the paths. -/
  | evaluate (changed : List String)
  /-- Evaluates everything again. -/
  | evaluateAll

/-- All objects in the records and values of the call have keys of paths. -/
def Call.Tidy : Call → Prop
  | load records => ∀ r ∈ records, r.entity.Tidy
  | apply batch => batch.Tidy
  | _ => True

/-- Writing one tidy value is tidy. -/
theorem Call.Tidy.setValue {path : String} {value : Json} (h : value.Tidy) :
    Call.Tidy (.apply (.setValue .empty path value)) := ChangeBatch.tidy_empty.setValue path h

namespace Evaluator

/-- The call succeeds with an update and leaves the second evaluator. -/
inductive Updates (e : Evaluator) : Call → Evaluator → Update → Prop where
  /-- The tree is replaced. -/
  | load {records : List EntityRecord} {e' : Evaluator} {u : Update}
      (h : e.load records = (e', .ok u)) : Updates e (.load records) e' u
  /-- The batch is applied. -/
  | apply {b : ChangeBatch} {e' : Evaluator} {u : Update}
      (h : e.apply b = (e', .ok u)) : Updates e (.apply b) e' u

/-- The call succeeds and leaves the second evaluator. -/
inductive Performs (e : Evaluator) : Call → Evaluator → Prop where
  /-- The tree may change. -/
  | update {c : Call} {e' : Evaluator} {u : Update} (h : e.Updates c e' u) : Performs e c e'
  /-- The paths exist. -/
  | evaluate {changed : List String} {e' : Evaluator} {r : PassResult}
      (h : e.evaluate changed = (e', .ok r)) : Performs e (.evaluate changed) e'
  /-- A full pass always succeeds. -/
  | evaluateAll : Performs e .evaluateAll e.evaluateAll.1

/-- The second evaluator is what successful calls of the allowed ones make of the first. -/
inductive Reaches (allowed : Call → Prop) (start : Evaluator) : Evaluator → Prop where
  /-- No call was made. -/
  | start : Reaches allowed start start
  /-- One more call was made. -/
  | call {e e' : Evaluator} {c : Call} (run : Reaches allowed start e) (hc : allowed c)
      (h : e.Performs c e') : Reaches allowed start e'

/-- An evaluator without entities that runs code by the given engine. -/
def ofEngine (settings : Settings) (engine : Engine) : Evaluator :=
  { ofSettings settings with engine }

theorem evaluate_eq_ok {e e' : Evaluator} {changed : List String} {r : PassResult}
    (h : e.evaluate changed = (e', .ok r)) :
    e' = (e.runPass (some (distinct changed)) .empty).1 := by
  rw [evaluate] at h
  split at h
  · cases h
  · exact (Prod.mk.inj h).1.symm

end Evaluator

namespace Coherent

variable {e e' : Evaluator}

theorem ofEngine (settings : Settings) (engine : Engine) :
    Coherent (Evaluator.ofEngine settings engine) (fun _ => False) (fun _ => False) :=
  { ofSettings settings with
    mirrored :=
      have hm := (ofSettings settings).mirrored
      ⟨hm.inverse, hm.readers, hm.reads⟩ }

theorem performs (h : Coherent e (fun _ => False) (fun _ => False)) {c : Call} (ht : c.Tidy)
    (hc : e.Performs c e') : Coherent e' (fun _ => False) (fun _ => False) := by
  cases hc with
  | update hu =>
    cases hu with
    | load ha =>
      exact (h.withEvaluatedOnce false).apply (Evaluator.tidy_loadBatch _ ht)
        (Evaluator.load_eq_ok ha)
    | apply ha => exact h.apply ht ha
  | evaluate ha =>
    rw [Evaluator.evaluate_eq_ok ha]
    exact h.runPass .empty fun _ _ _ hf => hf.elim
  | evaluateAll =>
    have hr : Coherent (e.runPass none .empty).1 (fun _ => False) (fun _ => False) :=
      h.runPass .empty fun _ _ _ hf => hf.elim
    exact hr.withEvaluatedOnce true

end Coherent

/-- **A run keeps an evaluator coherent.** -/
theorem Evaluator.Reaches.coherent {allowed : Call → Prop} (ht : ∀ c, allowed c → c.Tidy)
    {start e : Evaluator} (hs : Coherent start (fun _ => False) (fun _ => False))
    (h : Reaches allowed start e) : Coherent e (fun _ => False) (fun _ => False) := by
  induction h with
  | start => exact hs
  | call _ hc hp ih => exact ih.performs (ht _ hc) hp

end Recalc
