import Recalc.Proofs.Evaluator.Load

/-!
# Patches carry the whole change

While a batch is under way, a value that is gone is noted and its path is listed as removed
(`Tracks`). After the pass, every path whose value may differ from the one before the batch is
either removed, evaluated or without a value all along (`Reported`), so replaying the patches of the
update leads from the values before the batch to those after it, and a first update leads there from
nothing.
-/

namespace Recalc

/-! ### Patches from what is reported -/

/-- What an update is made of, compared with the values before and after a batch. -/
structure Reported (before after previous : Snapshot) (removed order : List String) : Prop where
  /-- Noted values are values from before. -/
  noted : ∀ path v, previous.get? path = some v → before.get? path = some v
  /-- A value that is gone is noted and its path is removed. -/
  lost : ∀ path v, before.get? path = some v → after.get? path = none →
    path ∈ removed ∧ previous.get? path = some v
  /-- Paths that did not run have the values from before. -/
  kept : ∀ path v, path ∉ order → after.get? path = some v → before.get? path = some v

namespace Evaluator

theorem mem_removedPaths {snapshot : Snapshot} {removed : List String} {path : String} :
    path ∈ removedPaths snapshot removed ↔ path ∈ removed ∧ snapshot.get? path = none := by
  rw [removedPaths, mem_distinct, List.mem_filter, Bool.not_eq_true',
    Snapshot.contains_eq_false_iff]

/-- The snapshot with the noted value of a path put back. -/
def putBack (previous base : Snapshot) (path : String) : Snapshot :=
  match previous.get? path with
  | some value => base.insert path value
  | none => base

theorem get?_putBack (previous base : Snapshot) (p path : String) :
    (putBack previous base p).get? path =
      if path = p then (previous.get? path).or (base.get? path) else base.get? path := by
  by_cases hp : path = p
  · subst hp
    cases hv : previous.get? path <;> simp [putBack, hv, Snapshot.get?_insert]
  · cases hv : previous.get? p <;> simp [putBack, hv, Snapshot.get?_insert, hp]

theorem get?_foldl_putBack (previous base : Snapshot) (removed : List String) (path : String) :
    (removed.foldl (putBack previous) base).get? path =
      if path ∈ removed then (previous.get? path).or (base.get? path) else base.get? path := by
  induction removed generalizing base with
  | nil => simp
  | cons p removed ih =>
    rw [List.foldl_cons, ih, get?_putBack]
    by_cases hp : path = p
    · subst hp
      cases previous.get? path <;> simp
    · simp [hp]

/-- A first update compares with the noted values of the removed paths. -/
theorem get?_baseline_first (previous : Snapshot) (removed : List String) (path : String) :
    (baseline true previous removed).get? path =
      if path ∈ removed then previous.get? path else none := by
  refine (get?_foldl_putBack previous .empty removed path).trans ?_
  split
  · exact Option.or_none
  · rfl

/-- Patches for forced paths are added for paths without a patch, and set current values. -/
theorem foldl_addForced {current : Snapshot} {patches : List Patch}
    (hn : (patches.map Patch.path).Nodup)
    (hv : ∀ patch ∈ patches, patch.value? = current.get? patch.path) (forced : List String) :
    ((forced.foldl (addForced current) patches).map Patch.path).Nodup ∧
      (∀ patch ∈ forced.foldl (addForced current) patches,
        patch.value? = current.get? patch.path) ∧
      ∀ patch ∈ patches, patch ∈ forced.foldl (addForced current) patches := by
  induction forced generalizing patches with
  | nil => exact ⟨hn, hv, fun _ hm => hm⟩
  | cons path forced ih =>
    rw [List.foldl_cons]
    suffices ((addForced current patches path).map Patch.path).Nodup ∧
        (∀ patch ∈ addForced current patches path, patch.value? = current.get? patch.path) ∧
        ∀ patch ∈ patches, patch ∈ addForced current patches path by
      obtain ⟨hn', hv', hm⟩ := ih this.1 this.2.1
      exact ⟨hn', hv', fun patch hp => hm patch (this.2.2 patch hp)⟩
    rw [addForced]
    split
    · exact ⟨hn, hv, fun _ hm => hm⟩
    · rename_i hout
      split
      · rename_i value hvalue
        refine ⟨?_, ?_, fun _ hm => List.mem_append_left _ hm⟩
        · rw [List.map_append, List.nodup_append]
          refine ⟨hn, by simp, fun p hp q hq he => hout ?_⟩
          obtain ⟨patch, hm, rfl⟩ := List.mem_map.1 hp
          rw [List.map_singleton, List.mem_singleton] at hq
          exact List.any_eq_true.2 ⟨patch, hm, decide_eq_true (he.trans hq)⟩
        · intro patch hm
          rcases List.mem_append.1 hm with hm | hm
          · exact hv patch hm
          · obtain rfl := List.mem_singleton.1 hm
            exact hvalue.symm
      · exact ⟨hn, hv, fun _ hm => hm⟩

section

variable {b : ChangeBatch} {before after previous : Snapshot} {removed : List String}
  {result : PassResult}

/-- The paths at which an update compares values. -/
def listed (b : ChangeBatch) (after : Snapshot) (removed : List String) (result : PassResult) :
    List String :=
  removedPaths after removed ++ result.evaluationOrder ++ b.changed.keys

theorem updateOf_patches (b : ChangeBatch) (first : Bool) (removed : List String)
    (previous after : Snapshot) (result : PassResult) :
    (updateOf b first removed previous after result).patches =
      b.forced.keys.foldl (addForced after)
        (Patch.diff (baseline first previous (removedPaths after removed)) after
          (listed b after removed result)) := rfl

/-- No path has two patches in an update. -/
theorem nodup_updateOf (first : Bool) :
    ((updateOf b first removed previous after result).patches.map Patch.path).Nodup := by
  rw [updateOf_patches]
  refine (foldl_addForced (Patch.nodup_diff _ _ _) (fun patch hp => ?_) _).1
  obtain ⟨path, -, hat⟩ := Patch.mem_diff.1 hp
  rw [Patch.value?_of_at? hat, Patch.path_of_at? hat]

/-- Replaying the patches of an update leads to the values after the batch from all values that are
equal to them at the paths without a difference. -/
theorem replay_updateOf {first : Bool} {start : Snapshot}
    (h : ∀ path, (path ∈ listed b after removed result →
      Patch.at? (baseline first previous (removedPaths after removed)) after path = none) →
      Snapshot.Alike (start.get? path) (after.get? path)) :
    (Patch.replay start (updateOf b first removed previous after result).patches == after) =
      true := by
  have hdiff : ∀ patch ∈ Patch.diff (baseline first previous (removedPaths after removed)) after
      (listed b after removed result), patch.value? = after.get? patch.path := by
    intro patch hp
    obtain ⟨path, -, hat⟩ := Patch.mem_diff.1 hp
    rw [Patch.value?_of_at? hat, Patch.path_of_at? hat]
  obtain ⟨hn, hv, hm⟩ := foldl_addForced (Patch.nodup_diff _ _ _) hdiff b.forced.keys
  rw [updateOf_patches]
  refine Patch.replay_beq hn hv fun path hp => h path fun hl => ?_
  cases hat : Patch.at? (baseline first previous (removedPaths after removed)) after path with
  | none => rfl
  | some patch =>
    exact absurd (Patch.path_of_at? hat) (hp patch (hm patch (Patch.mem_diff.2 ⟨path, hl, hat⟩)))

variable (h : Reported before after previous removed result.evaluationOrder)
include h

/-- An update leads from the values before to those after. -/
theorem replay_before :
    (Patch.replay before (updateOf b false removed previous after result).patches == after) =
      true := by
  refine replay_updateOf fun path hat => ?_
  cases hafter : after.get? path with
  | none =>
    cases hbefore : before.get? path with
    | none => trivial
    | some v =>
      obtain ⟨hr, hp⟩ := h.lost path v hbefore hafter
      have hl : path ∈ listed b after removed result :=
        List.mem_append_left _ (List.mem_append_left _ (mem_removedPaths.2 ⟨hr, hafter⟩))
      have halike := Patch.at?_eq_none_iff.1 (hat hl)
      rw [hafter, show (baseline false previous (removedPaths after removed)).get? path = some v
        from hp] at halike
      exact halike
  | some now =>
    by_cases ho : path ∈ result.evaluationOrder
    · have hl : path ∈ listed b after removed result :=
        List.mem_append_left _ (List.mem_append_right _ ho)
      have halike := Patch.at?_eq_none_iff.1 (hat hl)
      rw [hafter, show baseline false previous (removedPaths after removed) = previous
        from rfl] at halike
      cases hp : previous.get? path with
      | none =>
        rw [hp] at halike
        exact halike.elim
      | some v =>
        rw [hp] at halike
        rw [h.noted path v hp]
        exact halike
    · rw [h.kept path now ho hafter]
      exact .refl _

/-- In a first update, a path without a difference has no value now, and has none before either. -/
theorem get?_eq_none_of_first
    (hfull : ∀ path v, after.get? path = some v → path ∈ result.evaluationOrder) {path : String}
    (hat : path ∈ listed b after removed result →
      Patch.at? (baseline true previous (removedPaths after removed)) after path = none) :
    before.get? path = none ∧ after.get? path = none := by
  have hafter : after.get? path = none := by
    cases hafter : after.get? path with
    | none => rfl
    | some now =>
      have hl : path ∈ listed b after removed result :=
        List.mem_append_left _ (List.mem_append_right _ (hfull path now hafter))
      have halike := Patch.at?_eq_none_iff.1 (hat hl)
      rw [get?_baseline_first, if_neg fun hr => ?_, hafter] at halike
      · exact halike.elim
      · rw [(mem_removedPaths.1 hr).2] at hafter
        cases hafter
  refine ⟨?_, hafter⟩
  cases hbefore : before.get? path with
  | none => rfl
  | some v =>
    obtain ⟨hr, hp⟩ := h.lost path v hbefore hafter
    have hgone := mem_removedPaths.2 ⟨hr, hafter⟩
    have hl : path ∈ listed b after removed result :=
      List.mem_append_left _ (List.mem_append_left _ hgone)
    have halike := Patch.at?_eq_none_iff.1 (hat hl)
    rw [get?_baseline_first, if_pos hgone, hp, hafter] at halike
    exact halike.elim

/-- A first update leads to the values after from those before, and from nothing. -/
theorem replay_first
    (hfull : ∀ path v, after.get? path = some v → path ∈ result.evaluationOrder) :
    (Patch.replay before (updateOf b true removed previous after result).patches == after) = true ∧
      (Patch.replay .empty (updateOf b true removed previous after result).patches == after) =
        true := by
  constructor
  · refine replay_updateOf fun path hat => ?_
    obtain ⟨hb, ha⟩ := get?_eq_none_of_first h hfull hat
    rw [hb, ha]
    trivial
  · refine replay_updateOf fun path hat => ?_
    rw [(get?_eq_none_of_first h hfull hat).2]
    trivial

end

end Evaluator

/-! ### What a batch keeps track of -/

/-- In the middle of a batch no value is new, and one that is gone is noted and listed. -/
structure Tracks (before : Snapshot) (p : Progress) : Prop where
  /-- Stored values are values from before. -/
  stored : ∀ path v, p.evaluator.snapshot.get? path = some v → before.get? path = some v
  /-- Noted values are values from before. -/
  noted : ∀ path v, p.work.previous.get? path = some v → before.get? path = some v
  /-- A value from before is still stored, or noted and listed. -/
  lost : ∀ path v, before.get? path = some v → p.evaluator.snapshot.get? path = some v ∨
    path ∈ p.work.removed ∧ p.work.previous.get? path = some v

namespace Tracks

variable {before : Snapshot} {p p' : Progress}

theorem start (e : Evaluator) : Tracks e.snapshot ⟨e, .empty⟩ where
  stored _ _ hv := hv
  noted _ _ hv := by cases hv
  lost _ _ hv := .inl hv

theorem step (h : Tracks before p) (hs : p.Step p') : Tracks before p' := by
  cases hs with
  | write spec =>
    obtain ⟨bulk, nextIdentity, he⟩ := spec.fixed
    have hsnapshot : p'.evaluator.snapshot = p.evaluator.snapshot := by rw [he]
    obtain ⟨hr, hp⟩ := spec.noted
    exact ⟨hsnapshot ▸ h.stored, hp ▸ h.noted, hsnapshot ▸ hr ▸ hp ▸ h.lost⟩
  | @restructure name new _ spec =>
    refine ⟨fun path v hv => ?_, fun path v hv => ?_, fun path v hv => ?_⟩
    · by_cases hst : p.Stale name new path
      · rw [spec.unset path hst] at hv
        cases hv
      · rw [spec.kept path hst] at hv
        exact h.stored path v hv
    · by_cases hst : p.Stale name new path
      · rw [spec.noted path hst, Option.or_eq_some_iff] at hv
        rcases hv with hv | ⟨-, hv⟩
        · exact h.noted path v hv
        · exact h.stored path v hv
      · rw [spec.previous path hst] at hv
        exact h.noted path v hv
    · rw [spec.removed]
      by_cases hst : p.Stale name new path
      · refine .inr ⟨.inr hst, ?_⟩
        rw [spec.noted path hst, Option.or_eq_some_iff]
        rcases h.lost path v hv with hs | ⟨-, hp⟩
        · cases hp : p.work.previous.get? path with
          | none => exact .inr ⟨rfl, hs⟩
          | some w =>
            rw [h.noted path w hp] at hv
            exact .inl hv
        · exact .inl hp
      · rw [spec.kept path hst, spec.previous path hst]
        exact (h.lost path v hv).imp_right fun hr => ⟨.inl hr.1, hr.2⟩

end Tracks

/-! ### The update of a batch -/

namespace Coherent

variable {e : Evaluator} {b : ChangeBatch} {p p' : Progress}

/-- **A batch keeps track of the values from before it.** -/
theorem tracks (h : Coherent e (fun _ => False) (fun _ => False)) (ha : e.Applies b p p') :
    Tracks e.snapshot p' := by
  have hp := (ha.moves.invariant (Tracks e.snapshot) (fun _ hs ht => ht.step hs)
    (Progress.underway_start h) (Tracks.start e)).2
  obtain ⟨graph, readers, reads, roots, hf⟩ := ha.rebuilt.fixed
  subst hf
  exact ⟨hp.stored, hp.noted, hp.lost⟩

/-- What the pass of a batch has to report. -/
theorem reported (h : Coherent e (fun _ => False) (fun _ => False)) (ha : e.Applies b p p')
    (roots : Option (List String)) :
    Reported e.snapshot (p'.evaluator.passOf roots p'.work.previous).snapshot
      (p'.evaluator.passOf roots p'.work.previous).previous p'.work.removed
      (p'.evaluator.passOf roots p'.work.previous).evaluationOrder := by
  have ht := h.tracks ha
  have hv := ha.coherent.visited_passOf roots p'.work.previous
  refine ⟨fun path v hp => ?_, fun path v hbefore hafter => ?_, fun path v ho hafter => ?_⟩
  · by_cases hm : path ∈ p'.evaluator.visitedPaths roots ∧ p'.evaluator.ordered.tree.Leaf path
    · rw [hv.noted path hm.1 hm.2, Option.or_eq_some_iff] at hp
      rcases hp with hp | ⟨-, hp⟩
      · exact ht.noted path v hp
      · exact ht.stored path v hp
    · rw [hv.unnoted path hm] at hp
      exact ht.noted path v hp
  · have hm : ¬ (path ∈ p'.evaluator.visitedPaths roots ∧
        p'.evaluator.ordered.tree.Leaf path) := fun hm => by
      obtain ⟨w, hw⟩ := hv.stored path hm.1 hm.2
      rw [hafter] at hw
      cases hw
    rw [hv.kept path hm] at hafter
    rw [hv.unnoted path hm]
    refine (ht.lost path v hbefore).resolve_left fun hs => ?_
    rw [show p'.evaluator.snapshot.get? path = none from hafter] at hs
    cases hs
  · rw [hv.kept path fun hm => ho ((hv.ran path).2 (.inr hm))] at hafter
    exact ht.stored path v hafter

/-- A full pass runs all leaves. -/
theorem mem_evaluationOrder_of_full (ha : e.Applies b p p') {path : String} {v : Value}
    (hv : (p'.evaluator.passOf none p'.work.previous).snapshot.get? path = some v) :
    path ∈ (p'.evaluator.passOf none p'.work.previous).evaluationOrder := by
  have hleaf := (ha.coherent.exists_value_passOf p'.work.previous
    (fun _ he => by cases he) path).1 ⟨v, hv⟩
  refine ((ha.coherent.visited_passOf none p'.work.previous).ran path).2 (.inr ⟨?_, hleaf⟩)
  exact ha.coherent.mem_visitedPaths.2 ⟨hleaf.has, fun _ he => by cases he⟩

/-- The patches of a batch carry its changes. -/
theorem replay_finish (h : Coherent e (fun _ => False) (fun _ => False)) (ha : e.Applies b p p') :
    (Patch.replay e.snapshot (Evaluator.finish p' b).2.patches ==
        (Evaluator.finish p' b).1.snapshot) = true ∧
      ((Evaluator.finish p' b).2.isFirstTree = true →
        (Patch.replay .empty (Evaluator.finish p' b).2.patches ==
          (Evaluator.finish p' b).1.snapshot) = true) ∧
      ((Evaluator.finish p' b).2.patches.map Patch.path).Nodup := by
  rw [Evaluator.finish_eq]
  obtain ⟨roots, hroots⟩ : ∃ roots, roots = Evaluator.passRoots p' b := ⟨_, rfl⟩
  obtain ⟨he, hp, -, ho⟩ := Evaluator.runPass_eq ha.coherent.graph roots p'.work.previous
  have hr := h.reported ha roots
  rw [← ho] at hr
  simp only [← hroots, he, hp]
  cases hf : p'.evaluator.evaluatedOnce with
  | true =>
    exact ⟨Evaluator.replay_before hr, fun hfirst => (by cases hfirst), Evaluator.nodup_updateOf _⟩
  | false =>
    obtain rfl : roots = none := by
      rw [hroots, Evaluator.passRoots, hf, Bool.not_false, Bool.or_true, if_pos rfl]
    obtain ⟨hbefore, hempty⟩ := Evaluator.replay_first (b := b) hr fun path v hv =>
      ho ▸ mem_evaluationOrder_of_full ha hv
    exact ⟨hbefore, fun _ => hempty, Evaluator.nodup_updateOf _⟩

/-- The patches of a batch that succeeds carry its changes. -/
theorem replay_apply (h : Coherent e (fun _ => False) (fun _ => False)) (ht : b.Tidy)
    {e' : Evaluator} {u : Update} (ha : e.apply b = (e', .ok u)) :
    (Patch.replay e.snapshot u.patches == e'.snapshot) = true ∧
      (u.isFirstTree = true → (Patch.replay .empty u.patches == e'.snapshot) = true) ∧
      (u.patches.map Patch.path).Nodup := by
  obtain ⟨hp, ⟨-, -, rfl, rfl⟩ | hc⟩ := Evaluator.apply_eq_ok ha
  · exact ⟨Snapshot.beq_of_alike fun path => .refl _, fun hf => (by cases hf), List.nodup_nil⟩
  · obtain ⟨p, p', hap⟩ := h.applies hp ht
    rw [hap.result] at hc
    obtain ⟨rfl, hu⟩ := Prod.mk.inj hc
    obtain rfl := Except.ok.inj hu
    exact h.replay_finish hap

end Coherent

/-- **Patches carry the whole change**: replaying the patches of an update leads from the values
before the call to those after it, those of a first update lead there from nothing, and no path has
two patches. -/
theorem Evaluator.Reaches.replay_patches {settings : Settings} {engine : Engine} {e : Evaluator}
    (h : Reaches Call.Tidy (ofEngine settings engine) e) {c : Call} (ht : c.Tidy) {e' : Evaluator}
    {u : Update} (hu : e.Updates c e' u) :
    (Patch.replay e.snapshot u.patches == e'.snapshot) = true ∧
      (u.isFirstTree = true → (Patch.replay .empty u.patches == e'.snapshot) = true) ∧
      (u.patches.map Patch.path).Nodup := by
  have hc := h.coherent (fun _ hc => hc) (.ofEngine settings engine)
  cases hu with
  | load ha =>
    exact (hc.withEvaluatedOnce false).replay_apply (tidy_loadBatch _ ht) (load_eq_ok ha)
  | apply ha => exact hc.replay_apply ht ha

/-- The patches of a new greeting lead from the values of the old one and its echo to the new
values. -/
theorem Evaluator.replay_patches_greeting : ∃ (e e' : Evaluator) (u : Update),
    Reaches Call.Tidy (ofEngine .default .standard) e ∧ e.tree.names = ["Echo", "Greeting"] ∧
    e.Updates (.apply (.setValue .empty "Greeting.text" (.string "good day"))) e' u ∧
    (Patch.replay e.snapshot u.patches == e'.snapshot) = true ∧
      (u.isFirstTree = true → (Patch.replay .empty u.patches == e'.snapshot) = true) ∧
      (u.patches.map Patch.path).Nodup := by
  obtain ⟨e, hr, ht⟩ := exists_reaches_load .default .standard loadable_echo.tidy loadable_echo
  have hc := hr.coherent (fun _ hc => hc) (.ofEngine .default .standard)
  have htidy : Call.Tidy (.apply (.setValue .empty "Greeting.text" (.string "good day"))) :=
    .setValue trivial
  obtain ⟨e', u, hu⟩ := hc.exists_apply (by
    rw [validateAll, ht]
    rfl) htidy
  exact ⟨e, e', u, hr, by rw [ht]; rfl, .apply hu, hr.replay_patches htidy (.apply hu)⟩

end Recalc
