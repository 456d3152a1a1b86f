import Recalc.Evaluator.Apply
import Recalc.Proofs.Evaluator.Coherent
import Recalc.Proofs.Evaluator.Validation
import Mathlib.Logic.Relation

/-!
# The changes of a batch, step by step

A checked batch stores records under proper names and writes to paths of keys
(`Evaluator.proper_of_validateAll`). If its values are tidy as well, performing it is a sequence of
steps (`perform_moves`), each of which either puts a record in the place of another one or writes a
value in place; what every step keeps is kept by the batch.
-/

namespace Recalc

/-! ### Tidy batches -/

/-- The objects in the values of the change have keys of paths. -/
def StructuralChange.Tidy : StructuralChange → Prop
  | .upsert record => record.entity.Tidy
  | .remove _ => True

/-- The objects in the stored records and the written values have keys of paths. -/
structure ChangeBatch.Tidy (b : ChangeBatch) : Prop where
  /-- The stored records are tidy. -/
  structural : ∀ c ∈ b.structural, c.Tidy
  /-- The written values are tidy. -/
  values : ∀ w ∈ b.values, w.2.Tidy

namespace ChangeBatch

theorem tidy_empty : empty.Tidy := ⟨fun c hc => (by cases hc), fun w hw => (by cases hw)⟩

theorem Tidy.upsertEntity {b : ChangeBatch} (h : b.Tidy) {record : EntityRecord}
    (hr : record.entity.Tidy) : (b.upsertEntity record).Tidy where
  structural := List.forall_mem_append.2 ⟨h.structural, fun c hc => by
    rw [List.mem_singleton.1 hc]
    exact hr⟩
  values := h.values

theorem Tidy.removeEntity {b : ChangeBatch} (h : b.Tidy) (name : String) :
    (b.removeEntity name).Tidy where
  structural := List.forall_mem_append.2 ⟨h.structural, by simp [StructuralChange.Tidy]⟩
  values := h.values

theorem Tidy.setValue {b : ChangeBatch} (h : b.Tidy) (path : String) {value : Json}
    (hv : value.Tidy) : (b.setValue path value).Tidy where
  structural := h.structural
  values := List.forall_mem_append.2
    ⟨fun w hw => h.values w (List.mem_of_mem_filter hw), by simpa using hv⟩

end ChangeBatch

/-! ### Steps -/

namespace Progress

/-- One step of a batch. -/
inductive Step (p : Progress) : Progress → Prop where
  /-- A record takes the place of another one, or ceases to exist. -/
  | restructure {name : String} {new : Option EntityRecord} {p' : Progress}
      (spec : p.Restructured name new p') (tree : p'.evaluator.tree.Regular)
      (named : ∀ r, new = some r → r.name = name ∧ r.WellFormed) : Step p p'
  /-- A value is written in place. -/
  | write {record : EntityRecord} {path property : String} {value : Json} {p' : Progress}
      (spec : p.Written record path property value p')
      (found : p.evaluator.tree.get? record.name = some record)
      (shape : record.KeepsShape property value)
      (wellFormed : (record.set property value).WellFormed)
      (path_eq : path = Path.join record.name property) : Step p p'

/-- What holds while the changes of a batch are made. -/
structure Underway (p : Progress) : Prop where
  /-- The evaluator matches its tree, up to marked leaves and queued entities. -/
  coherent : Coherent p.evaluator (· ∈ p.work.roots.keys) (· ∈ p.work.rebuild.keys)
  /-- Every node of the graph is listed. -/
  listed : p.evaluator.Listed
  /-- The sets of the work are in step. -/
  inStep : p.InStep

/-- A batch starts from a coherent evaluator. -/
theorem underway_start {e : Evaluator} (h : Coherent e (fun _ => False) (fun _ => False)) :
    Underway ⟨e, .empty⟩ where
  coherent := h.mono (fun _ _ hp => hp.elim) (fun _ _ _ hd => hd.elim)
  listed := h.listed
  inStep := ⟨PendingSet.inStep_empty, PendingSet.inStep_empty⟩

theorem Step.underway {p p' : Progress} (hs : Step p p') (h : p.Underway) : p'.Underway := by
  cases hs with
  | restructure spec tree named =>
    exact ⟨h.coherent.restructured spec named h.listed tree,
      h.coherent.listed_restructured spec h.listed, spec.inStep⟩
  | write spec found shape wellFormed path_eq =>
    exact ⟨h.coherent.written spec found shape wellFormed path_eq,
      Coherent.listed_written spec h.listed, spec.inStep⟩

/-- Several steps, one after another. -/
def Moves : Progress → Progress → Prop := Relation.ReflTransGen Step

theorem Moves.invariant (Inv : Progress → Prop) (hstep : ∀ {p p'}, p.Underway → Step p p' →
    Inv p → Inv p') {p p' : Progress} (hm : p.Moves p') (hu : p.Underway) (h : Inv p) :
    p'.Underway ∧ Inv p' := by
  induction hm with
  | refl => exact ⟨hu, h⟩
  | tail _ hs ih => exact ⟨hs.underway ih.1, hstep ih.1 hs ih.2⟩

theorem Moves.underway {p p' : Progress} (hm : p.Moves p') (hu : p.Underway) : p'.Underway :=
  (hm.invariant (fun _ => True) (fun _ _ _ => trivial) hu trivial).1

theorem Underway.upsertEntity_step {p : Progress} (h : p.Underway) {record : EntityRecord}
    (hr : record.WellFormed) : Step p (p.upsertEntity record) := by
  have hs := upsertEntity_spec h.inStep hr h.coherent.tree.named
  have ht := (p.turns_upsertEntity record).tree
  refine .restructure hs (ht ▸ h.coherent.tree.upsert hr) fun r he => ?_
  obtain rfl := Option.some.inj he
  exact ⟨rfl, hr⟩

/-- A structural change does nothing, or it is one step. -/
theorem Underway.change_step {p : Progress} (h : p.Underway) {c : StructuralChange}
    (hp : c.Proper) (ht : c.Tidy) : p.change c = p ∨ Step p (p.change c) := by
  cases c with
  | upsert record => exact .inr (h.upsertEntity_step ⟨hp, ht⟩)
  | remove name =>
    rw [change]
    cases hr : p.evaluator.tree.get? name with
    | none => exact .inl (by rw [removeEntity, hr])
    | some record =>
      have hs := removeEntity_spec h.inStep h.coherent.mirrored hr (h.coherent.tree.named hr)
      have htree := (p.turns_removeEntity name).tree
      exact .inr (.restructure hs (htree ▸ h.coherent.tree.remove name) fun r he => by cases he)

/-- A write does nothing, or it sets a property of a record, in place or by storing the record. -/
theorem Underway.writeValue_cases {p : Progress} (h : p.Underway) {write : String × Json}
    (hp : Path.Writable write.1) (ht : write.2.Tidy) : p.writeValue write = p ∨
      ∃ record property, p.evaluator.tree.get? record.name = some record ∧
        (record.set property write.2).WellFormed ∧
        (record.KeepsShape property write.2 ∧ write.1 = Path.join record.name property ∧
            p.writeValue write = p.writeInPlace record write.1 property write.2 ∨
          p.writeValue write = p.upsertEntity (record.set property write.2)) := by
  obtain ⟨name, rest, hpath, hkeys, hne⟩ := hp
  have hsplit : Path.split write.1 = (name, Path.joinSegments rest) := by
    rw [hpath]
    exact Path.split_joinSegments hkeys.not_mem_separator
  rcases p.writeValue_cases write with ⟨-, he⟩ | ⟨record, hr, he⟩
  · exact .inl he
  · rw [Path.entityOf, hsplit] at hr
    rw [hsplit] at he
    obtain rfl := h.coherent.tree.named hr
    have hrest := (Path.keys_cons.1 hkeys).2
    refine .inr ⟨record, Path.joinSegments rest, hr, ?_, ?_⟩
    · refine (h.coherent.tree.wellFormed hr).set ?_ ht
      rw [Path.segments_join hne hrest]
      exact hrest
    · refine he.imp_left fun hk => ⟨hk.1, ?_, hk.2⟩
      rw [Path.join_joinSegments hrest, hpath]

/-- A write does nothing, or it is one step. -/
theorem Underway.writeValue_step {p : Progress} (h : p.Underway) {write : String × Json}
    (hp : Path.Writable write.1) (ht : write.2.Tidy) :
    p.writeValue write = p ∨ Step p (p.writeValue write) := by
  rcases h.writeValue_cases hp ht with he | ⟨record, property, hr, hset, ⟨hk, hpath, he⟩ | he⟩
  · exact .inl he
  · rw [he]
    exact .inr (.write (writeInPlace_spec h.inStep _ _ _ _) hr hk hset hpath)
  · rw [he]
    exact .inr (h.upsertEntity_step hset)

theorem Underway.moves_foldl {A : Type} {step : Progress → A → Progress} {list : List A}
    {p : Progress} (h : p.Underway)
    (hstep : ∀ q, Underway q → ∀ a ∈ list, step q a = q ∨ Step q (step q a)) :
    p.Moves (list.foldl step p) := by
  induction list generalizing p with
  | nil => exact .refl
  | cons a list ih =>
    have hm : p.Moves (step p a) := by
      rcases hstep p h a List.mem_cons_self with he | hs
      · rw [he]
        exact .refl
      · exact .single hs
    exact hm.trans (ih (hm.underway h) fun q hq b hb => hstep q hq b (List.mem_cons_of_mem _ hb))

/-- **A batch is performed in steps.** -/
theorem Underway.perform_moves {p : Progress} (h : p.Underway) {b : ChangeBatch} (hp : b.Proper)
    (ht : b.Tidy) : p.Moves (p.perform b) := by
  have hm : p.Moves (b.structural.foldl change p) := h.moves_foldl fun q hq c hc =>
    hq.change_step (hp.structural c hc) (ht.structural c hc)
  exact hm.trans ((hm.underway h).moves_foldl fun q hq w hw =>
    hq.writeValue_step (hp.values w hw) (ht.values w hw))

end Progress

end Recalc
