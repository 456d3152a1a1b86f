import Recalc.Proofs.Batch

/-!
# Batches one after another

Merging has two parts: the structural changes of the later batch make parts of the earlier one void
(`supersede`), and what is left is put before the later batch (`append`). Putting batches one behind
the other is associative (`Orderly.append_assoc`), and structural changes make the same void in a
batch made of two as in the two by themselves (`Orderly.foldl_supersede_append`). So it does not
matter how the merges of several batches are grouped (`Built.merge_laws`).

Both laws need batches that list each mark and each written path once (`Orderly`), which all batches
do that are built by single changes and merges.
-/

namespace Recalc.ChangeBatch

attribute [ext] ChangeBatch

/-! ### Writes -/

theorem nodup_addWrite {values : List (String × Json)} (h : (values.map (·.1)).Nodup)
    (w : String × Json) : ((addWrite values w).map (·.1)).Nodup := by
  rw [addWrite, List.map_append, List.map_singleton]
  refine List.nodup_append.2 ⟨h.sublist (List.filter_sublist.map _), by simp, ?_⟩
  rintro path hp other ho rfl
  obtain ⟨v, hv, rfl⟩ := List.mem_map.1 hp
  exact of_decide_eq_true (List.mem_filter.1 hv).2 (List.mem_singleton.1 ho)

theorem nodup_foldl_addWrite {values : List (String × Json)} (h : (values.map (·.1)).Nodup)
    (later : List (String × Json)) : ((later.foldl addWrite values).map (·.1)).Nodup := by
  induction later generalizing values with
  | nil => exact h
  | cons w later ih => exact ih (nodup_addWrite h w)

/-- Writes to different paths are put behind those of the earlier ones that go to other paths. -/
theorem foldl_addWrite {later : List (String × Json)} (h : (later.map (·.1)).Nodup)
    (values : List (String × Json)) : later.foldl addWrite values =
      (values.filter fun w => w.1 ∉ later.map (·.1)) ++ later := by
  induction later generalizing values with
  | nil => simp
  | cons w later ih =>
    obtain ⟨hout, hn⟩ := List.nodup_cons.1 h
    have hself : ([w].filter fun v => v.1 ∉ later.map (·.1)) = [w] :=
      List.filter_cons_of_pos (by simpa using hout)
    rw [List.foldl_cons, ih hn, addWrite, List.filter_append, hself, List.filter_filter,
      List.append_assoc, List.singleton_append]
    congr 1
    refine List.filter_congr fun v _ => ?_
    simp only [List.map_cons, List.mem_cons, not_or, ← Bool.decide_and, and_comm]

/-- Adding writes is associative. -/
theorem foldl_addWrite_assoc {b c : List (String × Json)} (hb : (b.map (·.1)).Nodup)
    (hc : (c.map (·.1)).Nodup) (a : List (String × Json)) :
    c.foldl addWrite (b.foldl addWrite a) = (c.foldl addWrite b).foldl addWrite a := by
  rw [foldl_addWrite (nodup_foldl_addWrite hb c), foldl_addWrite hc, foldl_addWrite hb,
    foldl_addWrite hc b, List.filter_append, List.filter_filter, List.append_assoc]
  congr 1
  -- A write of `a` stays if neither `b` nor `c` goes to its path.
  refine List.filter_congr fun w _ => ?_
  rw [← foldl_addWrite hc b]
  simp only [mem_map_foldl_addWrite]
  grind

/-- Writes to paths of a kind may be dropped before others are added. -/
theorem filter_foldl_addWrite {later : List (String × Json)} (h : (later.map (·.1)).Nodup)
    (keep : String → Bool) (values : List (String × Json)) :
    (later.foldl addWrite values).filter (fun w => keep w.1) =
      (later.filter fun w => keep w.1).foldl addWrite (values.filter fun w => keep w.1) := by
  rw [foldl_addWrite h, foldl_addWrite (h.sublist (List.filter_sublist.map _)),
    List.filter_append, List.filter_filter, List.filter_filter]
  congr 1
  refine List.filter_congr fun w _ => ?_
  cases hk : keep w.1 <;> simp [hk]

/-! ### Orderly batches -/

/-- The marked paths are listed as they are indexed. -/
structure InStep (b : ChangeBatch) : Prop where
  /-- The paths whose value may have changed. -/
  changed : b.changed.InStep
  /-- The paths whose value is sent. -/
  forced : b.forced.InStep

/-- A batch without marks is in step. -/
theorem inStep_of_empty {b : ChangeBatch} (hc : b.changed = .empty) (hf : b.forced = .empty) :
    b.InStep := ⟨hc ▸ PendingSet.inStep_empty, hf ▸ PendingSet.inStep_empty⟩

theorem inStep_empty : empty.InStep := inStep_of_empty rfl rfl

namespace InStep

variable {b later : ChangeBatch} (h : b.InStep)
include h

theorem supersede (c : StructuralChange) : (b.supersede c).InStep := by
  cases c with
  | upsert record => exact ⟨h.changed, h.forced⟩
  | remove name => exact ⟨h.changed.retain _, h.forced.retain _⟩

theorem foldl_supersede (changes : List StructuralChange) :
    (changes.foldl ChangeBatch.supersede b).InStep := by
  induction changes generalizing b with
  | nil => exact h
  | cons c changes ih => exact ih (h.supersede c)

theorem merge (later : ChangeBatch) : (b.merge later).InStep :=
  ⟨(h.foldl_supersede _).changed.extend _, (h.foldl_supersede _).forced.extend _⟩

/-- With a batch that asks for something, the merged batch asks for something. -/
theorem isEmpty_merge (hl : later.isEmpty = false) : (b.merge later).isEmpty = false := by
  have hs := h.foldl_supersede later.structural
  refine Bool.eq_false_iff.2 fun hm => Bool.eq_false_iff.1 hl ?_
  simp only [isEmpty, PendingSet.isEmpty, Bool.and_eq_true, List.isEmpty_iff,
    Bool.not_eq_true'] at hm ⊢
  obtain ⟨⟨⟨⟨hstructural, hvalues⟩, hchanged⟩, hforced⟩, hfull⟩ := hm
  refine ⟨⟨⟨⟨?_, ?_⟩, ?_⟩, ?_⟩, ?_⟩
  · rw [structural_merge] at hstructural
    exact (List.append_eq_nil_iff.1 hstructural).2
  · refine List.eq_nil_iff_forall_not_mem.2 fun w hw => ?_
    have hwritten : w.1 ∈ (b.merge later).written :=
      mem_written_merge.2 (.inl (List.mem_map_of_mem hw))
    rw [written, hvalues] at hwritten
    cases hwritten
  · exact hs.changed.eq_nil_of_extend hchanged
  · exact hs.forced.eq_nil_of_extend hforced
  · exact (Bool.or_eq_false_iff.1 hfull).2

end InStep

/-- Each mark and each written path is listed once. -/
structure Orderly (b : ChangeBatch) : Prop extends b.InStep where
  /-- No path is written twice. -/
  written : b.written.Nodup

/-- A batch that makes nothing in the earlier one void is put behind it. -/
def append (b later : ChangeBatch) : ChangeBatch where
  structural := b.structural ++ later.structural
  values := later.values.foldl addWrite b.values
  changed := b.changed.extend later.changed.keys
  forced := b.forced.extend later.forced.keys
  full := b.full || later.full

theorem merge_eq (b later : ChangeBatch) :
    b.merge later = (later.structural.foldl supersede b).append later := rfl

theorem append_empty (b : ChangeBatch) : b.append empty = b := by
  ext1
  · exact List.append_nil _
  · rfl
  · rfl
  · rfl
  · exact Bool.or_false _

/-- There is nothing in the empty batch to make void. -/
theorem foldl_supersede_empty (changes : List StructuralChange) :
    changes.foldl supersede empty = empty := by
  induction changes with
  | nil => rfl
  | cons change changes ih =>
    have hstep : supersede empty change = empty := by cases change <;> rfl
    rw [List.foldl_cons, hstep, ih]

namespace Orderly

theorem supersede {b : ChangeBatch} (h : b.Orderly) (c : StructuralChange) :
    (b.supersede c).Orderly := by
  refine ⟨h.toInStep.supersede c, ?_⟩
  cases c <;> exact h.written.sublist (List.filter_sublist.map _)

theorem foldl_supersede {b : ChangeBatch} (h : b.Orderly) (changes : List StructuralChange) :
    (changes.foldl ChangeBatch.supersede b).Orderly := by
  induction changes generalizing b with
  | nil => exact h
  | cons c changes ih => exact ih (h.supersede c)

theorem append {b : ChangeBatch} (h : b.Orderly) (later : ChangeBatch) :
    (b.append later).Orderly where
  changed := h.changed.extend _
  forced := h.forced.extend _
  written := nodup_foldl_addWrite h.written later.values

theorem merge {b : ChangeBatch} (h : b.Orderly) (later : ChangeBatch) :
    (b.merge later).Orderly := (h.foldl_supersede _).append later

theorem empty_append {b : ChangeBatch} (h : b.Orderly) : empty.append b = b := by
  ext1
  · exact List.nil_append _
  · exact (foldl_addWrite h.written []).trans (List.nil_append _)
  · exact h.changed.empty_extend
  · exact h.forced.empty_extend
  · exact Bool.false_or _

variable {a b c : ChangeBatch} (ha : a.Orderly) (hb : b.Orderly)

include ha hb

/-- Putting batches one behind the other is associative. -/
theorem append_assoc (hc : c.Orderly) : (a.append b).append c = a.append (b.append c) := by
  ext1
  · exact List.append_assoc _ _ _
  · exact foldl_addWrite_assoc hb.written hc.written a.values
  · exact ha.changed.extend_extend hb.changed hc.changed
  · exact ha.forced.extend_extend hb.forced hc.forced
  · exact Bool.or_assoc _ _ _

/-- A structural change makes the same void in both parts. -/
theorem supersede_append (change : StructuralChange) :
    (a.append b).supersede change = (a.supersede change).append (b.supersede change) := by
  have hvalues := filter_foldl_addWrite hb.written
    (fun path => Path.entityOf path ≠ change.entity) a.values
  cases change with
  | upsert record =>
    ext1
    · rfl
    · exact hvalues
    · rfl
    · rfl
    · rfl
  | remove name =>
    ext1
    · rfl
    · exact hvalues
    · exact ha.changed.retain_extend hb.changed _
    · exact ha.forced.retain_extend hb.forced _
    · rfl

theorem foldl_supersede_append (changes : List StructuralChange) :
    changes.foldl ChangeBatch.supersede (a.append b) =
      (changes.foldl ChangeBatch.supersede a).append
        (changes.foldl ChangeBatch.supersede b) := by
  induction changes generalizing a b with
  | nil => rfl
  | cons change changes ih =>
    rw [List.foldl_cons, ha.supersede_append hb]
    exact ih (ha.supersede change) (hb.supersede change)

/-- The merges of three batches may be grouped either way. -/
theorem merge_assoc (hc : c.Orderly) : (a.merge b).merge c = a.merge (b.merge c) := by
  have hleft := ha.foldl_supersede b.structural
  have hstructural : (b.merge c).structural = b.structural ++ c.structural := structural_merge b c
  calc (a.merge b).merge c
    _ = (c.structural.foldl ChangeBatch.supersede
          ((b.structural.foldl ChangeBatch.supersede a).append b)).append c := rfl
    _ = ((c.structural.foldl ChangeBatch.supersede
          (b.structural.foldl ChangeBatch.supersede a)).append
            (c.structural.foldl ChangeBatch.supersede b)).append c := by
      rw [hleft.foldl_supersede_append hb]
    _ = (c.structural.foldl ChangeBatch.supersede
          (b.structural.foldl ChangeBatch.supersede a)).append (b.merge c) :=
      (hleft.foldl_supersede _).append_assoc (hb.foldl_supersede _) hc
    _ = a.merge (b.merge c) := by
      rw [merge_eq a, hstructural, List.foldl_append]

end Orderly

/-! ### Built batches -/

/-- The batches that can be built by single changes and merges. -/
inductive Built : ChangeBatch → Prop where
  /-- The batch without changes. -/
  | empty : Built empty
  /-- An entity is stored. -/
  | upsertEntity {b : ChangeBatch} (h : b.Built) (record : EntityRecord) :
      (b.upsertEntity record).Built
  /-- An entity is removed. -/
  | removeEntity {b : ChangeBatch} (h : b.Built) (name : String) : (b.removeEntity name).Built
  /-- A raw value is written. -/
  | setValue {b : ChangeBatch} (h : b.Built) (path : String) (value : Json) :
      (b.setValue path value).Built
  /-- A path is marked as changed. -/
  | markChanged {b : ChangeBatch} (h : b.Built) (path : String) : (b.markChanged path).Built
  /-- A value is to be sent. -/
  | forceUpdate {b : ChangeBatch} (h : b.Built) (path : String) : (b.forceUpdate path).Built
  /-- Everything is to be evaluated. -/
  | evaluateAll {b : ChangeBatch} (h : b.Built) : b.evaluateAll.Built
  /-- A later batch is merged in. -/
  | merge {b later : ChangeBatch} (h : b.Built) (hl : later.Built) : (b.merge later).Built

/-- Every way of building a batch lists marks and written paths once each. -/
theorem Built.orderly {b : ChangeBatch} (h : b.Built) : b.Orderly := by
  induction h with
  | empty => exact ⟨inStep_empty, List.nodup_nil⟩
  | upsertEntity _ record ih => exact ⟨⟨ih.changed, ih.forced⟩, ih.written⟩
  | removeEntity _ name ih => exact ⟨⟨ih.changed, ih.forced⟩, ih.written⟩
  | setValue _ path value ih =>
    exact ⟨⟨ih.changed, ih.forced⟩, nodup_addWrite ih.written (path, value)⟩
  | markChanged _ path ih => exact ⟨⟨ih.changed.insert path, ih.forced⟩, ih.written⟩
  | forceUpdate _ path ih => exact ⟨⟨ih.changed, ih.forced.insert path⟩, ih.written⟩
  | evaluateAll _ ih => exact ⟨⟨ih.changed, ih.forced⟩, ih.written⟩
  | merge _ _ ih _ => exact ih.merge _

/-- **Merging is a monoid operation** on built batches: how merges are grouped makes no difference
to the changes, the writes, the marks and their order, the empty batch is neutral on both sides, and
no path is written twice. -/
theorem Built.merge_laws {a b c : ChangeBatch} (ha : a.Built) (hb : b.Built) (hc : c.Built) :
    (a.merge b).merge c = a.merge (b.merge c) ∧ ChangeBatch.empty.merge a = a ∧
      a.merge ChangeBatch.empty = a ∧ a.written.Nodup := by
  refine ⟨ha.orderly.merge_assoc hb.orderly hc.orderly, ?_, append_empty a, ha.orderly.written⟩
  rw [merge_eq, foldl_supersede_empty]
  exact ha.orderly.empty_append

/-- Two tables are written to, and one of the values is sent. -/
def drafting : ChangeBatch :=
  (((empty.setValue "Table1.title" (.string "old")).setValue "Table2.title"
    (.string "old")).markChanged "Table1.title").forceUpdate "Table2.title"

/-- The first table goes, and the second is written to and marked. -/
def clearance : ChangeBatch :=
  ((empty.removeEntity "Table1").setValue "Table2.title" (.string "new")).markChanged "Table2.title"

/-- The first table comes back with a title, and everything is evaluated. -/
def restoration : ChangeBatch :=
  ((empty.upsertEntity ⟨.ofName "Table1" .widget, ⟨[]⟩⟩).setValue "Table1.title"
    (.string "back")).evaluateAll

theorem merge_laws_restoration :
    (drafting.Built ∧ clearance.Built ∧ restoration.Built) ∧
    ((drafting.merge clearance).merge restoration).written = ["Table2.title", "Table1.title"] ∧
    ((drafting.merge clearance).merge restoration).changed.keys = ["Table2.title"] ∧
    (drafting.merge clearance).merge restoration = drafting.merge (clearance.merge restoration) ∧
    ChangeBatch.empty.merge drafting = drafting ∧ drafting.merge ChangeBatch.empty = drafting ∧
    drafting.written.Nodup := by
  have hd : drafting.Built :=
    (((Built.empty.setValue _ _).setValue _ _).markChanged _).forceUpdate _
  have hc : clearance.Built := ((Built.empty.removeEntity _).setValue _ _).markChanged _
  have hr : restoration.Built := ((Built.empty.upsertEntity _).setValue _ _).evaluateAll
  exact ⟨⟨hd, hc, hr⟩, by decide, by decide, hd.merge_laws hc hr⟩

end Recalc.ChangeBatch
