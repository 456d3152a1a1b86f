import Recalc.Batch
import Recalc.Proofs.Collection.PendingSet
import Recalc.Proofs.Json.Writes
import Recalc.Proofs.Tree

/-!
# Batches as changes of a tree

What a batch does to the tree alone: first its structural changes, then its writes
(`Tree.perform`). A write changes one record, and nothing if its entity does not exist; so a later
structural change of the same entity makes it void, and it can be exchanged with changes of other
entities (`Tree.Named.change_write`). Of two writes into one entity, the later one leaves no trace
of the earlier one if it goes to the same path or to one above; writes to paths that part from each
other can be exchanged. From these laws it follows that merged batches do to a tree what the two
batches do in turn (`Tree.Named.perform_merge`).
-/

namespace Recalc

namespace StructuralChange

/-- The record that stands under the name of the entity afterwards. -/
def record? : StructuralChange → Option EntityRecord
  | upsert record => some record
  | remove _ => none

end StructuralChange

theorem EntityRecord.config_set (r : EntityRecord) (property : String) (value : Json) :
    (r.set property value).config = r.config := rfl

theorem EntityRecord.name_set (r : EntityRecord) (property : String) (value : Json) :
    (r.set property value).name = r.name := rfl

namespace Tree

/-- Trees with the same names in the same order and the same records are equal. -/
theorem ext_get? {t t' : Tree} (hn : t.names = t'.names) (hg : ∀ name, t.get? name = t'.get? name) :
    t = t' := by
  obtain ⟨names, records⟩ := t
  obtain ⟨names', records'⟩ := t'
  obtain rfl : names = names' := hn
  obtain rfl : records = records' := SortedMap.ext_get? hg
  rfl

/-- Each record stands under its own name. -/
def Named (t : Tree) : Prop := ∀ name r, t.get? name = some r → r.name = name

theorem Regular.isNamed {t : Tree} (h : t.Regular) : t.Named := fun _ _ hr => h.named hr

theorem named_empty : empty.Named := regular_empty.isNamed

/-! ### The changes of a batch -/

/-- The tree after a structural change. -/
def change (t : Tree) : StructuralChange → Tree
  | .upsert record => t.upsert record
  | .remove name => t.remove name

/-- The tree after a raw value was written to a path, if the entity of the path exists. -/
def write (t : Tree) (w : String × Json) : Tree :=
  match t.get? (Path.entityOf w.1) with
  | none => t
  | some record => t.upsert (record.set (Path.split w.1).2 w.2)

/-- The tree after the changes and the writes of a batch. -/
def perform (t : Tree) (b : ChangeBatch) : Tree :=
  b.values.foldl write (b.structural.foldl change t)

/-- A structural change concerns the record of its entity. -/
theorem get?_change (t : Tree) (c : StructuralChange) (q : String) :
    (t.change c).get? q = if q = c.entity then c.record? else t.get? q := by
  cases c with
  | upsert record => exact get?_upsert t record q
  | remove name => exact get?_remove t name q

/-- Which names are registered afterwards depends on the names before and on whether the entity
existed. -/
theorem names_change_congr {t t' : Tree} (hn : t.names = t'.names) {c : StructuralChange}
    (hc : t.contains c.entity = t'.contains c.entity) :
    (t.change c).names = (t'.change c).names := by
  cases c with
  | upsert record =>
    simp only [StructuralChange.entity] at hc
    rw [change, change, upsert, upsert, hc, hn]
  | remove name =>
    simp only [StructuralChange.entity] at hc
    rw [change, change, remove, remove, hc]
    split
    · rw [hn]
    · exact hn

namespace Named

variable {t : Tree} (h : t.Named)
include h

theorem change (c : StructuralChange) : (t.change c).Named := by
  intro name r hr
  rw [get?_change] at hr
  split at hr
  · rename_i hq
    cases c with
    | upsert record => exact Option.some.inj hr ▸ hq.symm
    | remove name => cases hr
  · exact h name r hr

/-- A write changes a property of the record of its entity. -/
theorem get?_write (w : String × Json) (q : String) : (t.write w).get? q =
    if q = Path.entityOf w.1 then (t.get? q).map (·.set (Path.split w.1).2 w.2)
    else t.get? q := by
  cases hr : t.get? (Path.entityOf w.1) with
  | none =>
    rw [Tree.write, hr]
    by_cases hq : q = Path.entityOf w.1
    · rw [if_pos hq, hq, hr]
      rfl
    · rw [if_neg hq]
  | some record =>
    simp only [Tree.write, hr, get?_upsert, EntityRecord.name_set, h _ _ hr]
    by_cases hq : q = Path.entityOf w.1
    · rw [if_pos hq, if_pos hq, hq, hr]
      rfl
    · rw [if_neg hq, if_neg hq]

/-- A write registers no name. -/
theorem names_write (w : String × Json) : (t.write w).names = t.names := by
  cases hr : t.get? (Path.entityOf w.1) with
  | none => rw [Tree.write, hr]
  | some record =>
    simp only [Tree.write, hr, upsert, EntityRecord.name_set, h _ _ hr,
      contains_iff.2 ⟨record, hr⟩, if_true]

theorem write (w : String × Json) : (t.write w).Named := by
  intro name r hr
  rw [h.get?_write] at hr
  split at hr
  · obtain ⟨old, hold, rfl⟩ := Option.map_eq_some_iff.1 hr
    rw [EntityRecord.name_set]
    exact h name old hold
  · exact h name r hr

theorem contains_write (w : String × Json) (q : String) :
    (t.write w).contains q = t.contains q := by
  rw [Bool.eq_iff_iff, contains_iff, contains_iff]
  rw [h.get?_write]
  split <;> simp [Option.map_eq_some_iff]

theorem foldl_write (writes : List (String × Json)) : (writes.foldl Tree.write t).Named := by
  induction writes generalizing t with
  | nil => exact h
  | cons w writes ih => exact ih (h.write w)

theorem foldl_change (changes : List StructuralChange) :
    (changes.foldl Tree.change t).Named := by
  induction changes generalizing t with
  | nil => exact h
  | cons c changes ih => exact ih (h.change c)

theorem perform (b : ChangeBatch) : (t.perform b).Named := (h.foldl_change _).foldl_write _

/-! ### A write and a structural change -/

/-- A structural change makes an earlier write into its entity void, and can be exchanged with other
writes. -/
theorem change_write (w : String × Json) (c : StructuralChange) : (t.write w).change c =
    if Path.entityOf w.1 = c.entity then t.change c else (t.change c).write w := by
  have hnames := names_change_congr (h.names_write w) (h.contains_write w c.entity)
  split
  · rename_i he
    refine ext_get? hnames fun q => ?_
    rw [get?_change, get?_change, h.get?_write]
    split <;> rename_i hq
    · rfl
    · rw [if_neg fun hqw => hq (hqw.trans he)]
  · rename_i he
    refine ext_get? (hnames.trans ((h.change c).names_write w).symm) fun q => ?_
    rw [(h.change c).get?_write, get?_change, get?_change, h.get?_write]
    by_cases hq : q = c.entity
    · have hqw : q ≠ Path.entityOf w.1 := fun hqw => he (hqw ▸ hq)
      simp only [if_pos hq, if_neg hqw]
    · simp only [if_neg hq]

/-- Structural changes leave the writes into other entities to be made afterwards. -/
theorem foldl_change_write (writes : List (String × Json)) (c : StructuralChange) :
    (writes.foldl Tree.write t).change c =
      (writes.filter fun w => Path.entityOf w.1 ≠ c.entity).foldl Tree.write (t.change c) := by
  induction writes generalizing t with
  | nil => rfl
  | cons w writes ih =>
    rw [List.foldl_cons, ih (h.write w), h.change_write, List.filter_cons]
    by_cases he : Path.entityOf w.1 = c.entity
    · simp [he]
    · simp [he]

/-- Several structural changes leave the writes into entities that none of them concerns. -/
theorem foldl_foldl_change (writes : List (String × Json)) (changes : List StructuralChange) :
    changes.foldl Tree.change (writes.foldl Tree.write t) =
      (writes.filter fun w => Path.entityOf w.1 ∉ changes.map (·.entity)).foldl Tree.write
        (changes.foldl Tree.change t) := by
  induction changes generalizing t writes with
  | nil => simp
  | cons c changes ih =>
    rw [List.foldl_cons, h.foldl_change_write, ih (h.change c), List.filter_filter,
      List.foldl_cons]
    congr 1
    refine List.filter_congr fun w _ => ?_
    simp only [List.map_cons, List.mem_cons, not_or, ← Bool.decide_and, and_comm]

end Named

end Tree

/-! ### Two writes -/

namespace Path

/-- The first path is the second one or lies above it, and both are properties of one entity. -/
def Over (p q : String) : Prop :=
  entityOf p = entityOf q ∧ segments (split p).2 <+: segments (split q).2

/-- The paths part from each other: they belong to different entities, or their properties part. -/
def Apart (p q : String) : Prop :=
  entityOf p ≠ entityOf q ∨
    Json.Fields.Diverge (segments (split p).2) (segments (split q).2)

theorem over_or_apart (p q : String) : Over p q ∨ Over q p ∨ Apart p q := by
  by_cases he : entityOf p = entityOf q
  · by_cases hp : segments (split p).2 <+: segments (split q).2
    · exact .inl ⟨he, hp⟩
    · by_cases hq : segments (split q).2 <+: segments (split p).2
      · exact .inr (.inl ⟨he.symm, hq⟩)
      · exact .inr (.inr (.inr ⟨hp, hq⟩))
  · exact .inr (.inr (.inl he))

end Path

namespace EntityRecord

/-- A write to a property that is at or above an earlier one leaves no trace of it. -/
theorem set_absorb (r : EntityRecord) {p q : String} (h : Path.segments q <+: Path.segments p)
    (first second : Json) : (r.set p first).set q second = r.set q second := by
  simp only [set, Entity.set, Json.Fields.setAt_absorb _ _ (Path.segments_ne_nil q) h]

/-- Writes to properties that part from each other can be exchanged. -/
theorem set_comm (r : EntityRecord) {p q : String}
    (h : Json.Fields.Diverge (Path.segments p) (Path.segments q)) (first second : Json) :
    (r.set p first).set q second = (r.set q second).set p first := by
  simp only [set, Entity.set, Json.Fields.setAt_comm _ _ h]

end EntityRecord

namespace Tree

/-- The trees cannot be told apart once a value is written to the path. -/
def SameBut (path : String) (t t' : Tree) : Prop :=
  ∀ value, t.write (path, value) = t'.write (path, value)

namespace Named

variable {t t' : Tree} (h : t.Named)
include h

/-- A write to the path of an earlier write, or to one above it, leaves no trace of it. -/
theorem write_absorb {p q : String} (hpq : Path.Over q p) (first second : Json) :
    (t.write (p, first)).write (q, second) = t.write (q, second) := by
  refine ext_get? ?_ fun name => ?_
  · rw [(h.write _).names_write, h.names_write, h.names_write]
  · rw [(h.write _).get?_write, h.get?_write, h.get?_write, hpq.1]
    split
    · rw [Option.map_map]
      exact Option.map_congr fun r _ => r.set_absorb hpq.2 first second
    · rfl

/-- Writes to paths that part from each other can be exchanged. -/
theorem write_comm {p q : String} (hpq : Path.Apart p q) (first second : Json) :
    (t.write (p, first)).write (q, second) = (t.write (q, second)).write (p, first) := by
  refine ext_get? ?_ fun name => ?_
  · rw [(h.write _).names_write, h.names_write, (h.write _).names_write, h.names_write]
  · rw [(h.write _).get?_write, h.get?_write, (h.write _).get?_write, h.get?_write]
    by_cases hp : name = Path.entityOf p
    · by_cases hq : name = Path.entityOf q
      · simp only [if_pos hp, if_pos hq, Option.map_map]
        refine Option.map_congr fun r _ => r.set_comm ?_ first second
        exact hpq.resolve_left fun hne => hne (hp.symm.trans hq)
      · simp only [if_pos hp, if_neg hq]
    · by_cases hq : name = Path.entityOf q
      · simp only [if_neg hp, if_pos hq]
      · simp only [if_neg hp, if_neg hq]

/-- A write to the path is not seen once the path is written again. -/
theorem sameBut_write (path : String) (value : Json) : SameBut path (t.write (path, value)) t :=
  fun later => h.write_absorb ⟨rfl, List.prefix_rfl⟩ value later

/-- Writes to any path keep trees from being told apart. -/
theorem sameBut_write_write (h' : t'.Named) {path : String} (hs : SameBut path t t')
    (w : String × Json) : SameBut path (t.write w) (t'.write w) := by
  obtain ⟨q, later⟩ := w
  intro value
  rcases Path.over_or_apart path q with hover | hunder | hapart
  · rw [h.write_absorb hover, h'.write_absorb hover, hs]
  · have heq : t.write (q, later) = t'.write (q, later) := by
      rw [← h.write_absorb hunder value, hs, h'.write_absorb hunder]
    rw [heq]
  · have hback : Path.Apart q path := hapart.imp Ne.symm And.symm
    rw [h.write_comm hback, h'.write_comm hback, hs]

/-- Dropping the writes to a path makes no difference once the path is written again. -/
theorem sameBut_foldl_filter (h' : t'.Named) {path : String} (hs : SameBut path t t')
    (writes : List (String × Json)) : SameBut path (writes.foldl Tree.write t)
      ((writes.filter fun w => w.1 ≠ path).foldl Tree.write t') := by
  induction writes generalizing t t' with
  | nil => exact hs
  | cons w writes ih =>
    rw [List.foldl_cons, List.filter_cons]
    by_cases hw : w.1 = path
    · obtain ⟨q, value⟩ := w
      obtain rfl : q = path := hw
      simp only [ne_eq, not_true_eq_false, decide_false, Bool.false_eq_true, if_false]
      exact ih (h.write _) h' fun later => (h.sameBut_write q value later).trans (hs later)
    · simp only [ne_eq, hw, not_false_eq_true, decide_true, if_true, List.foldl_cons]
      exact ih (h.write w) (h'.write w) (h.sameBut_write_write h' hs w)

/-- One more write takes the place of the earlier ones to its path. -/
theorem foldl_addWrite (writes : List (String × Json)) (w : String × Json) :
    (ChangeBatch.addWrite writes w).foldl Tree.write t =
      (writes.foldl Tree.write t).write w := by
  rw [ChangeBatch.addWrite, List.foldl_append, List.foldl_cons, List.foldl_nil]
  exact (h.sameBut_foldl_filter h (fun _ => rfl) writes w.2).symm

theorem foldl_foldl_addWrite (later writes : List (String × Json)) :
    (later.foldl ChangeBatch.addWrite writes).foldl Tree.write t =
      later.foldl Tree.write (writes.foldl Tree.write t) := by
  induction later generalizing writes with
  | nil => rfl
  | cons w later ih => rw [List.foldl_cons, ih, h.foldl_addWrite, List.foldl_cons]

end Named

end Tree

/-! ### Merging -/

namespace ChangeBatch

/-- The paths that a batch writes. -/
def written (b : ChangeBatch) : List String := b.values.map (·.1)

/-- Writes are taken from either list. -/
theorem mem_of_mem_foldl_addWrite {values later : List (String × Json)} {w : String × Json}
    (h : w ∈ later.foldl addWrite values) : w ∈ values ∨ w ∈ later := by
  induction later generalizing values with
  | nil => exact .inl h
  | cons v later ih =>
    rcases ih h with hw | hw
    · rw [addWrite, List.mem_append, List.mem_singleton] at hw
      rcases hw with hw | rfl
      · exact .inl (List.mem_of_mem_filter hw)
      · exact .inr List.mem_cons_self
    · exact .inr (List.mem_cons_of_mem _ hw)

theorem structural_foldl_supersede (b : ChangeBatch) (changes : List StructuralChange) :
    (changes.foldl supersede b).structural = b.structural := by
  induction changes generalizing b with
  | nil => rfl
  | cons c changes ih =>
    rw [List.foldl_cons, ih]
    cases c <;> rfl

theorem structural_merge (a b : ChangeBatch) :
    (a.merge b).structural = a.structural ++ b.structural := by
  rw [merge, structural_foldl_supersede]

/-- What is left are the writes into entities that no later change concerns. -/
theorem values_foldl_supersede (b : ChangeBatch) (changes : List StructuralChange) :
    (changes.foldl supersede b).values =
      b.values.filter fun w => Path.entityOf w.1 ∉ changes.map (·.entity) := by
  induction changes generalizing b with
  | nil => simp
  | cons c changes ih =>
    have hstep : (b.supersede c).values =
        b.values.filter fun w => Path.entityOf w.1 ≠ c.entity := by
      cases c <;> rfl
    rw [List.foldl_cons, ih, hstep, List.filter_filter]
    refine List.filter_congr fun w _ => ?_
    simp only [List.map_cons, List.mem_cons, not_or, ← Bool.decide_and, and_comm]

theorem mem_map_addWrite {values : List (String × Json)} {w : String × Json} {path : String} :
    path ∈ (addWrite values w).map (·.1) ↔ path ∈ values.map (·.1) ∨ path = w.1 := by
  rw [addWrite, List.map_append, List.mem_append, List.map_singleton, List.mem_singleton]
  by_cases hp : path = w.1
  · simp [hp]
  · simp only [List.mem_map, List.mem_filter, hp, or_false]
    refine exists_congr fun v => and_congr_left fun hv => and_iff_left ?_
    simpa [hv] using hp

theorem mem_map_foldl_addWrite {values later : List (String × Json)} {path : String} :
    path ∈ (later.foldl addWrite values).map (·.1) ↔
      path ∈ values.map (·.1) ∨ path ∈ later.map (·.1) := by
  induction later generalizing values with
  | nil => simp
  | cons w later ih =>
    rw [List.foldl_cons, ih, mem_map_addWrite, List.map_cons, List.mem_cons, or_assoc]

/-- Merging keeps the writes of the later batch, and those into entities that it leaves alone. -/
theorem mem_written_merge {a b : ChangeBatch} {path : String} : path ∈ (a.merge b).written ↔
    path ∈ b.written ∨
      path ∈ a.written ∧ Path.entityOf path ∉ b.structural.map (·.entity) := by
  rw [merge, written, mem_map_foldl_addWrite, values_foldl_supersede, or_comm]
  refine or_congr_right ?_
  simp only [written, List.mem_map, List.mem_filter, decide_eq_true_eq]
  constructor
  · rintro ⟨w, ⟨hw, hout⟩, rfl⟩
    exact ⟨⟨w, hw, rfl⟩, hout⟩
  · rintro ⟨⟨w, hw, rfl⟩, hout⟩
    exact ⟨w, ⟨hw, hout⟩, rfl⟩

/-- Marks are dropped with a removed entity. -/
theorem mem_changed_foldl_supersede {b : ChangeBatch} {changes : List StructuralChange}
    {path : String} : path ∈ (changes.foldl supersede b).changed.keys ↔
      path ∈ b.changed.keys ∧ .remove (Path.entityOf path) ∉ changes := by
  induction changes generalizing b with
  | nil => simp
  | cons c changes ih =>
    rw [List.foldl_cons, ih, List.mem_cons, not_or, ← and_assoc]
    refine and_congr_left fun _ => ?_
    cases c with
    | upsert record => simp [supersede]
    | remove name =>
      refine List.mem_filter.trans (and_congr_right fun _ => decide_eq_true_iff.trans ?_)
      simp [StructuralChange.entity]

/-- Merging marks nothing that neither batch marks. -/
theorem mem_changed_of_merge {a b : ChangeBatch} {path : String}
    (h : path ∈ (a.merge b).changed.keys) : path ∈ b.changed.keys ∨
      path ∈ a.changed.keys ∧ .remove (Path.entityOf path) ∉ b.structural :=
  (PendingSet.mem_keys_of_extend h).symm.imp_right mem_changed_foldl_supersede.1

end ChangeBatch

/-- **Merging is applying in turn**, as far as the tree goes: the records and the order of their
registration are the same. -/
theorem Tree.Named.perform_merge {t : Tree} (h : t.Named) (a b : ChangeBatch) :
    t.perform (a.merge b) = (t.perform a).perform b := by
  have hmid := h.foldl_change a.structural
  rw [Tree.perform, Tree.perform, Tree.perform, hmid.foldl_foldl_change,
    ChangeBatch.structural_merge, List.foldl_append, ChangeBatch.merge]
  simp only [ChangeBatch.values_foldl_supersede]
  exact (hmid.foldl_change _).foldl_foldl_addWrite _ _

end Recalc
