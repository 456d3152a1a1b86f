import Recalc.Evaluator.Change
import Recalc.Proofs.Collection.Sorted

/-!
# Who names whom

The two indices of names are inverse to each other, and neither stores an empty entry
(`Evaluator.Mirrored`). Setting what one entity names keeps this.
-/

namespace Recalc.Evaluator

/-- The index `readers` lists `name` among those that name `root`. -/
def ReadBy (readers : SortedMap String (SortedSet String)) (root name : String) : Prop :=
  ∃ set, readers.get? root = some set ∧ name ∈ set

/-- No entry of the index is empty. -/
def Occupied (readers : SortedMap String (SortedSet String)) : Prop :=
  ∀ root set, readers.get? root = some set → ∃ name, name ∈ set

/-- The two indices of names say the same, and neither has an empty entry. -/
structure Mirrored (e : Evaluator) : Prop where
  /-- An entity is among the readers of exactly the entities that it names. -/
  inverse : ∀ root name, ReadBy e.readers root name ↔ root ∈ e.reads.getD name []
  /-- There is no empty set of readers. -/
  readers : Occupied e.readers
  /-- There is no empty list of names. -/
  reads : ∀ name roots, e.reads.get? name = some roots → roots ≠ []

theorem readBy_dropReader {readers : SortedMap String (SortedSet String)} {name root q m : String} :
    ReadBy (dropReader name readers root) q m ↔ ReadBy readers q m ∧ ¬ (q = root ∧ m = name) := by
  rw [dropReader]
  cases hr : readers.get? root with
  | none =>
    simp only [ReadBy]
    constructor
    · rintro ⟨set, hs, hm⟩
      refine ⟨⟨set, hs, hm⟩, ?_⟩
      rintro ⟨rfl, -⟩
      rw [hr] at hs
      cases hs
    · exact And.left
  | some set =>
    simp only
    split
    · rename_i he
      simp only [ReadBy, SortedMap.get?_erase]
      have hempty := SortedSet.isEmpty_iff.1 he
      simp only [SortedSet.mem_erase] at hempty
      split
      · rename_i hq
        subst hq
        rw [hr]
        grind
      · grind
    · simp only [ReadBy, SortedMap.get?_insert]
      split
      · rename_i hq
        subst hq
        rw [hr]
        simp only [Option.some.injEq, exists_eq_left', SortedSet.mem_erase]
        grind
      · grind

theorem occupied_dropReader {readers : SortedMap String (SortedSet String)}
    (h : Occupied readers) (name root : String) : Occupied (dropReader name readers root) := by
  rw [dropReader]
  cases hr : readers.get? root with
  | none => exact h
  | some set =>
    simp only
    split
    · intro q s hs
      rw [SortedMap.get?_erase] at hs
      split at hs
      · cases hs
      · exact h q s hs
    · rename_i he
      intro q s hs
      rw [SortedMap.get?_insert] at hs
      split at hs
      · obtain rfl := Option.some.inj hs
        simpa [SortedSet.isEmpty_iff] using he
      · exact h q s hs

theorem readBy_addReader {readers : SortedMap String (SortedSet String)} {name root q m : String} :
    ReadBy (addReader name readers root) q m ↔ ReadBy readers q m ∨ q = root ∧ m = name := by
  simp only [ReadBy, addReader, SortedMap.get?_modifyD]
  split
  · rename_i hq
    subst hq
    simp only [Option.some.injEq, exists_eq_left', SortedSet.mem_insert, SortedMap.getD]
    cases readers.get? q with
    | none => simp
    | some set =>
      simp only [Option.getD_some, Option.some.injEq, exists_eq_left', true_and]
      exact or_comm
  · simp [*]

theorem occupied_addReader {readers : SortedMap String (SortedSet String)}
    (h : Occupied readers) (name root : String) : Occupied (addReader name readers root) := by
  intro q s hs
  rw [addReader, SortedMap.get?_modifyD] at hs
  split at hs
  · obtain rfl := Option.some.inj hs
    exact ⟨name, SortedSet.mem_insert.2 (.inl rfl)⟩
  · exact h q s hs

theorem foldl_dropReader (name : String) (roots : List String)
    {readers : SortedMap String (SortedSet String)} (h : Occupied readers) :
    Occupied (roots.foldl (dropReader name) readers) ∧
      ∀ q m, ReadBy (roots.foldl (dropReader name) readers) q m ↔
        ReadBy readers q m ∧ ¬ (q ∈ roots ∧ m = name) := by
  induction roots generalizing readers with
  | nil => exact ⟨h, by simp⟩
  | cons root roots ih =>
    obtain ⟨hi, hr⟩ := ih (occupied_dropReader h name root)
    refine ⟨hi, fun q m => ?_⟩
    rw [List.foldl_cons, hr, readBy_dropReader, List.mem_cons]
    grind

theorem foldl_addReader (name : String) (roots : List String)
    {readers : SortedMap String (SortedSet String)} (h : Occupied readers) :
    Occupied (roots.foldl (addReader name) readers) ∧
      ∀ q m, ReadBy (roots.foldl (addReader name) readers) q m ↔
        ReadBy readers q m ∨ q ∈ roots ∧ m = name := by
  induction roots generalizing readers with
  | nil => exact ⟨h, by simp⟩
  | cons root roots ih =>
    obtain ⟨hi, hr⟩ := ih (occupied_addReader h name root)
    refine ⟨hi, fun q m => ?_⟩
    rw [List.foldl_cons, hr, readBy_addReader, List.mem_cons]
    grind

/-- Setting what an entity names changes the two indices only. -/
theorem setReads_eq (e : Evaluator) (name : String) (roots : List String) :
    ∃ readers reads, e.setReads name roots = { e with readers, reads } := by
  rw [setReads]
  split <;> exact ⟨_, _, rfl⟩

/-- An entity that names nothing is not listed, and others keep what they name. -/
theorem get?_reads_setReads (e : Evaluator) (name : String) (roots : List String) (q : String) :
    (e.setReads name roots).reads.get? q =
      if q = name then if roots = [] then none else some roots else e.reads.get? q := by
  rw [setReads]
  simp only [List.isEmpty_iff]
  split
  · rename_i h
    rw [SortedMap.get?_erase]
  · rw [SortedMap.get?_insert]
    split
    · rfl
    · rename_i hq
      rw [SortedMap.get?_erase, if_neg hq]

/-- **The two indices stay inverse** when what an entity names is set. -/
theorem Mirrored.setReads {e : Evaluator} (h : e.Mirrored) (name : String) (roots : List String) :
    (e.setReads name roots).Mirrored := by
  obtain ⟨hdrop, hleft⟩ := foldl_dropReader name (e.reads.getD name []) h.readers
  obtain ⟨hadd, hmore⟩ := foldl_addReader name roots hdrop
  have hreads := get?_reads_setReads e name roots
  have hreaders : (e.setReads name roots).readers =
      roots.foldl (addReader name) ((e.reads.getD name []).foldl (dropReader name) e.readers) := by
    rw [Evaluator.setReads]
    split
    · rename_i hr
      rw [List.isEmpty_iff.1 hr, List.foldl_nil]
    · rfl
  refine ⟨fun root m => ?_, hreaders ▸ hadd, fun m list hl => ?_⟩
  · rw [hreaders, hmore, hleft, h.inverse]
    simp only [SortedMap.getD, hreads]
    by_cases hm : m = name
    · subst hm
      rw [if_pos rfl]
      by_cases hr : roots = []
      · simp [hr]
      · simp [hr]
    · simp [hm]
  · rw [hreads] at hl
    split at hl
    · split at hl
      · cases hl
      · rename_i hr
        exact (Option.some.inj hl) ▸ hr
    · exact h.reads m list hl

/-- Only the entity itself becomes or ceases to be a reader. -/
theorem Mirrored.readBy_setReads {e : Evaluator} (h : e.Mirrored) {name m : String}
    (hm : m ≠ name) (roots : List String) (q : String) :
    ReadBy (e.setReads name roots).readers q m ↔ ReadBy e.readers q m := by
  rw [(h.setReads name roots).inverse, h.inverse, SortedMap.getD, SortedMap.getD,
    get?_reads_setReads, if_neg hm]

/-- The two indices after setting depend on the two indices before only. -/
theorem setReads_congr {e e' : Evaluator} (hr : e.readers = e'.readers) (hd : e.reads = e'.reads)
    (name : String) (roots : List String) :
    (e.setReads name roots).readers = (e'.setReads name roots).readers ∧
      (e.setReads name roots).reads = (e'.setReads name roots).reads := by
  simp only [setReads, hr, hd]
  split <;> exact ⟨rfl, rfl⟩

end Recalc.Evaluator
