import Recalc.Collection.SortedMap

/-!
# Sets listed in ascending order

A `SortedSet` is a sorted map that stores nothing under its keys. Its view is membership:
`mem_insert` and `mem_erase` say what the operations do, and sets with the same elements are equal.
-/

namespace Recalc

universe u

/-- A finite set whose elements are listed in ascending order. -/
structure SortedSet (K : Type u) [Ord K] where
  /-- The elements, as the keys of a map. -/
  toMap : SortedMap K Unit

namespace SortedSet

variable {K : Type u} [Ord K]

/-- The set without elements. -/
def empty : SortedSet K := ⟨.empty⟩

instance : Inhabited (SortedSet K) := ⟨empty⟩

instance : EmptyCollection (SortedSet K) := ⟨empty⟩

/-- The elements, ascending. -/
def toList (s : SortedSet K) : List K := s.toMap.keys

/-- The number of elements. -/
def size (s : SortedSet K) : Nat := s.toMap.size

/-- Whether there is no element. -/
def isEmpty (s : SortedSet K) : Bool := s.toMap.isEmpty

/-- The smallest element. -/
def min? (s : SortedSet K) : Option K := s.toList.head?

section Lookup

variable [DecidableEq K]

/-- Whether `key` is an element. -/
def contains (s : SortedSet K) (key : K) : Bool := s.toMap.contains key

instance : Membership K (SortedSet K) := ⟨fun s key => s.contains key = true⟩

instance (key : K) (s : SortedSet K) : Decidable (key ∈ s) :=
  inferInstanceAs (Decidable (s.contains key = true))

/-- Takes `key` out of the set. -/
def erase (s : SortedSet K) (key : K) : SortedSet K := ⟨s.toMap.erase key⟩

theorem contains_eq_true_iff {s : SortedSet K} {key : K} : s.contains key = true ↔ key ∈ s :=
  Iff.rfl

@[simp] theorem not_mem_empty (key : K) : key ∉ (empty : SortedSet K) := by
  simp [← contains_eq_true_iff, contains, SortedMap.contains, empty]

@[simp] theorem mem_erase {s : SortedSet K} {key q : K} : q ∈ s.erase key ↔ q ≠ key ∧ q ∈ s := by
  simp only [← contains_eq_true_iff, contains, SortedMap.contains, erase, SortedMap.get?_erase]
  split <;> simp_all

end Lookup

variable [Std.LawfulEqOrd K] [Std.TransOrd K]

/-- Puts `key` into the set. -/
def insert (s : SortedSet K) (key : K) : SortedSet K := ⟨s.toMap.insert key ()⟩

/-- The set of the listed elements. -/
def ofList (keys : List K) : SortedSet K := keys.foldl insert empty

variable [DecidableEq K]

@[simp] theorem mem_insert {s : SortedSet K} {key q : K} : q ∈ s.insert key ↔ q = key ∨ q ∈ s := by
  simp only [← contains_eq_true_iff, contains, SortedMap.contains, insert, SortedMap.get?_insert]
  split <;> simp_all

omit [Std.TransOrd K] in
/-- The list holds exactly the elements. -/
@[simp] theorem mem_toList {s : SortedSet K} {key : K} : key ∈ s.toList ↔ key ∈ s := by
  simp only [← contains_eq_true_iff, contains, SortedMap.contains, toList, SortedMap.keys,
    List.mem_map, Option.isSome_iff_exists, SortedMap.get?_eq_some_iff]
  constructor
  · rintro ⟨e, he, rfl⟩
    exact ⟨e.2, he⟩
  · rintro ⟨u, hu⟩
    exact ⟨_, hu, rfl⟩

/-- Sets with the same elements are equal. -/
theorem ext_mem {s t : SortedSet K} (h : ∀ key, key ∈ s ↔ key ∈ t) : s = t := by
  obtain ⟨s⟩ := s
  obtain ⟨t⟩ := t
  congr
  refine SortedMap.ext_get? fun key => ?_
  have := h key
  simp only [← contains_eq_true_iff, contains, SortedMap.contains] at this
  rcases hs : s.get? key with _ | ⟨⟨⟩⟩ <;> rcases ht : t.get? key with _ | ⟨⟨⟩⟩ <;> simp_all

end SortedSet

end Recalc
