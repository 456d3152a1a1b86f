import Recalc.Collection.Entries

/-!
# Maps listed in ascending key order

A `SortedMap` is an ascending entry list together with the proof that it is ascending. Its view is
`get?`: each operation has one law that says what it does to look-ups, and maps with the same
look-ups are equal (`SortedMap.ext_get?`).
-/

namespace Recalc

universe u v w

/-- A finite map whose entries are listed in ascending key order. -/
structure SortedMap (K : Type u) (V : Type v) [Ord K] where
  /-- The entries, by ascending key. -/
  entries : List (K × V)
  /-- The keys ascend strictly. -/
  ascending : Entries.Ascending entries

namespace SortedMap

variable {K : Type u} {V : Type v} {W : Type v} [Ord K]

/-- The map without entries. -/
def empty : SortedMap K V := ⟨[], Entries.ascending_nil⟩

instance : Inhabited (SortedMap K V) := ⟨empty⟩

instance : EmptyCollection (SortedMap K V) := ⟨empty⟩

/-- The number of entries. -/
def size (m : SortedMap K V) : Nat := m.entries.length

/-- Whether there is no entry. -/
def isEmpty (m : SortedMap K V) : Bool := m.entries.isEmpty

/-- The keys, ascending. -/
def keys (m : SortedMap K V) : List K := m.entries.map (·.1)

/-- The values, by ascending key. -/
def values (m : SortedMap K V) : List V := m.entries.map (·.2)

/-- Keeps the entries that satisfy `p`. -/
def filter (m : SortedMap K V) (p : K → V → Bool) : SortedMap K V :=
  ⟨m.entries.filter fun e => p e.1 e.2, Entries.ascending_sublist m.ascending List.filter_sublist⟩

/-- Replaces every value. -/
def map (m : SortedMap K V) (f : K → V → W) : SortedMap K W :=
  ⟨m.entries.map fun e => (e.1, f e.1 e.2), Entries.ascending_map m.ascending f⟩

section Lookup

variable [DecidableEq K]

/-- The value stored under `key`. -/
def get? (m : SortedMap K V) (key : K) : Option V := Entries.get? key m.entries

/-- The value stored under `key`, or `default` if there is none. -/
def getD (m : SortedMap K V) (key : K) (default : V) : V := (m.get? key).getD default

/-- Whether a value is stored under `key`. -/
def contains (m : SortedMap K V) (key : K) : Bool := (m.get? key).isSome

/-- Drops the entry of `key`. -/
def erase (m : SortedMap K V) (key : K) : SortedMap K V :=
  ⟨Entries.erase key m.entries, Entries.ascending_erase m.ascending key⟩

@[simp] theorem get?_empty (key : K) : (empty : SortedMap K V).get? key = none := rfl

@[simp] theorem get?_erase (m : SortedMap K V) (key q : K) :
    (m.erase key).get? q = if q = key then none else m.get? q :=
  Entries.get?_erase key m.entries q

end Lookup

variable [Std.LawfulEqOrd K] [Std.TransOrd K]

/-- Stores `value` under `key`, in place of the value stored there before. -/
def insert (m : SortedMap K V) (key : K) (value : V) : SortedMap K V :=
  ⟨Entries.insert key value m.entries, Entries.ascending_insert m.ascending key value⟩

/-- Inserts the pairs one after another, so that of two pairs with one key the later stays. -/
def ofList (pairs : List (K × V)) : SortedMap K V :=
  ⟨Entries.ofList pairs, Entries.ascending_ofList pairs⟩

variable [DecidableEq K]

/-- Replaces the value under `key`, which is `default` if there is none yet. -/
def modifyD (m : SortedMap K V) (key : K) (default : V) (f : V → V) : SortedMap K V :=
  m.insert key (f (m.getD key default))

@[simp] theorem get?_insert (m : SortedMap K V) (key : K) (value : V) (q : K) :
    (m.insert key value).get? q = if q = key then some value else m.get? q :=
  Entries.get?_insert key value m.entries q

omit [Std.TransOrd K] in
/-- An entry is what a look-up of its key finds. -/
theorem get?_eq_some_iff (m : SortedMap K V) {key : K} {value : V} :
    m.get? key = some value ↔ (key, value) ∈ m.entries :=
  Entries.get?_eq_some_iff m.ascending

/-- Maps with the same look-ups are equal. -/
theorem ext_get? {m n : SortedMap K V} (h : ∀ key, m.get? key = n.get? key) : m = n := by
  obtain ⟨entries, hm⟩ := m
  obtain ⟨entries', hn⟩ := n
  congr
  exact Entries.ext_get? hm hn h

end SortedMap

end Recalc
