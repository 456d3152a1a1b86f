import Recalc.Collection.SortedMap

/-!
# Interning keys as small numbers

An `Interner` gives each key it sees a number, its id. Ids are handed out densely in the order in
which keys are first seen and are never given to another key, so comparing two ids compares the
ages of their keys.

Keys are found through buckets of candidate ids, one bucket for each value of a hash function. Any
hash function will do: candidates are compared with the key itself.
-/

namespace Recalc

universe u

/-- A table of keys and the ids they were given. -/
structure Interner (K : Type u) where
  /-- The hash function that sorts keys into buckets. -/
  hash : K → UInt64
  /-- The keys seen so far; the id of a key is its place. -/
  keys : Array K
  /-- For each hash value, the ids of the keys with that hash. -/
  buckets : SortedMap UInt64 (List Nat)

namespace Interner

variable {K : Type u}

/-- The table that has seen no key. -/
def empty (hash : K → UInt64) : Interner K := ⟨hash, #[], .empty⟩

/-- The number of keys seen. -/
def size (t : Interner K) : Nat := t.keys.size

/-- Whether no key was seen. -/
def isEmpty (t : Interner K) : Bool := t.keys.isEmpty

/-- The key with the given id. -/
def get? (t : Interner K) (id : Nat) : Option K := t.keys[id]?

/-- The ids with their keys, by ascending id. -/
def toList (t : Interner K) : List (Nat × K) :=
  (List.range t.keys.size).zip t.keys.toList

/-- Forgets every key, so that ids start again at zero. -/
def clear (t : Interner K) : Interner K := ⟨t.hash, #[], .empty⟩

variable [DecidableEq K]

/-- The id of `key`, if it was seen. -/
def lookup (t : Interner K) (key : K) : Option Nat :=
  (t.buckets.getD (t.hash key) []).find? fun id => t.keys[id]? = some key

/-- The id of `key`, which is a new one if `key` was not seen before. -/
def intern (t : Interner K) (key : K) : Nat × Interner K :=
  match t.lookup key with
  | some id => (id, t)
  | none =>
    let id := t.keys.size
    (id, { t with
      keys := t.keys.push key
      buckets := t.buckets.modifyD (t.hash key) [] (· ++ [id]) })

/-- Interns the listed keys one after another. -/
def internAll (t : Interner K) : List K → List Nat × Interner K
  | [] => ([], t)
  | key :: rest =>
    let (id, t) := t.intern key
    let (ids, t) := t.internAll rest
    (id :: ids, t)

end Interner

end Recalc
