import Recalc.Collection.SortedSet

/-!
# Sets that remember the order of marking

A `PendingSet` collects keys between two passes. The list `keys` gives the order in which keys were
first marked; the set `index` answers membership without walking that list. Every operation keeps
the two in step.

Keys are kept by a predicate (`retain`), or by one that remembers what it was asked before
(`retainWith`).
-/

namespace Recalc

universe u v

/-- A set of keys in the order of their first mark. -/
structure PendingSet (K : Type u) [Ord K] where
  /-- The keys, by first mark. -/
  keys : List K
  /-- The same keys as a set. -/
  index : SortedSet K

namespace PendingSet

variable {K : Type u} [Ord K]

/-- The set without keys. -/
def empty : PendingSet K := ⟨[], .empty⟩

instance : Inhabited (PendingSet K) := ⟨empty⟩

instance : EmptyCollection (PendingSet K) := ⟨empty⟩

/-- The number of keys. -/
def size (s : PendingSet K) : Nat := s.keys.length

/-- Whether no key is marked. -/
def isEmpty (s : PendingSet K) : Bool := s.keys.isEmpty

/-- Takes all keys out: the keys, and the set that is left. -/
def drain (s : PendingSet K) : List K × PendingSet K := (s.keys, empty)

/-- Drops all keys. -/
def clear (_ : PendingSet K) : PendingSet K := empty

variable [DecidableEq K]

/-- Whether `key` is marked. -/
def contains (s : PendingSet K) (key : K) : Bool := s.index.contains key

/-- Takes `key` out, and says whether it was marked. -/
def remove (s : PendingSet K) (key : K) : Bool × PendingSet K :=
  if s.index.contains key then
    (true, ⟨s.keys.filter (· ≠ key), s.index.erase key⟩)
  else
    (false, s)

/-- Keeps the keys that satisfy `keep`, in their order. -/
def retain (s : PendingSet K) (keep : K → Bool) : PendingSet K :=
  ⟨s.keys.filter keep, (s.keys.filter (!keep ·)).foldl SortedSet.erase s.index⟩

/-- Asks `keep` about the listed keys in turn. A key that it turns down leaves the index before the
next one is asked about. -/
def sift {S : Type v} (keep : S → K → Bool × S) : S → List K → SortedSet K → S × PendingSet K
  | state, [], index => (state, ⟨[], index⟩)
  | state, key :: rest, index =>
    match keep state key with
    | (true, state) =>
      let (state, s) := sift keep state rest index
      (state, ⟨key :: s.keys, s.index⟩)
    | (false, state) => sift keep state rest (index.erase key)

/-- Keeps the keys that `keep` accepts, which is asked about them in their order and remembers a
state in between. The last state comes back with the set. -/
def retainWith {S : Type v} (s : PendingSet K) (keep : S → K → Bool × S) (state : S) :
    S × PendingSet K :=
  sift keep state s.keys s.index

variable [Std.LawfulEqOrd K] [Std.TransOrd K]

/-- Marks `key`, and says whether it is new. A key marked before keeps its place. -/
def mark (s : PendingSet K) (key : K) : Bool × PendingSet K :=
  if s.index.contains key then
    (false, s)
  else
    (true, ⟨s.keys ++ [key], s.index.insert key⟩)

/-- Marks `key`. -/
def insert (s : PendingSet K) (key : K) : PendingSet K := (s.mark key).2

/-- Marks the listed keys one after another. -/
def extend (s : PendingSet K) (keys : List K) : PendingSet K := keys.foldl insert s

end PendingSet

end Recalc
