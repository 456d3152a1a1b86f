import Recalc.Collection.PendingSet

/-!
# Calls of a pending set

A pending set is used by calls: keys are marked one by one or many at once, taken out again, kept or
dropped by a predicate, and in the end drained for a pass or dropped altogether.
-/

namespace Recalc.PendingSet

universe u

/-- A call that changes a pending set. -/
inductive Call (K : Type u) : Type (max u 1) where
  /-- Mark a key. -/
  | mark (key : K)
  /-- Mark keys one after another. -/
  | extend (keys : List K)
  /-- Take a key out. -/
  | remove (key : K)
  /-- Keep the keys that a predicate accepts, which remembers what it was asked. -/
  | retain {S : Type} (keep : S → K → Bool × S) (state : S)
  /-- Take all keys out and list them. -/
  | drain
  /-- Drop all keys. -/
  | clear

/-- What a call answers. -/
inductive Answer (K : Type u) where
  /-- Nothing. -/
  | done
  /-- Whether the call changed anything. -/
  | flag (value : Bool)
  /-- Keys. -/
  | keys (keys : List K)

variable {K : Type u} [Ord K] [DecidableEq K] [Std.LawfulEqOrd K] [Std.TransOrd K]

/-- What a call answers, and the set after it. -/
def Call.perform (s : PendingSet K) : Call K → Answer K × PendingSet K
  | mark key =>
    let (new, s) := s.mark key
    (.flag new, s)
  | extend keys => (.done, s.extend keys)
  | remove key =>
    let (found, s) := s.remove key
    (.flag found, s)
  | retain keep state => (.done, (s.retainWith keep state).2)
  | drain =>
    let (keys, s) := s.drain
    (.keys keys, s)
  | clear => (.done, s.clear)

/-- The set after calls of the empty set. -/
def after (calls : List (Call K)) : PendingSet K :=
  calls.foldl (fun s call => (call.perform s).2) empty

end Recalc.PendingSet
