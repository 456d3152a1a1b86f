import Recalc.Graph.Traversal

/-!
# Why a key is affected

A trace reports, in the order of a walk from a list of roots, each root and each dependency through
which the walk reaches a dependent. A `Recorder` keeps one cause for each key, the first one
reported, except that being a root outweighs every other cause; following the causes back gives a
chain of dependencies from a root to the key.
-/

namespace Recalc

universe u

/-- A report of a walk. -/
inductive TraceEvent (K : Type u) where
  /-- The key is one of the roots. -/
  | root (key : K)
  /-- The key was reached because it depends on `because`. -/
  | caused (key because : K)
  deriving DecidableEq

/-- Why a key is affected. -/
inductive Cause (K : Type u) where
  /-- It is one of the roots. -/
  | root
  /-- It depends on the key. -/
  | dependency (because : K)
  deriving DecidableEq

namespace DependencyGraph

variable {K : Type u} [Ord K] [DecidableEq K] [Std.LawfulEqOrd K] [Std.TransOrd K]

/-- The reports of a walk from the stack on, in at most `fuel` steps. -/
def traceFrom (g : DependencyGraph K) : Nat → SortedSet K → List K → List (TraceEvent K)
  | 0, _, _ => []
  | _, _, [] => []
  | fuel + 1, visited, key :: stack =>
    let (found, after) := unvisited visited (g.dependents key)
    (g.dependents key).map (TraceEvent.caused · key) ++ traceFrom g fuel after (push found stack)

/-- The reports of a walk from the roots: all roots first, then every dependency on a key the walk
visits. -/
def trace (g : DependencyGraph K) (roots : List K) : List (TraceEvent K) :=
  let (found, visited) := unvisited .empty roots
  roots.map .root ++ traceFrom g (found.length + g.edgeTotal + 1) visited (push found [])

end DependencyGraph

/-- One cause for each key that was reported. -/
structure Recorder (K : Type u) [Ord K] where
  /-- The causes, by key. -/
  causes : SortedMap K (Cause K)

namespace Recorder

variable {K : Type u} [Ord K]

/-- The recorder that has heard nothing. -/
def empty : Recorder K := ⟨.empty⟩

instance : Inhabited (Recorder K) := ⟨empty⟩

variable [DecidableEq K]

/-- The recorded cause of `key`. -/
def cause? (r : Recorder K) (key : K) : Option (Cause K) := r.causes.get? key

/-- The chain from a root to `key` in front of the keys `after`, which depend on it one after
another. There is none if a cause is missing or the causes go round in a circle. -/
def chainTo (r : Recorder K) : Nat → List K → K → Option (List K)
  | 0, _, _ => none
  | fuel + 1, after, key =>
    if key ∈ after then none
    else
      match r.cause? key with
      | none => none
      | some .root => some (key :: after)
      | some (.dependency because) => chainTo r fuel (key :: after) because

/-- The chain of recorded causes from a root to `key`. -/
def explain? (r : Recorder K) (key : K) : Option (List K) := r.chainTo (r.causes.size + 1) [] key

variable [Std.LawfulEqOrd K] [Std.TransOrd K]

/-- Records a report. -/
def record (r : Recorder K) : TraceEvent K → Recorder K
  | .root key => ⟨r.causes.insert key .root⟩
  | .caused key because =>
    if r.causes.contains key then r else ⟨r.causes.insert key (.dependency because)⟩

/-- Records reports one after another. -/
def recordAll (r : Recorder K) (events : List (TraceEvent K)) : Recorder K := events.foldl record r

end Recorder

end Recalc
