import Recalc.Graph.Order

/-!
# Walks with buffers

A caller that asks often what a change affects keeps its buffers between the walks: the stack, and
the set of visited keys. Each walk clears both before it begins, so what the last walk left in them
has no say.

`affectedIn` lists what roots affect. It visits a key before it puts it on the stack, so that no key
is there twice. `foldDependents` calls back for each transitive dependent of a key. It visits a key
when it takes it off the stack, and passes over those that it visited before.
-/

namespace Recalc

universe u v

/-- The buffers of walks, with what the last walk left in them. -/
structure Scratch (K : Type u) [Ord K] where
  /-- The keys still to be looked at, the next one in front. -/
  stack : List K
  /-- The keys visited. -/
  visited : SortedSet K

namespace Scratch

variable {K : Type u} [Ord K]

/-- Buffers that were never used. -/
def empty : Scratch K := ⟨[], .empty⟩

instance : Inhabited (Scratch K) := ⟨empty⟩

/-- Clears the buffers. -/
def reset (_ : Scratch K) : Scratch K := empty

variable [DecidableEq K] [Std.LawfulEqOrd K] [Std.TransOrd K]

/-- Visits a key and puts it on the stack, unless it was visited before. -/
def mark (s : Scratch K) (key : K) : Scratch K :=
  if key ∈ s.visited then s else ⟨key :: s.stack, s.visited.insert key⟩

/-- Marks keys one after another. -/
def markAll (s : Scratch K) (keys : List K) : Scratch K := keys.foldl mark s

/-- Takes keys off the stack and marks what depends on them until the stack is empty, in at most
`fuel` steps. -/
def drain (g : DependencyGraph K) : Nat → Scratch K → Scratch K
  | 0, s => s
  | fuel + 1, s =>
    match s.stack with
    | [] => s
    | key :: stack => drain g fuel (markAll ⟨stack, s.visited⟩ (g.dependents key))

/-- Visits everything that depends on the keys of the stack. -/
def spread (s : Scratch K) (g : DependencyGraph K) : Scratch K :=
  s.drain g (s.stack.length + g.edgeTotal + 1)

/-- Takes keys off the stack until it is empty, in at most `fuel` steps. Each key is visited the
first time, and what depends on it is put on the stack. -/
def visitEach {S : Type v} (g : DependencyGraph K) (visit : S → K → S) :
    Nat → S → Scratch K → S × Scratch K
  | 0, state, s => (state, s)
  | fuel + 1, state, s =>
    match s.stack with
    | [] => (state, s)
    | key :: stack =>
      if key ∈ s.visited then visitEach g visit fuel state ⟨stack, s.visited⟩
      else
        visitEach g visit fuel (visit state key)
          ⟨DependencyGraph.push (g.dependents key) stack, s.visited.insert key⟩

end Scratch

namespace DependencyGraph

variable {K : Type u} [Ord K] [DecidableEq K] [Std.LawfulEqOrd K] [Std.TransOrd K]

/-- Visits every key that depends on `key` through one or more dependencies, once, by a walk in the
given buffers. -/
def foldDependents {S : Type v} (g : DependencyGraph K) (key : K) (visit : S → K → S) (state : S)
    (s : Scratch K) : S × Scratch K :=
  let s := s.reset
  Scratch.visitEach g visit (2 * g.edgeTotal + 1) state
    ⟨push (g.dependents key) s.stack, s.visited⟩

end DependencyGraph

namespace EvaluationOrder

variable {K : Type u} [Ord K] [DecidableEq K] [Std.LawfulEqOrd K] [Std.TransOrd K]

/-- The ordered roots and everything that depends on one of them, in the order, by a walk in the
given buffers. -/
def affectedIn (o : EvaluationOrder K) (g : DependencyGraph K) (roots : List K) (s : Scratch K) :
    List K × Scratch K :=
  let s := (s.reset.markAll (roots.filter o.contains)).spread g
  (o.arrange s.visited, s)

end EvaluationOrder

end Recalc
