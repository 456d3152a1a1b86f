import Recalc.Graph.Basic

/-!
# Walking the dependents

Walks along the dependents of a key use a stack: the dependents of the key visited last are looked
at first, and among those the last of its list. A stack is a list whose head is its top.

Two walks are given. A `Cursor` yields the transitive dependents one at a time, on demand;
`closure` collects what a set of roots affects.
-/

namespace Recalc.DependencyGraph

universe u

variable {K : Type u} [Ord K] [DecidableEq K]

/-- Puts keys on a stack, so that the last one is on top. -/
def push (keys stack : List K) : List K := keys.reverse ++ stack

/-- A walk along dependents that can be continued. -/
structure Cursor (K : Type u) [Ord K] where
  /-- The keys yielded so far. -/
  visited : SortedSet K
  /-- The keys still to be looked at. -/
  stack : List K

/-- A walk that starts at the dependents of `key`. -/
def cursor (g : DependencyGraph K) (key : K) : Cursor K := ⟨.empty, push (g.dependents key) []⟩

/-- The dependencies of the graph, counted. -/
def edgeTotal (g : DependencyGraph K) : Nat := Adjacency.total g.reverse

variable [Std.LawfulEqOrd K] [Std.TransOrd K]

/-- The first key of a stack that was not visited, and the walk from there on. -/
def advance? (g : DependencyGraph K) (visited : SortedSet K) : List K → Option (K × Cursor K)
  | [] => none
  | key :: rest =>
    if key ∈ visited then advance? g visited rest
    else some (key, ⟨visited.insert key, push (g.dependents key) rest⟩)

/-- The next key of a walk. -/
def Cursor.next? (g : DependencyGraph K) (c : Cursor K) : Option (K × Cursor K) :=
  advance? g c.visited c.stack

/-- The keys that a walk still yields, at most `fuel` of them. -/
def Cursor.drain (g : DependencyGraph K) : Nat → Cursor K → List K
  | 0, _ => []
  | fuel + 1, c =>
    match c.next? g with
    | none => []
    | some (key, c) => key :: drain g fuel c

/-- The keys that depend on `key` through one or more dependencies, as a walk yields them. -/
def transitiveDependents (g : DependencyGraph K) (key : K) : List K :=
  (g.cursor key).drain g (g.edgeTotal + 1)

/-- The keys of a list that are not visited yet, each once, and the set with them. -/
def unvisited (visited : SortedSet K) (keys : List K) : List K × SortedSet K :=
  keys.foldl (fun (found, visited) key =>
    if key ∈ visited then (found, visited) else (found ++ [key], visited.insert key)) ([], visited)

/-- The visited keys after everything on the stack and what depends on it was visited too, in at
most `fuel` steps. -/
def closureFrom (g : DependencyGraph K) : Nat → SortedSet K → List K → SortedSet K
  | 0, visited, _ => visited
  | _, visited, [] => visited
  | fuel + 1, visited, key :: stack =>
    let (found, visited) := unvisited visited (g.dependents key)
    closureFrom g fuel visited (push found stack)

/-- The roots and everything that depends on one of them. -/
def closure (g : DependencyGraph K) (roots : List K) : SortedSet K :=
  let (found, visited) := unvisited .empty roots
  closureFrom g (found.length + g.edgeTotal + 1) visited (push found [])

end Recalc.DependencyGraph
