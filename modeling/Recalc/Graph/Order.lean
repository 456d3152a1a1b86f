import Recalc.Graph.Traversal

/-!
# The evaluation order

Keys are placed one after another, always the smallest among those whose dependencies are all
placed. Keys on a cycle, and keys that depend on one, never become ready; they form the tail of the
order, in ascending order. The cyclic keys are those of the tail that reach themselves.

`affected` lists what a change affects, in this order.
-/

namespace Recalc

universe u

/-- The state of the placement. -/
structure Placement (K : Type u) [Ord K] where
  /-- For each key that waits, how many of its dependencies are not placed. -/
  waiting : SortedMap K Nat
  /-- The keys whose dependencies are all placed. -/
  ready : SortedSet K

/-- An order of the keys of a graph. -/
structure EvaluationOrder (K : Type u) [Ord K] where
  /-- The keys in order. -/
  order : List K
  /-- The number of keys at the front that follow all their dependencies. -/
  acyclicSize : Nat
  /-- The place of each key. -/
  positions : SortedMap K Nat
  /-- The keys on cycles. -/
  cyclic : SortedSet K

namespace Placement

variable {K : Type u} [Ord K] [DecidableEq K] [Std.LawfulEqOrd K] [Std.TransOrd K]

/-- Before anything is placed. -/
def start (g : DependencyGraph K) : Placement K :=
  g.keys.foldl (fun p key =>
    match g.inDegree key with
    | 0 => { p with ready := p.ready.insert key }
    | degree => { p with waiting := p.waiting.insert key degree }) ⟨.empty, .empty⟩

/-- One dependency of `dependent` was placed. -/
def settle (p : Placement K) (dependent : K) : Placement K :=
  match p.waiting.get? dependent with
  | none => p
  | some degree =>
    if degree - 1 = 0 then
      { waiting := p.waiting.erase dependent, ready := p.ready.insert dependent }
    else { p with waiting := p.waiting.insert dependent (degree - 1) }

/-- Places the smallest ready key. -/
def step? (g : DependencyGraph K) (p : Placement K) : Option (K × Placement K) :=
  match p.ready.min? with
  | none => none
  | some key =>
    some (key, (g.dependents key).foldl settle { p with ready := p.ready.erase key })

/-- The keys placed in at most `fuel` steps, and the state after them. -/
def run (g : DependencyGraph K) : Nat → Placement K → List K × Placement K
  | 0, p => ([], p)
  | fuel + 1, p =>
    match p.step? g with
    | none => ([], p)
    | some (key, p) =>
      let (placed, p) := run g fuel p
      (key :: placed, p)

end Placement

namespace EvaluationOrder

variable {K : Type u} [Ord K]

/-- The order of no keys. -/
def empty : EvaluationOrder K := ⟨[], 0, .empty, .empty⟩

instance : Inhabited (EvaluationOrder K) := ⟨empty⟩

/-- The number of ordered keys. -/
def size (o : EvaluationOrder K) : Nat := o.order.length

/-- Whether no key is ordered. -/
def isEmpty (o : EvaluationOrder K) : Bool := o.order.isEmpty

/-- The keys at the front, which follow all their dependencies. -/
def acyclic (o : EvaluationOrder K) : List K := o.order.take o.acyclicSize

/-- The keys that could not be placed after their dependencies. -/
def tail (o : EvaluationOrder K) : List K := o.order.drop o.acyclicSize

/-- The number of keys on cycles. -/
def cyclicSize (o : EvaluationOrder K) : Nat := o.cyclic.size

/-- The size of the tail, if there is one. -/
def remaining? (o : EvaluationOrder K) : Option Nat :=
  let remaining := o.order.length - o.acyclicSize
  if remaining = 0 then none else some remaining

variable [DecidableEq K]

/-- Whether `key` is ordered. -/
def contains (o : EvaluationOrder K) (key : K) : Bool := o.positions.contains key

/-- The place of `key` in the order. -/
def position? (o : EvaluationOrder K) (key : K) : Option Nat := o.positions.get? key

/-- Whether `key` is on a cycle. -/
def isCyclic (o : EvaluationOrder K) (key : K) : Bool := o.cyclic.contains key

/-- The keys on cycles, in the order. -/
def cyclicKeys (o : EvaluationOrder K) : List K := o.tail.filter o.isCyclic

variable [Std.LawfulEqOrd K] [Std.TransOrd K]

/-- The keys of `within` that can be reached from the keys of the stack along dependencies inside
`within`, in at most `fuel` steps. -/
def reachWithin (g : DependencyGraph K) (within : SortedSet K) :
    Nat → SortedSet K → List K → SortedSet K
  | 0, visited, _ => visited
  | _, visited, [] => visited
  | fuel + 1, visited, key :: stack =>
    let (found, visited) :=
      DependencyGraph.unvisited visited ((g.dependencies key).filter (· ∈ within))
    reachWithin g within fuel visited (DependencyGraph.push found stack)

/-- Whether `key` can be reached from itself through one or more dependencies inside `within`. -/
def reachesItself (g : DependencyGraph K) (within : SortedSet K) (key : K) : Bool :=
  (reachWithin g within (within.size + 2) .empty [key]).contains key

/-- The keys of the tail that are on a cycle. -/
def cycleMembers (g : DependencyGraph K) (tail : List K) : SortedSet K :=
  let within := SortedSet.ofList tail
  .ofList (tail.filter (reachesItself g within))

/-- The order of a graph. -/
def compute (g : DependencyGraph K) : EvaluationOrder K :=
  let (placed, rest) := (Placement.start g).run g g.size
  let tail := rest.waiting.keys
  let order := placed ++ tail
  { order
    acyclicSize := placed.length
    positions := .ofList order.zipIdx
    cyclic := cycleMembers g tail }

/-- The keys of a set, read off the order. -/
def readOff (o : EvaluationOrder K) (set : SortedSet K) : List K := o.order.filter (· ∈ set)

/-- The ordered keys of a set, sorted by place. -/
def sortByPlace (o : EvaluationOrder K) (set : SortedSet K) : List K :=
  let placed := set.toList.filterMap fun key =>
    (o.position? key).map fun place => (place, key)
  (placed.mergeSort fun a b => a.1 ≤ b.1).map (·.2)

/-- The ordered keys of a set, in the order. A large set is read off the order; a small one is
sorted by place. -/
def arrange (o : EvaluationOrder K) (set : SortedSet K) : List K :=
  if o.order.length ≤ set.size * 4 then o.readOff set else o.sortByPlace set

/-- The ordered roots and everything that depends on one of them, in the order. -/
def affected (o : EvaluationOrder K) (g : DependencyGraph K) (roots : List K) : List K :=
  o.arrange (g.closure (roots.filter o.contains))

end EvaluationOrder

end Recalc
