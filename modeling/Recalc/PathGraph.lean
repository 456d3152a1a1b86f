import Recalc.Collection.Interner
import Recalc.Extraction.Extractor
import Recalc.Graph.Order
import Recalc.Graph.Trace

/-!
# The dependency graph of paths

Paths are interned, and the graph and its order work on their ids; since ids follow the order in
which paths were first seen, so do ties in the evaluation order. The nodes of an entity are replaced
as a whole. The order is computed when it is asked for and the graph has changed since.
-/

namespace Recalc

/-- A dependency graph whose keys are paths. -/
structure PathGraph where
  /-- The ids of paths. -/
  ids : Interner String
  /-- The graph of ids. -/
  graph : DependencyGraph Nat
  /-- The ids that each entity has listed. -/
  owned : SortedMap String (List Nat)
  /-- The order when it was last computed. -/
  order : EvaluationOrder Nat
  /-- Whether the graph has changed since. -/
  stale : Bool

namespace PathGraph

/-- The hash by which paths are interned. -/
def pathHash (path : String) : UInt64 :=
  path.toList.foldl (fun h c => h * 31 + c.val.toUInt64) 7

/-- The graph without paths. -/
def empty : PathGraph := ⟨.empty pathHash, .empty, .empty, .empty, false⟩

instance : Inhabited PathGraph := ⟨empty⟩

/-- The number of paths in the graph. -/
def size (g : PathGraph) : Nat := g.graph.size

/-- Whether the graph has no path. -/
def isEmpty (g : PathGraph) : Bool := g.graph.isEmpty

/-- The number of dependencies. -/
def edgeCount (g : PathGraph) : Int := g.graph.edgeCount

/-- The id of a path that was seen before. -/
def id? (g : PathGraph) (path : String) : Option Nat := g.ids.lookup path

/-- Whether a path is in the graph. -/
def contains (g : PathGraph) (path : String) : Bool := (g.id? path).any g.graph.contains

/-- The path with an id that this graph gave out. -/
def path (g : PathGraph) (id : Nat) : String := (g.ids.get? id).getD ""

/-- The paths with the given ids. -/
def paths (g : PathGraph) (ids : List Nat) : List String := ids.map g.path

/-! ### Changing the graph -/

/-- Makes a path a node with the given dependencies, and notes its id. -/
def install (state : PathGraph × List Nat) (entry : String × List String) : PathGraph × List Nat :=
  let (g, nodes) := state
  let (source, ids) := g.ids.intern entry.1
  let (targets, ids) := ids.internAll entry.2
  let graph := (g.graph.addNode source).2
  let graph := (graph.replaceDependencies source targets).2
  ({ g with ids, graph }, nodes ++ [source])

/-- Takes ids out of the graph. -/
def removeIds (g : PathGraph) (ids : List Nat) : PathGraph :=
  { g with graph := ids.foldl (fun graph id => (graph.removeKey id).2) g.graph }

/-- Lists the paths of an entity with their dependencies. Paths that the entity listed before and
does not list now leave the graph. -/
def update (g : PathGraph) (entity : String) (map : DependencyMap) : PathGraph :=
  let previous := g.owned.getD entity []
  let (g, nodes) := map.entries.foldl install (g, [])
  let g := { g with owned := g.owned.insert entity nodes }
  let g := g.removeIds (previous.filter fun id => id ∉ nodes)
  { g with stale := true }

/-- Takes the paths of an entity out of the graph, and tells whether it had listed any. -/
def remove (g : PathGraph) (entity : String) : Bool × PathGraph :=
  match g.owned.get? entity with
  | none => (false, g)
  | some ids =>
    let g := { g with owned := g.owned.erase entity }
    (true, { g.removeIds ids with stale := true })

/-! ### The order -/

/-- Computes the order anew if the graph has changed, and tells whether it had. -/
def refreshOrder (g : PathGraph) : Bool × PathGraph :=
  if g.stale then (true, { g with order := .compute g.graph, stale := false }) else (false, g)

/-- The graph with its order up to date. -/
def refreshed (g : PathGraph) : PathGraph := g.refreshOrder.2

/-- The ids of all paths in evaluation order. -/
def currentOrder (g : PathGraph) : List Nat × PathGraph :=
  let g := g.refreshed
  (g.order.order, g)

/-- All paths in evaluation order. -/
def evaluationOrder (g : PathGraph) : List String × PathGraph :=
  let (ids, g) := g.currentOrder
  (g.paths ids, g)

/-- The ids that a change of the roots affects, in evaluation order. -/
def affected (g : PathGraph) (roots : List Nat) : List Nat × PathGraph :=
  let g := g.refreshed
  (g.order.affected g.graph roots, g)

/-- Whether an id is on a cycle, by the order last computed. -/
def isCyclic (g : PathGraph) (id : Nat) : Bool := g.order.isCyclic id

/-- The number of ids on cycles, by the order last computed. -/
def cyclicSize (g : PathGraph) : Nat := g.order.cyclicSize

/-- The paths on cycles, in evaluation order. -/
def cyclicPaths (g : PathGraph) : List String × PathGraph :=
  let g := g.refreshed
  (g.paths (g.order.tail.filter g.order.isCyclic), g)

/-! ### Questions -/

/-- The paths of neighbours, by ascending id. -/
def neighbours (g : PathGraph) (path : String) (list : Nat → List Nat) : List String :=
  match g.id? path with
  | none => []
  | some id => g.paths ((list id).mergeSort (· ≤ ·))

/-- The paths that a path reads. -/
def dependencies (g : PathGraph) (path : String) : List String :=
  g.neighbours path g.graph.dependencies

/-- The paths that read a path. -/
def dependents (g : PathGraph) (path : String) : List String :=
  g.neighbours path g.graph.dependents

/-- Every path with the paths it reads. -/
def dependencyMap (g : PathGraph) : DependencyMap :=
  .ofList (g.graph.keys.map fun id => (g.path id, g.dependencies (g.path id)))

/-- A chain of reads from one of the roots to the target. -/
def explain? (g : PathGraph) (roots : List String) (target : String) : Option (List String) :=
  match g.id? target with
  | none => none
  | some id =>
    let events := g.graph.trace (roots.filterMap g.id?)
    ((Recorder.empty.recordAll events).explain? id).map g.paths

end PathGraph

end Recalc
