import Recalc.Graph.Scratch
import Recalc.PathGraph

/-!
# Calls of a graph of paths

A graph of paths is used by calls: entities are listed and taken out, and in between questions are
asked that need the order. The order is kept from one question to the next, and computed anew only
for a question that comes after a change. The walk behind `affected` reuses buffers, which hold
whatever the walks before it left there.
-/

namespace Recalc.PathGraph

/-- A call of a graph of paths. -/
inductive Call where
  /-- List the paths of an entity with what they read. -/
  | update (entity : String) (map : DependencyMap)
  /-- Take the paths of an entity out. -/
  | remove (entity : String)
  /-- Compute the order if the graph has changed. -/
  | refreshOrder
  /-- What is the order? -/
  | order
  /-- What are the paths, in order? -/
  | evaluationOrder
  /-- Which ids do the roots affect? The walk finds its buffers as given. -/
  | affected (roots : List Nat) (buffers : Scratch Nat)
  /-- Which paths are on cycles? -/
  | cyclicPaths
  /-- Why do the roots affect the target? -/
  | explain (roots : List String) (target : String)

/-- What a call answers. -/
inductive Answer where
  /-- Nothing. -/
  | done
  /-- Whether there was anything to do. -/
  | flag (value : Bool)
  /-- An order. -/
  | order (order : EvaluationOrder Nat)
  /-- Ids. -/
  | ids (ids : List Nat)
  /-- Paths. -/
  | paths (paths : List String)
  /-- A chain of paths, if there is one. -/
  | chain (chain : Option (List String))

namespace Call

/-- What a call answers, and the graph after it. -/
def perform (g : PathGraph) : Call → Answer × PathGraph
  | update entity map => (.done, g.update entity map)
  | remove entity =>
    let (found, g) := g.remove entity
    (.flag found, g)
  | refreshOrder =>
    let (changed, g) := g.refreshOrder
    (.flag changed, g)
  | order =>
    let g := g.refreshed
    (.order g.order, g)
  | evaluationOrder =>
    let (paths, g) := g.evaluationOrder
    (.paths paths, g)
  | affected roots buffers =>
    let g := g.refreshed
    (.ids (g.order.affectedIn g.graph roots buffers).1, g)
  | cyclicPaths =>
    let (paths, g) := g.cyclicPaths
    (.paths paths, g)
  | explain roots target => (.chain (g.explain? roots target), g)

/-- Whether the call is about an entity, and not a question. -/
def isChange : Call → Bool
  | update _ _ => true
  | remove _ => true
  | _ => false

/-- Whether the order is up to date after the call. -/
def needsOrder : Call → Bool
  | refreshOrder => true
  | order => true
  | evaluationOrder => true
  | affected _ _ => true
  | cyclicPaths => true
  | _ => false

/-- The paths that a call names, in the order in which they get their ids. -/
def names : Call → List String
  | update _ map => map.entries.flatMap fun e => e.1 :: e.2
  | _ => []

end Call

/-- The graph after calls of the empty graph. -/
def after (calls : List Call) : PathGraph := calls.foldl (fun g call => (call.perform g).2) .empty

/-- The paths that calls name, each at its first appearance. -/
def appearances (calls : List Call) : List String := distinct (calls.flatMap Call.names)

end Recalc.PathGraph
