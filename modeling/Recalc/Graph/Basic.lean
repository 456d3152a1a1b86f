import Recalc.Collection.Distinct
import Recalc.Graph.Adjacency

/-!
# Dependency graphs

A graph of keys in which `a` may depend on `b`. The dependencies are indexed in both directions:
`forward` lists what a key depends on and `reverse` what depends on it. Each operation tells whether
it changed the nodes or the dependencies.

The number of dependencies is kept as an integer, so that a count that fell below zero would show.
-/

namespace Recalc

universe u

/-- A set of keys and the dependencies between them. -/
structure DependencyGraph (K : Type u) [Ord K] where
  /-- The keys. -/
  nodes : SortedSet K
  /-- For each key with dependencies, the keys it depends on. -/
  forward : Adjacency K
  /-- For each key with dependents, the keys that depend on it. -/
  reverse : Adjacency K
  /-- The number of dependencies. -/
  edgeCount : Int

namespace DependencyGraph

variable {K : Type u} [Ord K]

/-- The graph without keys. -/
def empty : DependencyGraph K := ⟨.empty, .empty, .empty, 0⟩

instance : Inhabited (DependencyGraph K) := ⟨empty⟩

/-- The number of keys. -/
def size (g : DependencyGraph K) : Nat := g.nodes.size

/-- Whether there is no key. -/
def isEmpty (g : DependencyGraph K) : Bool := g.nodes.isEmpty

/-- The keys, ascending. -/
def keys (g : DependencyGraph K) : List K := g.nodes.toList

variable [DecidableEq K]

/-- Whether `key` is a node. -/
def contains (g : DependencyGraph K) (key : K) : Bool := g.nodes.contains key

/-- The keys that `key` depends on, in the order of its list. -/
def dependencies (g : DependencyGraph K) (key : K) : List K := g.forward.of key

/-- The keys that depend on `key`, in the order of its list. -/
def dependents (g : DependencyGraph K) (key : K) : List K := g.reverse.of key

/-- Whether `key` depends on anything. -/
def hasDependencies (g : DependencyGraph K) (key : K) : Bool := g.forward.contains key

/-- Whether anything depends on `key`. -/
def hasDependents (g : DependencyGraph K) (key : K) : Bool := g.reverse.contains key

/-- The number of keys that `key` depends on. -/
def inDegree (g : DependencyGraph K) (key : K) : Nat := (g.dependencies key).length

/-- The number of keys that depend on `key`. -/
def outDegree (g : DependencyGraph K) (key : K) : Nat := (g.dependents key).length

variable [Std.LawfulEqOrd K] [Std.TransOrd K]

/-- Makes `key` a node, and tells whether it is a new one. -/
def addNode (g : DependencyGraph K) (key : K) : Bool × DependencyGraph K :=
  (!g.contains key, { g with nodes := g.nodes.insert key })

/-- Makes `source` depend on `target`, both of which become nodes, and tells whether that is new. -/
def addDependency (g : DependencyGraph K) (source target : K) : Bool × DependencyGraph K :=
  let g := { g with nodes := (g.nodes.insert source).insert target }
  if target ∈ g.dependencies source then (false, g)
  else
    (true, { g with
      forward := g.forward.link source target
      reverse := g.reverse.link target source
      edgeCount := g.edgeCount + 1 })

/-- Takes the dependency of `source` on `target` away, and tells whether there was one. -/
def removeDependency (g : DependencyGraph K) (source target : K) : Bool × DependencyGraph K :=
  if target ∈ g.dependencies source then
    (true, { g with
      forward := g.forward.unlink source target
      reverse := g.reverse.unlink target source
      edgeCount := g.edgeCount - 1 })
  else (false, g)

/-- Makes `source` depend on exactly the keys of `targets`, and tells whether that changed its
dependencies. Dependencies that stay keep their places; the others are taken away before new ones
are added. -/
def replaceDependencies (g : DependencyGraph K) (source : K) (targets : List K) :
    Bool × DependencyGraph K :=
  let g := { g with nodes := g.nodes.insert source }
  let new := distinct targets
  let old := g.dependencies source
  if old.length = new.length && old.all fun key => key ∈ new then (false, g)
  else
    let stale := old.filter fun key => key ∉ new
    let fresh := new.filter fun key => key ∉ old
    let g := stale.foldl (fun g key => (g.removeDependency source key).2) g
    (true, fresh.foldl (fun g key => (g.addDependency source key).2) g)

/-- Takes `key` out of the dependents of `target`, on which it no longer depends. -/
def leaveTarget (key : K) (g : DependencyGraph K) (target : K) : DependencyGraph K :=
  { g with reverse := g.reverse.unlink target key, edgeCount := g.edgeCount - 1 }

/-- Takes `key` out of the dependencies of `dependent`, if it is still among them. -/
def leaveDependent (key : K) (g : DependencyGraph K) (dependent : K) : DependencyGraph K :=
  if key ∈ g.dependencies dependent then
    { g with forward := g.forward.unlink dependent key, edgeCount := g.edgeCount - 1 }
  else g

/-- Takes `key` and every dependency from it and on it away, and tells whether it was a node. -/
def removeKey (g : DependencyGraph K) (key : K) : Bool × DependencyGraph K :=
  let found := g.contains key
  let targets := g.dependencies key
  let g := { g with forward := g.forward.erase key }
  let g := targets.foldl (leaveTarget key) g
  let dependents := g.dependents key
  let g := { g with reverse := g.reverse.erase key }
  let g := dependents.foldl (leaveDependent key) g
  (found, { g with nodes := g.nodes.erase key })

end DependencyGraph

end Recalc
