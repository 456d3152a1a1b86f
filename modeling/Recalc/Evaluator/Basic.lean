import Recalc.Batch
import Recalc.Expr.Evaluation
import Recalc.Extraction.Integrity
import Recalc.Extraction.Registry
import Recalc.PathGraph
import Recalc.Tree
import Recalc.Update

/-!
# The state of an evaluator

An evaluator keeps a tree of entities and five indices of it: the known paths, the dependency graph,
the snapshot of evaluated values, the allocations of bulk data, and, in both directions, which
entities name which in their code or declarations.
-/

namespace Recalc

/-- An incremental evaluator over a tree of entities. -/
structure Evaluator where
  /-- The settings. -/
  settings : Settings
  /-- What runs the code of bindings. -/
  engine : Engine
  /-- What reads the entities of each kind. -/
  registry : Registry
  /-- The entities. -/
  tree : Tree
  /-- Every path of the tree. -/
  known : KnownPaths
  /-- The dependencies between the paths. -/
  graph : PathGraph
  /-- The evaluated values. -/
  snapshot : Snapshot
  /-- The allocation of each bulk path, made anew only when its raw value is written. -/
  bulk : SortedMap String (Nat × Json)
  /-- The identity of the next allocation. -/
  nextIdentity : Nat
  /-- For each entity name, the entities that name it. -/
  readers : SortedMap String (SortedSet String)
  /-- For each entity, the entity names it names. -/
  reads : SortedMap String (List String)
  /-- Whether a pass has completed since the tree was loaded. -/
  evaluatedOnce : Bool

namespace Evaluator

/-- An evaluator without entities. -/
def ofSettings (settings : Settings) : Evaluator where
  settings := settings
  engine := .standard
  registry := .standard
  tree := .empty
  known := .empty
  graph := .empty
  snapshot := .empty
  bulk := .empty
  nextIdentity := 0
  readers := .empty
  reads := .empty
  evaluatedOnce := false

instance : Inhabited Evaluator := ⟨ofSettings default⟩

/-- The evaluated value of a path, assembled if it is composite. -/
def value? (e : Evaluator) (path : String) : Option Value := e.snapshot.assemble? path

/-- What an expression can see during a pass. An entity is defined even before any of its paths has
a value, so naming it yields nothing rather than a failure. -/
def scope (e : Evaluator) (snapshot : Snapshot) : Scope where
  lookup := snapshot.lookup?
  isDefined := e.tree.contains

/-- The dynamic properties and the declared ones of a record, as far as they have raw values. -/
def rawDynamic (record : EntityRecord) : List Json :=
  (record.config.dynamicPaths.toList ++ record.config.bindingPaths.toList).filterMap
    record.entity.property?

/-- The entity names that the code of a record starts chains with. -/
def codeRoots (record : EntityRecord) : List String :=
  ((rawDynamic record).flatMap (Reference.chains · record.config.bindingSyntax)).map Path.entityOf

/-- The entity names of the declared targets of a record; a target that is a property of the entity
itself counts for nothing. -/
def declaredRoots (record : EntityRecord) : List String :=
  (record.config.dependencyMap.values.flatten.filter fun target =>
    (record.entity.property? target).isNone).map Path.entityOf

/-- The entity names, other than its own, that the code and the declarations of a record name. -/
def referencedRoots (record : EntityRecord) : List String :=
  distinct ((codeRoots record ++ declaredRoots record).filter (· ≠ record.name))

end Evaluator

end Recalc
