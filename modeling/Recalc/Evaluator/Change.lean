import Recalc.Evaluator.Basic

/-!
# Changing the tree

The steps by which a batch changes the tree and its indices, before anything is evaluated. A step
works on a `Progress`: the evaluator, and what the batch has done so far. Entities whose
dependencies may have changed are queued, and rebuilt once all steps are done.
-/

namespace Recalc

/-- What a batch has done so far. -/
structure Work where
  /-- Paths whose value may have changed. -/
  roots : PendingSet String
  /-- Entities whose dependencies are to be read again. -/
  rebuild : PendingSet String
  /-- Leaf paths that ceased to exist. -/
  removed : List String
  /-- The value that each path the batch touched had before. -/
  previous : Snapshot

/-- Notes the value a path had, unless one is noted already. -/
def Snapshot.capture (previous : Snapshot) (path : String) (old : Option Value) : Snapshot :=
  match old with
  | some value => if previous.contains path then previous else previous.insert path value
  | none => previous

namespace Work

/-- Before the batch. -/
def empty : Work := ⟨.empty, .empty, [], .empty⟩

end Work

/-- An evaluator in the middle of a batch. -/
structure Progress where
  /-- The evaluator as far as it is changed. -/
  evaluator : Evaluator
  /-- What the batch has done so far. -/
  work : Work

namespace Progress

/-- A leaf path ceases to exist. -/
def dropLeaf (p : Progress) (leaf : String) : Progress :=
  let { evaluator, work } := p
  { evaluator := { evaluator with snapshot := evaluator.snapshot.erase leaf }
    work := { work with
      previous := work.previous.capture leaf (evaluator.snapshot.get? leaf)
      removed := work.removed ++ [leaf] } }

/-- Queues every other entity that names the entity. -/
def queueReaders (p : Progress) (name : String) : Progress :=
  match p.evaluator.readers.get? name with
  | none => p
  | some readers =>
    { p with work := { p.work with
        rebuild := p.work.rebuild.extend (readers.toList.filter (· ≠ name)) } }

end Progress

namespace Evaluator

/-- Forgets the allocations of an entity. -/
def freeBulk (e : Evaluator) (name : String) : Evaluator :=
  { e with bulk := e.bulk.filter fun path _ => Path.entityOf path ≠ name }

/-- Makes a new allocation for a bulk path. -/
def allocate (e : Evaluator) (path : String) (payload : Json) : Evaluator :=
  { e with
    bulk := e.bulk.insert path (e.nextIdentity, payload)
    nextIdentity := e.nextIdentity + 1 }

/-- Makes new allocations for all bulk properties of a record. -/
def cacheBulk (e : Evaluator) (record : EntityRecord) : Evaluator :=
  record.config.bulkPaths.toList.foldl (fun e property =>
    match record.entity.property? property with
    | some payload =>
      if payload.isComposite then e else e.allocate (Path.join record.name property) payload
    | none => e) (e.freeBulk record.name)

/-- The readers without `name` among those of `root`. -/
def dropReader (name : String) (readers : SortedMap String (SortedSet String)) (root : String) :
    SortedMap String (SortedSet String) :=
  match readers.get? root with
  | none => readers
  | some set =>
    let set := set.erase name
    if set.isEmpty then readers.erase root else readers.insert root set

/-- The readers with `name` among those of `root`. -/
def addReader (name : String) (readers : SortedMap String (SortedSet String)) (root : String) :
    SortedMap String (SortedSet String) :=
  readers.modifyD root .empty (·.insert name)

/-- Notes which entity names an entity names, in place of what was noted before. -/
def setReads (e : Evaluator) (name : String) (roots : List String) : Evaluator :=
  let readers := (e.reads.getD name []).foldl (dropReader name) e.readers
  let reads := e.reads.erase name
  if roots.isEmpty then { e with readers, reads }
  else
    { e with
      readers := roots.foldl (addReader name) readers
      reads := reads.insert name roots }

end Evaluator

namespace Progress

/-- Drops the leaves of the record that `record` replaces and does not have itself, and takes the
paths of the replaced record out of the known ones. -/
def dropStale (p : Progress) (record : EntityRecord) : Progress :=
  match p.evaluator.tree.get? record.name with
  | none => p
  | some old =>
    let fresh := record.leafPaths
    let stale := (old.entity.leafPaths record.name).filter fun leaf => leaf ∉ fresh
    let p := { p with evaluator := { p.evaluator with
      known := p.evaluator.known.removeEntity record.name old.entity } }
    stale.foldl dropLeaf p

/-- Stores an entity. -/
def upsertEntity (p : Progress) (record : EntityRecord) : Progress :=
  let name := record.name
  let { evaluator, work } := p.dropStale record
  let evaluator := { evaluator with known := evaluator.known.insertEntity name record.entity }
  let evaluator := evaluator.cacheBulk record
  let evaluator := { evaluator with tree := evaluator.tree.upsert record }
  let work := { work with
    roots := work.roots.extend record.leafPaths
    rebuild := work.rebuild.insert name }
  Progress.queueReaders ⟨evaluator, work⟩ name

/-- Removes an entity. -/
def removeEntity (p : Progress) (name : String) : Progress :=
  match p.evaluator.tree.get? name with
  | none => p
  | some record =>
    let p := { p with evaluator := { p.evaluator with
      tree := p.evaluator.tree.remove name
      known := p.evaluator.known.removeEntity name record.entity } }
    let p := (record.entity.leafPaths name).foldl dropLeaf p
    let evaluator := { p.evaluator with graph := (p.evaluator.graph.remove name).2 }
    let evaluator := (evaluator.freeBulk name).setReads name []
    { p with evaluator }.queueReaders name

/-- Performs a structural change. -/
def change (p : Progress) : StructuralChange → Progress
  | .upsert record => p.upsertEntity record
  | .remove name => p.removeEntity name

/-- Whether writing `value` leaves the paths of the entity as they are. -/
def keepsShape (record : EntityRecord) (property : String) (value : Json) : Bool :=
  !value.isComposite && (record.entity.property? property).any (!·.isComposite)

/-- Writes a raw value in place, where the paths of the entity stay as they are. -/
def writeInPlace (p : Progress) (record : EntityRecord) (path property : String) (value : Json) :
    Progress :=
  let { evaluator, work } := p
  let evaluator := if record.config.isBulkPath property then evaluator.allocate path value
    else evaluator
  let rewires :=
    record.config.isDynamicPath property || record.config.dependencyMap.contains property
  { evaluator := { evaluator with tree := evaluator.tree.upsert (record.set property value) }
    work := { work with
      roots := work.roots.insert path
      rebuild := if rewires then work.rebuild.insert record.name else work.rebuild } }

/-- Writes a raw value. A value that changes the paths of the entity makes it a new entity. -/
def writeValue (p : Progress) (write : String × Json) : Progress :=
  let (path, value) := write
  let (name, property) := Path.split path
  match p.evaluator.tree.get? name with
  | none => p
  | some record =>
    if keepsShape record property value then p.writeInPlace record path property value
    else p.upsertEntity (record.set property value)

/-- The dependency map with the paths of an entity as nodes, each path reading those right below
it. -/
def addStructure (map : DependencyMap) (path : EntityPath) : DependencyMap :=
  let map := map.modifyD path.path [] id
  match Path.parent? path.path with
  | some parent => map.modifyD parent [] (appendNew · path.path)
  | none => map

/-- Reads the dependencies of an entity again. -/
def rebuildEntity (p : Progress) (name : String) : Except Rejection Progress :=
  match p.evaluator.tree.get? name with
  | none => .ok p
  | some record => do
    let evaluator := p.evaluator
    let extractor := evaluator.registry.get record.config.kind
    let extracted := extractor.extract record.entity record.config evaluator.known
    let map ← DependencyMap.checked name extracted evaluator.known evaluator.settings.integrity
    let paths := record.entity.paths name
    let evaluator := { evaluator with
      graph := evaluator.graph.update name (paths.foldl addStructure map) }
    return {
      evaluator := evaluator.setReads name (Evaluator.referencedRoots record)
      work := { p.work with
        roots := p.work.roots.extend ((paths.filter (·.isLeaf)).map (·.path)) } }

/-- Rebuilds entities one after another. The first one that is refused ends this, with the entities
before it rebuilt. -/
def rebuildAll (p : Progress) : List String → Progress × Option Rejection
  | [] => (p, none)
  | name :: rest =>
    match p.rebuildEntity name with
    | .error rejection => (p, some rejection)
    | .ok p => p.rebuildAll rest

/-- Performs the structural changes and the writes of a batch. -/
def perform (p : Progress) (b : ChangeBatch) : Progress :=
  b.values.foldl writeValue (b.structural.foldl change p)

/-- Rebuilds the queued entities. -/
def rebuild (p : Progress) : Progress × Option Rejection :=
  let (names, queue) := p.work.rebuild.drain
  { p with work := { p.work with rebuild := queue } }.rebuildAll names

end Progress

end Recalc
