import Recalc.Evaluator.Basic

/-!
# Checking batches before they are applied

A list of batches is checked against a tree as if the batches were applied one after another;
nothing is changed meanwhile. The check follows the names of entities and the paths that batches
write.
-/

namespace Recalc

/-- What is known about the tree after the batches checked so far. -/
structure Outlook where
  /-- The names of the entities. -/
  names : SortedSet String
  /-- The entities that a batch stored. -/
  upserted : SortedSet String
  /-- The paths that a batch wrote, in entities that no later change replaced. -/
  written : SortedSet String

namespace Outlook

/-- Before any batch. -/
def ofTree (tree : Tree) : Outlook := ⟨.ofList tree.names, .empty, .empty⟩

/-- Forgets the paths written in an entity. -/
def forget (o : Outlook) (name : String) : Outlook :=
  { o with written := .ofList (o.written.toList.filter fun path => Path.entityOf path ≠ name) }

/-- After a structural change. -/
def change (o : Outlook) : StructuralChange → Except Rejection Outlook
  | .upsert record => do
    Tree.checkName record.name
    let o := { o with
      names := o.names.insert record.name
      upserted := o.upserted.insert record.name }
    return o.forget record.name
  | .remove name =>
    if o.names.contains name then
      .ok ({ o with names := o.names.erase name, upserted := o.upserted.erase name }.forget name)
    else .error (.unknownEntity name)

/-- After a write to a path. -/
def write (o : Outlook) (path : String) : Except Rejection Outlook :=
  match PropertyPath.parse? path with
  | none => .error (.invalidPath path)
  | some parsed =>
    if parsed.isEntity then .error (.invalidPath path)
    else if o.names.contains parsed.entity then
      .ok { o with written := o.written.insert path }
    else .error (.unknownEntity parsed.entity)

/-- Rejects a mark of a path that does not exist. -/
def mark (known : KnownPaths) (o : Outlook) (path : String) : Except Rejection Unit :=
  let entity := Path.entityOf path
  if o.names.contains entity
      && (o.upserted.contains entity || known.contains path || o.written.contains path) then .ok ()
  else .error (.unknownPath path)

/-- After a batch. -/
def batch (known : KnownPaths) (o : Outlook) (b : ChangeBatch) : Except Rejection Outlook := do
  let o ← b.structural.foldlM change o
  let o ← (b.values.map (·.1)).foldlM write o
  b.changed.keys.forM (mark known o)
  return o

end Outlook

/-- Checks batches as if they were applied one after another. -/
def Evaluator.validateAll (e : Evaluator) (batches : List ChangeBatch) : Except Rejection Unit := do
  let _ ← batches.foldlM (Outlook.batch e.known) (Outlook.ofTree e.tree)
  return ()

end Recalc
