import Recalc.Collection.PendingSet
import Recalc.Entity.Config

/-!
# Change batches

A batch says everything that happened between two passes: entities that came or went, raw values
that were written, and paths to be evaluated again or sent again. `merge` puts a later batch behind
an earlier one, dropping what the later one makes void.
-/

namespace Recalc

/-- A change of the set of entities. -/
inductive StructuralChange where
  /-- The record is stored, in place of one with its name. -/
  | upsert (record : EntityRecord)
  /-- The entity is removed. -/
  | remove (name : String)

/-- The name of the entity that changes. -/
def StructuralChange.entity : StructuralChange → String
  | upsert record => record.name
  | remove name => name

/-- The changes between two passes. -/
structure ChangeBatch where
  /-- Entities that came or went, in order. -/
  structural : List StructuralChange
  /-- Raw values that were written, in order, each path once. -/
  values : List (String × Json)
  /-- Paths whose value may have changed. -/
  changed : PendingSet String
  /-- Paths whose value is sent even if it did not change. -/
  forced : PendingSet String
  /-- Whether everything is to be evaluated. -/
  full : Bool

namespace ChangeBatch

/-- The batch without changes. -/
def empty : ChangeBatch := ⟨[], [], .empty, .empty, false⟩

instance : Inhabited ChangeBatch := ⟨empty⟩

/-- Stores an entity. -/
def upsertEntity (b : ChangeBatch) (record : EntityRecord) : ChangeBatch :=
  { b with structural := b.structural ++ [.upsert record] }

/-- Removes an entity. -/
def removeEntity (b : ChangeBatch) (name : String) : ChangeBatch :=
  { b with structural := b.structural ++ [.remove name] }

/-- The writes with one more, which takes the place of an earlier one to its path. -/
def addWrite (values : List (String × Json)) (write : String × Json) : List (String × Json) :=
  values.filter (fun w => w.1 ≠ write.1) ++ [write]

/-- Writes a raw value. -/
def setValue (b : ChangeBatch) (path : String) (value : Json) : ChangeBatch :=
  { b with values := addWrite b.values (path, value) }

/-- Marks a path as changed. -/
def markChanged (b : ChangeBatch) (path : String) : ChangeBatch :=
  { b with changed := b.changed.insert path }

/-- Asks for the value of a path to be sent. -/
def forceUpdate (b : ChangeBatch) (path : String) : ChangeBatch :=
  { b with forced := b.forced.insert path }

/-- Asks for everything to be evaluated. -/
def evaluateAll (b : ChangeBatch) : ChangeBatch := { b with full := true }

/-- What is left of an earlier batch before a later structural change: writes to the entity are
void, and after a removal marks of its paths are void too. -/
def supersede (b : ChangeBatch) (change : StructuralChange) : ChangeBatch :=
  let other (path : String) : Bool := Path.entityOf path ≠ change.entity
  let b := { b with values := b.values.filter fun w => other w.1 }
  match change with
  | .upsert _ => b
  | .remove _ => { b with changed := b.changed.retain other, forced := b.forced.retain other }

/-- The changes of `b` followed by those of `later`. -/
def merge (b later : ChangeBatch) : ChangeBatch :=
  let b := later.structural.foldl supersede b
  { structural := b.structural ++ later.structural
    values := later.values.foldl addWrite b.values
    changed := b.changed.extend later.changed.keys
    forced := b.forced.extend later.forced.keys
    full := b.full || later.full }

/-- Whether the batch asks for nothing. -/
def isEmpty (b : ChangeBatch) : Bool :=
  b.structural.isEmpty && b.values.isEmpty && b.changed.isEmpty && b.forced.isEmpty && !b.full

/-- Whether entities come or go. -/
def hasStructural (b : ChangeBatch) : Bool := !b.structural.isEmpty

end ChangeBatch

end Recalc
