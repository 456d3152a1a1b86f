import Recalc.KnownPaths
import Recalc.Rejection

/-!
# The entity tree

All entity records in the order of their registration. A record that replaces another keeps its
place; one that comes back after a removal goes to the end.
-/

namespace Recalc

/-- Entity records by name, with the order of their registration. -/
structure Tree where
  /-- The names, by registration. -/
  names : List String
  /-- The records, by name. -/
  records : SortedMap String EntityRecord

namespace Tree

/-- The tree without entities. -/
def empty : Tree := ⟨[], .empty⟩

instance : Inhabited Tree := ⟨empty⟩

/-- The number of entities. -/
def size (t : Tree) : Nat := t.names.length

/-- Whether there is no entity. -/
def isEmpty (t : Tree) : Bool := t.names.isEmpty

/-- Whether there is an entity called `name`. -/
def contains (t : Tree) (name : String) : Bool := t.records.contains name

/-- The record of the entity called `name`. -/
def get? (t : Tree) (name : String) : Option EntityRecord := t.records.get? name

/-- Stores a record, in place of the one with its name. -/
def upsert (t : Tree) (record : EntityRecord) : Tree :=
  { names := if t.contains record.name then t.names else t.names ++ [record.name]
    records := t.records.insert record.name record }

/-- Drops the record of the entity called `name`. -/
def remove (t : Tree) (name : String) : Tree :=
  if t.contains name then ⟨t.names.filter (· ≠ name), t.records.erase name⟩ else t

/-- The records, by registration. -/
def toList (t : Tree) : List EntityRecord := t.names.filterMap t.get?

/-- The paths of all entities. -/
def knownPaths (t : Tree) : KnownPaths :=
  t.toList.foldl (fun known r => known.insertEntity r.name r.entity) .empty

/-- The raw value at the path of a property. -/
def raw? (t : Tree) (path : String) : Option Json :=
  let (entity, property) := Path.split path
  if property = "" then none else (t.get? entity).bind (·.entity.property? property)

/-- Rejects names that cannot be the first segment of a path. -/
def checkName (name : String) : Except Rejection Unit :=
  if Path.isEntityName name then .ok () else .error (.invalidPath name)

/-- Stores a record under a new and proper name. -/
def add (t : Tree) (record : EntityRecord) : Except Rejection Tree := do
  checkName record.name
  if t.contains record.name then throw (.duplicateEntity record.name)
  return t.upsert record

/-- The tree of the given records, whose names must be proper and different. -/
def ofList? (records : List EntityRecord) : Except Rejection Tree := records.foldlM add empty

end Tree

end Recalc
