import Recalc.Json.Fields
import Recalc.Path

/-!
# Entities

An entity is the raw record that an author edits: a JSON object. The objects inside it are walked
into property paths, so `T.meta.page` is the field `page` of the object under `meta` in entity `T`.
A path is a leaf unless its value is an object with fields.
-/

namespace Recalc

/-- The raw properties of an entity. -/
structure Entity where
  /-- The top-level properties, by ascending key. -/
  fields : List (String × Json)

/-- A path of an entity, and whether it is a leaf. -/
structure EntityPath where
  /-- The full path. -/
  path : String
  /-- Whether the value there is something else than an object with fields. -/
  isLeaf : Bool
  deriving DecidableEq

namespace Json

/-- Whether the value is an object with fields, which holds no value of its own. -/
def isComposite : Json → Bool
  | .object (_ :: _) => true
  | _ => false

mutual

/-- The paths of a value that stands at `path`, each before those below it. -/
def pathsAt (path : String) : Json → List EntityPath
  | .object fields => ⟨path, fields.isEmpty⟩ :: fieldPaths path fields
  | _ => [⟨path, true⟩]

/-- The paths of fields that stand below `above`. -/
def fieldPaths (above : String) : List (String × Json) → List EntityPath
  | [] => []
  | (key, value) :: rest => pathsAt (Path.join above key) value ++ fieldPaths above rest

end

end Json

namespace Entity

instance : Inhabited Entity := ⟨⟨[]⟩⟩

/-- The entity without properties. -/
def empty : Entity := ⟨[]⟩

/-- The entity of a JSON object; any other value gives the entity without properties. -/
def ofJson (value : Json) : Entity := ⟨value.fields?.getD []⟩

/-- The entity as a JSON object. -/
def toJson (e : Entity) : Json := .object e.fields

/-- The raw value of a property. -/
def property? (e : Entity) (property : String) : Option Json :=
  Json.Fields.at? e.fields (Path.segments property)

/-- Writes the raw value of a property. -/
def set (e : Entity) (property : String) (value : Json) : Entity :=
  ⟨Json.Fields.setAt value e.fields (Path.segments property)⟩

/-- Writes the raw value of a property and tells the one that it replaces. The text is cut at its
last separator: the part before it leads to an object, the part behind it names a field there. -/
def exchange (e : Entity) (property : String) (value : Json) : Option Json × Entity :=
  let parents := ((Path.parent? property).map Path.segments).getD []
  let (old, fields) := Json.Fields.exchange (Path.lastSegment property) value e.fields parents
  (old, ⟨fields⟩)

/-- All paths of the entity called `name`: its own, and those of its properties, each before those
below it. -/
def paths (e : Entity) (name : String) : List EntityPath :=
  ⟨name, false⟩ :: Json.fieldPaths name e.fields

/-- The leaf paths of the entity called `name`. -/
def leafPaths (e : Entity) (name : String) : List String :=
  ((e.paths name).filter (·.isLeaf)).map (·.path)

end Entity

end Recalc
