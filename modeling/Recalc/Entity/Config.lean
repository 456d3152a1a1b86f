import Recalc.Collection.SortedSet
import Recalc.Entity.Basic
import Recalc.Json.Record

/-!
# Entity configurations

A configuration says which properties of an entity hold bindings, what internal wiring the entity
declares, and which values are bulk data. It has a JSON form, in which every field may be missing
and unknown fields are ignored.
-/

namespace Recalc

/-- The tag that tells which extractor reads an entity. -/
structure EntityKind where
  /-- The tag. -/
  tag : String
  deriving DecidableEq

namespace EntityKind

/-- A visual element. -/
def widget : EntityKind := ⟨"WIDGET"⟩

/-- A query or another action. -/
def action : EntityKind := ⟨"ACTION"⟩

/-- A script action. -/
def jsAction : EntityKind := ⟨"JSACTION"⟩

/-- The inputs of a module. -/
def moduleInput : EntityKind := ⟨"MODULE_INPUT"⟩

/-- An instance of a module. -/
def moduleInstance : EntityKind := ⟨"MODULE_INSTANCE"⟩

end EntityKind

/-- How the text of a dynamic property is read. -/
inductive BindingSyntax where
  /-- Text with bindings between double braces. -/
  | template
  /-- Code as a whole. -/
  | script
  deriving DecidableEq

namespace BindingSyntax

/-- The word for a binding syntax. -/
def word : BindingSyntax → String
  | template => "template"
  | script => "script"

/-- The binding syntax that a word names. -/
def ofWord? (word : String) : Option BindingSyntax :=
  [template, script].find? (·.word = word)

end BindingSyntax

/-- What a module instance is an instance of. -/
inductive ModuleType where
  /-- A query module. -/
  | query
  /-- A script module. -/
  | js
  /-- A visual module. -/
  | ui
  deriving DecidableEq

namespace ModuleType

/-- The word for a module type. -/
def word : ModuleType → String
  | query => "query"
  | js => "js"
  | ui => "ui"

/-- The module type that a word names. -/
def ofWord? (word : String) : Option ModuleType :=
  [query, js, ui].find? (·.word = word)

end ModuleType

/-- The configuration of an entity. -/
structure EntityConfig where
  /-- The name of the entity. -/
  name : String
  /-- The kind of the entity. -/
  kind : EntityKind
  /-- Properties that hold bindings, as listed by the author. -/
  dynamicPaths : SortedSet String
  /-- Properties that hold bindings, as listed by the kind of entity. -/
  bindingPaths : SortedSet String
  /-- For each property, the properties that it is declared to read. -/
  dependencyMap : SortedMap String (List String)
  /-- Properties that hold bulk data. -/
  bulkPaths : SortedSet String
  /-- How dynamic properties are read. -/
  bindingSyntax : BindingSyntax
  /-- What the entity is an instance of, if it is one of a module. -/
  moduleType : Option ModuleType

namespace EntityConfig

/-- A configuration with nothing set but name and kind. -/
def ofName (name : String) (kind : EntityKind) : EntityConfig :=
  { name, kind
    dynamicPaths := .empty
    bindingPaths := .empty
    dependencyMap := .empty
    bulkPaths := .empty
    bindingSyntax := .template
    moduleType := none }

/-- The configuration of a widget without a name. -/
def default : EntityConfig := ofName "" .widget

instance : Inhabited EntityConfig := ⟨default⟩

/-- Lists `property` among the dynamic ones. -/
def withDynamicPath (c : EntityConfig) (property : String) : EntityConfig :=
  { c with dynamicPaths := c.dynamicPaths.insert property }

/-- Declares that `property` reads `targets`, after what it is declared to read already. -/
def withDeclared (c : EntityConfig) (property : String) (targets : List String) : EntityConfig :=
  { c with dependencyMap := c.dependencyMap.modifyD property [] (· ++ targets) }

/-- Lists `property` among the bulk data. -/
def withBulkPath (c : EntityConfig) (property : String) : EntityConfig :=
  { c with bulkPaths := c.bulkPaths.insert property }

/-- Sets how dynamic properties are read. -/
def withBindingSyntax (c : EntityConfig) (s : BindingSyntax) : EntityConfig :=
  { c with bindingSyntax := s }

/-- Sets what the entity is an instance of. -/
def withModuleType (c : EntityConfig) (t : ModuleType) : EntityConfig :=
  { c with moduleType := some t }

/-- Whether `property` holds bindings. -/
def isDynamicPath (c : EntityConfig) (property : String) : Bool :=
  c.bindingPaths.contains property || c.dynamicPaths.contains property

/-- Whether `property` holds bulk data. -/
def isBulkPath (c : EntityConfig) (property : String) : Bool := c.bulkPaths.contains property

/-! ### The JSON form -/

/-- The text of a configuration: all fields, sets and maps in ascending order. -/
def render (c : EntityConfig) : String :=
  String.ofList <| Json.writeRecord [
    ("name", Json.writeString c.name),
    ("kind", Json.writeString c.kind.tag),
    ("dynamicBindingPathList", (Json.ofStrings c.dynamicPaths.toList).write),
    ("bindingPaths", (Json.ofStrings c.bindingPaths.toList).write),
    ("dependencyMap", (Json.object (c.dependencyMap.map fun _ => Json.ofStrings).entries).write),
    ("opaquePaths", (Json.ofStrings c.bulkPaths.toList).write),
    ("bindingSyntax", Json.writeString c.bindingSyntax.word),
    ("moduleType", match c.moduleType with
      | none => Json.null.write
      | some t => Json.writeString t.word)]

/-- A set of texts in JSON form. -/
def readSet? (value : Json) : Option (SortedSet String) := value.strings?.map .ofList

/-- A declared dependency map in JSON form. -/
def readMap? (value : Json) : Option (SortedMap String (List String)) := do
  let fields ← value.fields?
  let pairs ← fields.mapM fun f => f.2.strings?.map fun targets => (f.1, targets)
  return .ofList pairs

/-- The configuration that a JSON value spells, if each field present has the right type. -/
def ofJson? (value : Json) : Option EntityConfig := do
  let r ← value.record? 8
  let name ← r.field 0 "name" default.name Json.string?
  let kind ← r.field 1 "kind" default.kind fun v => v.string?.map EntityKind.mk
  let dynamicPaths ← r.field 2 "dynamicBindingPathList" default.dynamicPaths readSet?
  let bindingPaths ← r.field 3 "bindingPaths" default.bindingPaths readSet?
  let dependencyMap ← r.field 4 "dependencyMap" default.dependencyMap readMap?
  let bulkPaths ← r.field 5 "opaquePaths" default.bulkPaths readSet?
  let bindingSyntax ← r.field 6 "bindingSyntax" default.bindingSyntax fun v =>
    v.choice?.bind BindingSyntax.ofWord?
  let moduleType ← r.field 7 "moduleType" default.moduleType fun
    | .null => some none
    | v => (v.choice?.bind ModuleType.ofWord?).map some
  return { name, kind, dynamicPaths, bindingPaths, dependencyMap, bulkPaths, bindingSyntax,
           moduleType }

end EntityConfig

/-- An entity with its configuration. -/
structure EntityRecord where
  /-- The configuration. -/
  config : EntityConfig
  /-- The raw properties. -/
  entity : Entity

namespace EntityRecord

instance : Inhabited EntityRecord := ⟨⟨default, default⟩⟩

/-- The name of the entity. -/
def name (r : EntityRecord) : String := r.config.name

/-- All paths of the entity. -/
def paths (r : EntityRecord) : List EntityPath := r.entity.paths r.name

/-- The leaf paths of the entity. -/
def leafPaths (r : EntityRecord) : List String := r.entity.leafPaths r.name

/-- Writes the raw value of a property. -/
def set (r : EntityRecord) (property : String) (value : Json) : EntityRecord :=
  { r with entity := r.entity.set property value }

end EntityRecord

end Recalc
