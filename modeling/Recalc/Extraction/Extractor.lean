import Recalc.Reference

/-!
# Extractors

An extractor reads one entity and reports which paths each of its paths reads. The bundled ones
report known paths only: `binding` those that the code of a dynamic property refers to, `declared`
the declared ones before them, and `moduleInstance` the same for instances of query modules alone.
-/

namespace Recalc

/-- For each path, the paths it reads. -/
abbrev DependencyMap := SortedMap String (List String)

/-- A way to find the paths that an entity reads. -/
structure Extractor where
  /-- The paths that one path reads. -/
  forPath : Entity → EntityConfig → String → KnownPaths → List String
  /-- The paths that every path reads, where it reads any. -/
  extract : Entity → EntityConfig → KnownPaths → DependencyMap

namespace Extractor

/-- The properties that may read something: those with a declaration, then the dynamic ones. -/
def candidates (config : EntityConfig) : List String :=
  config.dependencyMap.keys ++ config.dynamicPaths.toList ++ config.bindingPaths.toList

/-- The extractor that asks `forPath` about every property that may read something. -/
def ofForPath (forPath : Entity → EntityConfig → String → KnownPaths → List String) :
    Extractor where
  forPath := forPath
  extract entity config known :=
    (candidates config).foldl (fun map property =>
      let path := Path.join config.name property
      if map.contains path then map
      else
        match forPath entity config path known with
        | [] => map
        | targets => map.insert path targets) .empty

/-- The extractor that reports the same map for every entity. -/
def fixed (map : DependencyMap) : Extractor where
  forPath _ _ path _ := map.getD path []
  extract _ _ _ := map

/-- The property that a known path of the entity names. -/
def ownedProperty? (config : EntityConfig) (path : String) (known : KnownPaths) : Option String :=
  (Path.propertyOf path config.name).filter fun property => property ≠ "" && known.contains path

/-- Appends what the code of a property refers to. -/
def addReferences (entity : Entity) (config : EntityConfig) (property : String)
    (known : KnownPaths) (paths : List String) : List String :=
  if config.isDynamicPath property then
    match entity.property? property with
    | some value => Reference.collect value config.bindingSyntax known paths
    | none => paths
  else paths

/-- The path that a declared target names: one inside the entity before any other. -/
def resolveTarget? (entity target : String) (known : KnownPaths) : Option String :=
  let inside := Path.join entity target
  if known.contains inside then some inside
  else if known.contains target then some target
  else none

/-- The paths that the declarations of a property name. -/
def declaredTargets (config : EntityConfig) (property : String) (known : KnownPaths) :
    List String :=
  (config.dependencyMap.getD property []).foldl (fun paths target =>
    match resolveTarget? config.name target known with
    | some path => appendNew paths path
    | none => paths) []

/-- What the code of a path refers to. -/
def bindingTargets (entity : Entity) (config : EntityConfig) (path : String) (known : KnownPaths) :
    List String :=
  match ownedProperty? config path known with
  | some property => addReferences entity config property known []
  | none => []

/-- What a path is declared to read, and what its code refers to. -/
def allTargets (entity : Entity) (config : EntityConfig) (path : String) (known : KnownPaths) :
    List String :=
  match ownedProperty? config path known with
  | some property =>
    addReferences entity config property known (declaredTargets config property known)
  | none => []

/-- As `allTargets` for an instance of a query module; other instances read nothing. -/
def moduleTargets (entity : Entity) (config : EntityConfig) (path : String) (known : KnownPaths) :
    List String :=
  match config.moduleType with
  | some .query => allTargets entity config path known
  | _ => []

/-- The extractor that goes by code alone. -/
def binding : Extractor := ofForPath bindingTargets

/-- The extractor that goes by declarations and code. -/
def declared : Extractor := ofForPath allTargets

/-- The extractor for module instances. -/
def moduleInstance : Extractor := ofForPath moduleTargets

/-- The extractors above, which every entity can be read with. -/
def bundled : List Extractor := [binding, declared, moduleInstance]

end Extractor

end Recalc
