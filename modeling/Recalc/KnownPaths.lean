import Recalc.Entity.Config

/-!
# Known paths

The set of all paths that exist, composite and leaf. References resolve to known paths only: a chain
of names resolves to its longest known initial part.
-/

namespace Recalc

/-- The paths that exist. -/
structure KnownPaths where
  /-- The paths. -/
  paths : SortedSet String

namespace KnownPaths

/-- No path exists. -/
def empty : KnownPaths := ⟨.empty⟩

instance : Inhabited KnownPaths := ⟨empty⟩

/-- The listed paths exist. -/
def ofList (paths : List String) : KnownPaths := ⟨.ofList paths⟩

/-- The number of known paths. -/
def size (k : KnownPaths) : Nat := k.paths.size

/-- Whether no path is known. -/
def isEmpty (k : KnownPaths) : Bool := k.paths.isEmpty

/-- Whether `path` is known. -/
def contains (k : KnownPaths) (path : String) : Bool := k.paths.contains path

/-- Adds every path of the entity called `name`. -/
def insertEntity (k : KnownPaths) (name : String) (e : Entity) : KnownPaths :=
  ⟨(e.paths name).foldl (fun paths p => paths.insert p.path) k.paths⟩

/-- Removes every path of the entity called `name`. -/
def removeEntity (k : KnownPaths) (name : String) (e : Entity) : KnownPaths :=
  ⟨(e.paths name).foldl (fun paths p => paths.erase p.path) k.paths⟩

/-- The longest known initial part of a chain. -/
def resolve? (k : KnownPaths) (chain : String) : Option String :=
  (Path.prefixes chain).find? k.contains

end KnownPaths

end Recalc
