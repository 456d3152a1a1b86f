import Recalc.Extraction.Extractor
import Recalc.Rejection
import Recalc.Settings

/-!
# Checking dependency maps

A dependency map of an entity may list known paths of that entity only. What happens to a map that
lists another path is a matter of policy.
-/

namespace Recalc.DependencyMap

/-- Whether `path` may be listed in the map of an entity. -/
def isOwn (entity : String) (known : KnownPaths) (path : String) : Bool :=
  (Path.propertyOf path entity).isSome && known.contains path

/-- The first listed path that may not be listed. -/
def stranger? (entity : String) (map : DependencyMap) (known : KnownPaths) : Option String :=
  map.keys.find? fun path => !isOwn entity known path

/-- The map to go on with: the map itself if it is in order, and what the policy says otherwise. -/
def checked (entity : String) (map : DependencyMap) (known : KnownPaths)
    (policy : IntegrityPolicy) : Except Rejection DependencyMap :=
  match stranger? entity map known with
  | none => .ok map
  | some path =>
    match policy with
    | .fatal => .error (.malformedMap entity path)
    | .halt => .error (.assertion entity path)
    | .degrade => .ok .empty

end Recalc.DependencyMap
