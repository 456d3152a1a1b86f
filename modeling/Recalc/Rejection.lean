import Recalc.Text.Quoted

/-!
# Rejected calls

What a caller gets back from a call that names something unknown or malformed. A rejection is a
cause; its wording is the function `Rejection.message`.
-/

namespace Recalc

/-- Why a call was rejected. -/
inductive Rejection where
  /-- The path does not exist. -/
  | unknownPath (path : String)
  /-- The entity does not exist. -/
  | unknownEntity (name : String)
  /-- Two records have the same name. -/
  | duplicateEntity (name : String)
  /-- The text is not a path, or not one that can be used here. -/
  | invalidPath (path : String)
  /-- The dependency map of an entity lists a path that is not one of the entity's paths. -/
  | malformedMap (entity path : String)
  /-- As `malformedMap`, where the policy is to stop the program. -/
  | assertion (entity path : String)
  deriving DecidableEq

namespace Rejection

/-- The wording of a rejection. -/
def message : Rejection → String
  | unknownPath path => "unknown path: " ++ path
  | unknownEntity name => "unknown entity: " ++ name
  | duplicateEntity name => "duplicate entity name: " ++ name
  | invalidPath path => "invalid path: " ++ Text.quote path
  | malformedMap entity path =>
    "malformed dependency map for " ++ entity ++ ": " ++ path ++ " is not one of its paths"
  | assertion entity path => "malformed dependency map for " ++ entity ++ ": " ++ path

end Rejection

end Recalc
