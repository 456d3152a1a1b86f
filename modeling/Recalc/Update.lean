import Recalc.Expr.Error
import Recalc.Json.Record
import Recalc.Patch

/-!
# What a pass reports

The failures of paths, the measures of a pass, and the update that a consumer receives. An update
has a text form for consumers behind a process boundary; since nothing here measures time, its
duration is zero.
-/

namespace Recalc

/-- Why a path has no fresh value. -/
inductive PathError where
  /-- Its expression failed. -/
  | expression (error : ExprError)
  /-- It is on a cycle. -/
  | cycle (path : String)

namespace PathError

/-- The word for the kind of a failure. -/
def kind : PathError → String
  | expression (.malformed _) => "syntax"
  | expression (.runtime _) => "runtime"
  | expression .outOfBudget => "budget_exceeded"
  | cycle _ => "cycle"

/-- The wording of a failure. -/
def message : PathError → String
  | expression error => error.message
  | cycle path => "cyclic dependency found while evaluating " ++ path

/-- The text form of a failure. -/
def write (e : PathError) : List Char :=
  Json.writeRecord [("kind", Json.writeString e.kind), ("message", Json.writeString e.message)]

end PathError

/-- The failures of a pass, by path. -/
abbrev PathErrors := SortedMap String (List PathError)

/-- Adds a failure of a path. -/
def PathErrors.add (errors : PathErrors) (path : String) (error : PathError) : PathErrors :=
  SortedMap.modifyD errors path [] (· ++ [error])

/-- The measures of a pass. -/
structure Diagnostics where
  /-- The number of paths the pass ran over. -/
  affected : Nat
  /-- The number of paths in the graph. -/
  total : Nat
  /-- The number of paths on cycles. -/
  cyclic : Nat
  deriving DecidableEq

namespace Diagnostics

/-- The share of paths that a pass ran over. -/
def affectedRatio (d : Diagnostics) : Float :=
  if d.total = 0 then 0.0 else Float.ofNat d.affected / Float.ofNat d.total

/-- The text form of the measures. -/
def write (d : Diagnostics) : List Char :=
  Json.writeRecord [
    ("durationUs", (Json.ofNat 0).write),
    ("affectedPaths", (Json.ofNat d.affected).write),
    ("totalPaths", (Json.ofNat d.total).write),
    ("cyclicPaths", (Json.ofNat d.cyclic).write)]

end Diagnostics

/-- The text form of a patch. -/
def Patch.write : Patch → List Char
  | .set path value => Json.writeRecord [
      ("path", Json.writeString path),
      ("op", Json.writeString "set"),
      ("value", value.toJson.write)]
  | .delete path => Json.writeRecord [
      ("path", Json.writeString path),
      ("op", Json.writeString "delete")]

/-- What a consumer receives after a pass. -/
structure Update where
  /-- The changes of values, in order. -/
  patches : List Patch
  /-- The failures of the pass. -/
  errors : PathErrors
  /-- The leaf paths that ran, in the order they ran. -/
  evaluationOrder : List String
  /-- The paths on cycles that the pass met. -/
  cyclicPaths : List String
  /-- The leaf paths that ceased to exist. -/
  removedPaths : List String
  /-- The paths that ran and have no value. -/
  undefinedPaths : List String
  /-- Whether this is the first update over a fresh tree. -/
  isFirstTree : Bool
  /-- The measures of the pass. -/
  diagnostics : Diagnostics

namespace Update

/-- The update in which nothing happened. -/
def empty : Update := ⟨[], .empty, [], [], [], [], false, ⟨0, 0, 0⟩⟩

instance : Inhabited Update := ⟨empty⟩

/-- Whether a consumer has nothing to do. -/
def isEmpty (u : Update) : Bool :=
  u.patches.isEmpty && u.errors.isEmpty && u.removedPaths.isEmpty

/-- The text form of an update. -/
def render (u : Update) : String :=
  String.ofList <| Json.writeRecord [
    ("patches", Json.writeList (u.patches.map Patch.write)),
    ("errors", Json.writeRecord (u.errors.entries.map fun e =>
      (e.1, Json.writeList (e.2.map PathError.write)))),
    ("evaluationOrder", (Json.ofStrings u.evaluationOrder).write),
    ("cyclicPaths", (Json.ofStrings u.cyclicPaths).write),
    ("removedPaths", (Json.ofStrings u.removedPaths).write),
    ("undefinedPaths", (Json.ofStrings u.undefinedPaths).write),
    ("isFirstTree", (Json.bool u.isFirstTree).write),
    ("diagnostics", u.diagnostics.write)]

end Update

end Recalc
