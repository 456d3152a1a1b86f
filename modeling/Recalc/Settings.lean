import Recalc.Expr.Budget
import Recalc.Json.Reader
import Recalc.Json.Record

/-!
# Settings of the evaluator

The settings have a JSON form in which every field may be missing. Unlike the configurations of
entities, settings with an unknown field or one field twice are refused.
-/

namespace Recalc

/-- What to do about a malformed dependency map. -/
inductive IntegrityPolicy where
  /-- Stop the program. -/
  | halt
  /-- Refuse the change. -/
  | fatal
  /-- Go on without the dependencies of the entity. -/
  | degrade
  deriving DecidableEq

namespace IntegrityPolicy

/-- The word for a policy. -/
def word : IntegrityPolicy → String
  | halt => "debug_assert"
  | fatal => "fatal"
  | degrade => "degrade"

/-- The policy that a word names. -/
def ofWord? (word : String) : Option IntegrityPolicy :=
  [halt, fatal, degrade].find? (·.word = word)

end IntegrityPolicy

/-- The settings of an evaluator; times are in milliseconds. -/
structure Settings where
  /-- The steps that one evaluation may take. -/
  stepBudget : Nat
  /-- The time that one evaluation may take; zero is no limit. -/
  timeBudget : Nat
  /-- How long changes are collected before a pass. -/
  debounce : Nat
  /-- What to do about a malformed dependency map. -/
  integrity : IntegrityPolicy
  /-- Whether a path that fails keeps its last value. -/
  staleOnError : Bool
  deriving DecidableEq

namespace Settings

/-- The settings that hold where nothing else is set. -/
def default : Settings := ⟨10000, 50, 0, .halt, true⟩

instance : Inhabited Settings := ⟨default⟩

/-- The limit in time of one evaluation, if there is one. -/
def timeLimit? (s : Settings) : Option Nat := if s.timeBudget = 0 then none else some s.timeBudget

/-- The allowance of one evaluation. The clock stands still during an evaluation, so a limit in time
stays ahead. -/
def budget (s : Settings) : Budget :=
  .ofSteps s.stepBudget (if s.timeLimit?.isSome then .ahead else .none)

/-- The names of the fields, in order. -/
def fieldNames : List String :=
  ["step_budget", "time_budget_ms", "debounce_ms", "integrity", "stale_on_error"]

/-- The settings that a record spells. -/
def ofRecord? (r : Json.Record) : Option Settings := do
  let stepBudget ← r.field 0 "step_budget" default.stepBudget Json.word?
  let timeBudget ← r.field 1 "time_budget_ms" default.timeBudget Json.word?
  let debounce ← r.field 2 "debounce_ms" default.debounce Json.word?
  let integrity ← r.field 3 "integrity" default.integrity fun v =>
    v.choice?.bind IntegrityPolicy.ofWord?
  let staleOnError ← r.field 4 "stale_on_error" default.staleOnError Json.bool?
  return ⟨stepBudget, timeBudget, debounce, integrity, staleOnError⟩

/-- Whether all names are known and none occurs twice. -/
def properNames (names : List String) : Bool :=
  names.all fieldNames.contains && decide names.Nodup

/-- The settings that a JSON text spells: an object with known fields, each at most once, or a list
of values in the order of the fields. -/
def ofText? (text : String) : Option Settings :=
  match Json.readVerbatim? text with
  | some (.object fields) =>
    if properNames (fields.map (·.1)) then ofRecord? fun _ name => Entries.get? name fields
    else none
  | some (.array items) => ((Json.array items).record? fieldNames.length).bind ofRecord?
  | _ => none

end Settings

end Recalc
