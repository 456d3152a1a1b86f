import Recalc.Json.Printer

/-!
# Evaluated values

A value is nothing (`undefined`), a JSON payload, or bulk data: a payload that is shared rather than
copied. Bulk data is told apart by the identity of its allocation, so that comparing two large
payloads costs nothing; all other data is compared by content.
-/

namespace Recalc

/-- An evaluated value. -/
inductive Value where
  /-- No value. -/
  | undefined
  /-- A JSON payload, compared by content. -/
  | data (payload : Json)
  /-- A shared payload, compared by the identity of its allocation. -/
  | bulk (identity : Nat) (payload : Json)

namespace Value

instance : Inhabited Value := ⟨.undefined⟩

/-- Equality of values: by content for data, by identity for bulk data. -/
def beq : Value → Value → Bool
  | .undefined, .undefined => true
  | .data a, .data b => a == b
  | .bulk i _, .bulk j _ => i == j
  | _, _ => false

instance : BEq Value := ⟨beq⟩

/-- The JSON payload, if there is one. -/
def payload? : Value → Option Json
  | .undefined => none
  | .data payload => some payload
  | .bulk _ payload => some payload

/-- The payload, or `null` for no value. -/
def toJson (v : Value) : Json := v.payload?.getD .null

/-- Whether there is no value. -/
def isUndefined : Value → Bool
  | .undefined => true
  | _ => false

theorem isUndefined_iff {v : Value} : v.isUndefined = true ↔ v.payload? = none := by
  cases v <;> simp [isUndefined, payload?]

/-- Whether there is no value or it is `null`. -/
def isNullish (v : Value) : Bool :=
  match v.payload? with
  | none | some .null => true
  | _ => false

/-- Whether the value counts as true: neither nullish, `false`, zero nor the empty text. -/
def isTruthy (v : Value) : Bool :=
  match v.payload? with
  | none | some .null => false
  | some (.bool b) => b
  | some (.number n) => n.toFloat != 0.0
  | some (.string s) => s ≠ ""
  | some (.array _) | some (.object _) => true

/-- The value as a text: texts as they are, all else in its JSON form. -/
def display (v : Value) : String :=
  match v.payload? with
  | none => "undefined"
  | some (.string s) => s
  | some payload => payload.render

/-- The value as a part of a longer text, where nullish values leave nothing. -/
def templateText (v : Value) : String := if v.isNullish then "" else v.display

end Value

namespace Json

/-- The position that a segment spells: digits after an optional plus sign, below 2⁶⁴. -/
def position? (segment : String) : Option Nat :=
  let digits :=
    match segment.toList with
    | '+' :: rest => rest
    | rest => rest
  if digits.isEmpty || !digits.all Char.isDigit then none
  else
    let n := Recalc.Number.digitsValue digits
    if n < Nat.pow 2 64 then some n else none

/-- The field or item that one segment leads to. -/
def child? (value : Json) (segment : String) : Option Json :=
  match value with
  | .object fields => Entries.get? segment fields
  | .array items => (position? segment).bind fun i => items[i]?
  | _ => none

/-- The value that the segments lead to, one after another. -/
def descend? (value : Json) : List String → Option Json
  | [] => some value
  | segment :: rest =>
    match value.child? segment with
    | some next => next.descend? rest
    | none => none

end Json

namespace Value

/-- The part of the value that the segments lead to, and `undefined` if they lead nowhere. -/
def navigate (v : Value) (segments : List String) : Value :=
  match v.payload?.bind (·.descend? segments) with
  | some payload => .data payload
  | none => .undefined

end Value

end Recalc
