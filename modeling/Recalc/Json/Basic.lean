import Recalc.Collection.Entries
import Recalc.Json.Number

/-!
# JSON values

Objects hold their fields in ascending key order, each key once, so that two objects with the same
fields are the same value. The predicate `Json.Ordered` states this for a value and everything in
it; the reader produces only such values.

Equality of JSON values is `==`: it goes through the structure and compares numbers by
`Json.Number.beq`, under which the two float zeros are equal.
-/

namespace Recalc

/-- A JSON value. -/
inductive Json where
  /-- The value `null`. -/
  | null
  /-- A truth value. -/
  | bool (value : Bool)
  /-- A number. -/
  | number (value : Json.Number)
  /-- A text. -/
  | string (value : String)
  /-- A list of values. -/
  | array (items : List Json)
  /-- Named values, by ascending key. -/
  | object (fields : List (String × Json))

namespace Json

instance : Inhabited Json := ⟨.null⟩

mutual

/-- Structural equality, with numbers compared by value. -/
def beq : Json → Json → Bool
  | .null, .null => true
  | .bool a, .bool b => a == b
  | .number a, .number b => a == b
  | .string a, .string b => a == b
  | .array a, .array b => beqItems a b
  | .object a, .object b => beqFields a b
  | _, _ => false

/-- Equality of lists of values. -/
def beqItems : List Json → List Json → Bool
  | [], [] => true
  | a :: as, b :: bs => beq a b && beqItems as bs
  | _, _ => false

/-- Equality of fields: the same keys with equal values. -/
def beqFields : List (String × Json) → List (String × Json) → Bool
  | [], [] => true
  | (k, a) :: as, (l, b) :: bs => k == l && beq a b && beqFields as bs
  | _, _ => false

end

instance : BEq Json := ⟨beq⟩

mutual

/-- Every object in the value has ascending keys. -/
def Ordered : Json → Prop
  | .array items => OrderedItems items
  | .object fields => Entries.Ascending fields ∧ OrderedFields fields
  | _ => True

/-- `Ordered` for each item. -/
def OrderedItems : List Json → Prop
  | [] => True
  | item :: rest => Ordered item ∧ OrderedItems rest

/-- `Ordered` for each field's value. -/
def OrderedFields : List (String × Json) → Prop
  | [] => True
  | (_, value) :: rest => Ordered value ∧ OrderedFields rest

end

/-- The fields of an object. -/
def fields? : Json → Option (List (String × Json))
  | .object fields => some fields
  | _ => none

/-- The text of a string. -/
def string? : Json → Option String
  | .string value => some value
  | _ => none

/-- A whole number as a value. -/
def ofNat (n : Nat) : Json := .number (.int n)

/-- An object with the given fields; of two fields with one name the later stays. -/
def ofFields (fields : List (String × Json)) : Json := .object (Entries.ofList fields)

/-- A list of texts as a value. -/
def ofStrings (texts : List String) : Json := .array (texts.map .string)

end Json

end Recalc
