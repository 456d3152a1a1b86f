import Recalc.Json.Printer

/-!
# Records in JSON form

A record has named fields in a fixed order. It is written as an object with its fields in that
order. It is read from an object, by name, or from a list, by position; a field that is missing has
its default, and a list longer than the record is not read.
-/

namespace Recalc.Json

/-- The text of a record, from its field names and the texts of their values. -/
def writeRecord (fields : List (String × List Char)) : List Char :=
  let written := fields.map fun f => writeString f.1 ++ ':' :: f.2
  '\x7b' :: ((written.intersperse [',']).flatten ++ ['\x7d'])

/-- The text of a list, from the texts of its items. -/
def writeList (items : List (List Char)) : List Char :=
  '[' :: ((items.intersperse [',']).flatten ++ [']'])

/-- A view of a value as a record: the field with the given place and name. -/
abbrev Record := Nat → String → Option Json

/-- A value seen as a record of `width` fields. -/
def record? (width : Nat) : Json → Option Record
  | .object fields => some fun _ name => Entries.get? name fields
  | .array items => if items.length ≤ width then some fun place _ => items[place]? else none
  | _ => none

/-- The field of a record with the given place and name, read by `decode`. -/
def Record.field {α : Type} (r : Record) (place : Nat) (name : String) (missing : α)
    (decode : Json → Option α) : Option α :=
  match r place name with
  | none => some missing
  | some value => decode value

/-- The texts of a list of texts. -/
def strings? : Json → Option (List String)
  | .array items => items.mapM string?
  | _ => none

/-- The name of a choice: a text, or an object whose one field has that name and holds `null`. -/
def choice? : Json → Option String
  | .string name => some name
  | .object [(name, .null)] => some name
  | _ => none

/-- A whole number of 64 bits. -/
def word? : Json → Option Nat
  | .number (.int value) => if 0 ≤ value then some value.toNat else none
  | _ => none

/-- A truth value. -/
def bool? : Json → Option Bool
  | .bool value => some value
  | _ => none

end Recalc.Json
