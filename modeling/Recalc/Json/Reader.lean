import Recalc.Json.Basic

/-!
# Reading JSON

The reader accepts the JSON grammar with white space between tokens, containers nested at most
`maxNesting` deep, and no number beyond the range of floats. What becomes of the fields of an object
is a parameter: `read?` puts them in order and gives a field that occurs twice its later value, and
`readVerbatim?` keeps them as they stand in the text.

Each level of nesting is one layer: `value room` reads a value with at most `room` containers in one
another, by means of `value (room - 1)`. The lists inside a layer are bounded by the length of the
text.
-/

namespace Recalc.Json

/-- The number of containers that may be open at once. -/
def maxNesting : Nat := 127

namespace Reader

/-- What was read, and the text after it. -/
abbrev Result (α : Type) := Option (α × List Char)

/-- Drops white space. -/
def skipBlank (cs : List Char) : List Char :=
  cs.dropWhile fun c => c = ' ' || c = '\t' || c = '\n' || c = '\r'

/-- The value of a hexadecimal digit. -/
def hexValue? (c : Char) : Option Nat :=
  if c.isDigit then some (c.toNat - '0'.toNat)
  else if 'a' ≤ c && c ≤ 'f' then some (c.toNat - 'a'.toNat + 10)
  else if 'A' ≤ c && c ≤ 'F' then some (c.toNat - 'A'.toNat + 10)
  else none

/-- The value of four hexadecimal digits. -/
def hex4? (a b c d : Char) : Option Nat := do
  let a ← hexValue? a
  let b ← hexValue? b
  let c ← hexValue? c
  let d ← hexValue? d
  return ((a * 16 + b) * 16 + c) * 16 + d

/-- The character of a code point outside the surrogates. -/
def scalar? (n : Nat) : Option Char :=
  if 0xD800 ≤ n && n ≤ 0xDFFF then none else some (Char.ofNat n)

/-- The character of a pair of surrogates. -/
def surrogates? (high low : Nat) : Option Char :=
  if 0xD800 ≤ high && high ≤ 0xDBFF && 0xDC00 ≤ low && low ≤ 0xDFFF then
    some (Char.ofNat (0x10000 + (high - 0xD800) * 0x400 + (low - 0xDC00)))
  else none

/-- The characters of a text up to its closing quote. -/
def chars : List Char → Result (List Char)
  | [] => none
  | '"' :: rest => some ([], rest)
  | '\\' :: 'u' :: a :: b :: c :: d :: '\\' :: 'u' :: e :: f :: g :: h :: rest =>
    match hex4? a b c d with
    | none => none
    | some high =>
      match scalar? high with
      | some ch => (chars ('\\' :: 'u' :: e :: f :: g :: h :: rest)).map fun r => (ch :: r.1, r.2)
      | none =>
        match (hex4? e f g h).bind (surrogates? high) with
        | some ch => (chars rest).map fun r => (ch :: r.1, r.2)
        | none => none
  | '\\' :: 'u' :: a :: b :: c :: d :: rest =>
    match (hex4? a b c d).bind scalar? with
    | some ch => (chars rest).map fun r => (ch :: r.1, r.2)
    | none => none
  | '\\' :: c :: rest =>
    let plain : Option Char :=
      if c = '"' || c = '\\' || c = '/' then some c
      else if c = 'b' then some '\x08'
      else if c = 'f' then some '\x0c'
      else if c = 'n' then some '\n'
      else if c = 'r' then some '\r'
      else if c = 't' then some '\t'
      else none
    match plain with
    | some ch => (chars rest).map fun r => (ch :: r.1, r.2)
    | none => none
  | c :: rest =>
    if c.toNat < 0x20 || c = '\\' then none else (chars rest).map fun r => (c :: r.1, r.2)

/-- A text, from its opening quote on. -/
def string : List Char → Result String
  | '"' :: rest => (chars rest).map fun r => (String.ofList r.1, r.2)
  | _ => none

/-- A nonempty run of digits. -/
def digits (cs : List Char) : Result (List Char) :=
  let (run, rest) := cs.span Char.isDigit
  if run.isEmpty then none else some (run, rest)

/-- The digits before the point, which start with a zero only if they are a zero. -/
def wholePart (cs : List Char) : Result (List Char) :=
  match digits cs with
  | some ('0' :: _ :: _, _) => none
  | other => other

/-- The fraction after an optional point. -/
def fractionPart : List Char → Result (Option (List Char))
  | '.' :: rest => (digits rest).map fun r => (some r.1, r.2)
  | rest => some (none, rest)

/-- The optional exponent. -/
def exponentPart : List Char → Result (Option Int)
  | [] => some (none, [])
  | c :: rest =>
    if c = 'e' || c = 'E' then
      let (negative, rest) := Recalc.Number.splitSign rest
      (digits rest).map fun r =>
        let n : Int := Recalc.Number.digitsValue r.1
        (some (if negative then -n else n), r.2)
    else some (none, c :: rest)

/-- A number. -/
def number (cs : List Char) : Option (Number × List Char) := do
  let (negative, rest) :=
    match cs with
    | '-' :: rest => (true, rest)
    | rest => (false, rest)
  let (whole, rest) ← wholePart rest
  let (fraction, rest) ← fractionPart rest
  let (exponent, rest) ← exponentPart rest
  let value ←
    if fraction.isNone && exponent.isNone then
      Number.ofDigits? negative (Recalc.Number.digitsValue whole)
    else
      let places := fraction.getD []
      Number.ofFiniteFloat? (Recalc.Number.ofDecimal negative
        (Recalc.Number.digitsValue (whole ++ places)) (exponent.getD 0 - places.length))
  return (value, rest)

/-- The text after `word`. -/
def literal (word : String) (value : Json) (cs : List Char) : Result Json :=
  if word.toList.isPrefixOf cs then some (value, cs.drop word.length) else none

/-- A value that is no container. -/
def scalar (cs : List Char) : Result Json :=
  match cs with
  | 'n' :: _ => literal "null" .null cs
  | 't' :: _ => literal "true" (.bool true) cs
  | 'f' :: _ => literal "false" (.bool false) cs
  | '"' :: _ => (string cs).map fun r => (.string r.1, r.2)
  | _ => (number cs).map fun r => (.number r.1, r.2)

/-- The items of a list, up to its closing bracket, for a list that is not empty. -/
def items (inner : List Char → Result Json) : Nat → List Char → Result (List Json)
  | 0, _ => none
  | fuel + 1, cs =>
    match inner (skipBlank cs) with
    | none => none
    | some (item, rest) =>
      match skipBlank rest with
      | ',' :: rest => (items inner fuel rest).map fun r => (item :: r.1, r.2)
      | ']' :: rest => some ([item], rest)
      | _ => none

/-- The fields of an object in the order of the text, up to its closing brace, for an object that
is not empty. -/
def members (inner : List Char → Result Json) : Nat → List Char → Result (List (String × Json))
  | 0, _ => none
  | fuel + 1, cs =>
    match string (skipBlank cs) with
    | none => none
    | some (key, rest) =>
      match skipBlank rest with
      | ':' :: rest =>
        match inner (skipBlank rest) with
        | none => none
        | some (value, rest) =>
          match skipBlank rest with
          | ',' :: rest => (members inner fuel rest).map fun r => ((key, value) :: r.1, r.2)
          | '\x7d' :: rest => some ([(key, value)], rest)
          | _ => none
      | _ => none

/-- A list, after its opening bracket. -/
def array (inner : List Char → Result Json) (fuel : Nat) (cs : List Char) : Result (List Json) :=
  match skipBlank cs with
  | ']' :: rest => some ([], rest)
  | rest => items inner fuel rest

/-- The fields of an object in the order of the text, after its opening brace. -/
def object (inner : List Char → Result Json) (fuel : Nat) (cs : List Char) :
    Result (List (String × Json)) :=
  match skipBlank cs with
  | '\x7d' :: rest => some ([], rest)
  | rest => members inner fuel rest

/-- A value with at most the given number of containers in one another; `assemble` makes the
object of the fields that were read. -/
def value (assemble : List (String × Json) → Json) (fuel : Nat) : Nat → List Char → Result Json
  | 0, cs =>
    match cs with
    | '[' :: _ => none
    | '\x7b' :: _ => none
    | cs => scalar cs
  | room + 1, cs =>
    match cs with
    | '[' :: rest =>
      (array (value assemble fuel room) fuel rest).map fun r => (.array r.1, r.2)
    | '\x7b' :: rest =>
      (object (value assemble fuel room) fuel rest).map fun r => (assemble r.1, r.2)
    | cs => scalar cs

/-- What was read, if nothing but white space is left. -/
def complete {α : Type} : Result α → Option α
  | some (a, rest) => if (skipBlank rest).isEmpty then some a else none
  | none => none

/-- The value that a whole text spells. -/
def document (assemble : List (String × Json) → Json) (text : String) : Option Json :=
  let cs := text.toList
  complete (value assemble cs.length maxNesting (skipBlank cs))

end Reader

/-- The value that a text spells. -/
def read? (text : String) : Option Json := Reader.document .ofFields text

/-- The value that a text spells, with the fields of every object in the order of the text and with
every repetition. -/
def readVerbatim? (text : String) : Option Json := Reader.document .object text

end Recalc.Json
