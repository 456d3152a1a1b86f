import Recalc.Text.Hidden

/-!
# Quoted text in messages

Messages show a text or a character between quotes. The delimiting quote, the backslash and the
characters NUL, tab, line feed and carriage return are escaped by a letter; characters without a
visible form of their own are written by their code point, as `\u{…}` with hexadecimal digits.
-/

namespace Recalc.Text

/-- The hexadecimal digits of a code point, without leading zeros. -/
def hexDigits (c : Char) : List Char := Nat.toDigits 16 c.toNat

/-- The form of one character between quotes of the kind `delimiter`. -/
def escape (delimiter c : Char) : List Char :=
  if c = '\x00' then ['\\', '0']
  else if c = '\t' then ['\\', 't']
  else if c = '\r' then ['\\', 'r']
  else if c = '\n' then ['\\', 'n']
  else if c = '\\' || c = delimiter then ['\\', c]
  else if isExtending c || !isPrintable c then
    ['\\', 'u', '\x7b'] ++ hexDigits c ++ ['\x7d']
  else [c]

/-- A text between double quotes. -/
def quote (s : String) : String :=
  String.ofList ('"' :: (s.toList.flatMap (escape '"') ++ ['"']))

/-- A character between single quotes. -/
def quoteChar (c : Char) : String :=
  String.ofList ('\'' :: (escape '\'' c ++ ['\'']))

end Recalc.Text
