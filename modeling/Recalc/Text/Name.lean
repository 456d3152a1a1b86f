import Recalc.Text.Numeric

/-!
# Names

A name starts with a letter, `_` or `$` and goes on with letters, number characters, `_` and `$`.
Entity names and the words of expressions are names.
-/

namespace Recalc.Text

/-- Whether a name may start with `c`. -/
def isNameStart (c : Char) : Bool := isAlphabetic c || c == '_' || c == '$'

/-- Whether a name may go on with `c`. -/
def isNamePart (c : Char) : Bool := isAlphanumeric c || c == '_' || c == '$'

/-- Whether the characters form a name. -/
def isName : List Char → Bool
  | [] => false
  | c :: cs => isNameStart c && cs.all isNamePart

end Recalc.Text
