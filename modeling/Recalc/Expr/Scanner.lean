import Recalc.Expr.Lexer
import Recalc.Template.Bytes

/-!
# Scanning by a position

A scanner has a position, the byte offset up to which it has read the text, and moves it on as it
takes characters. The reader of each kind of token moves the position by itself, and where a reader
that fails has left the position is where the lenient scan goes on. The strict scan ends with its
first error.

The text is cut at the position each time it is looked at. A cut inside a character, or behind the
end of the text, gives nothing, and neither does a loop that goes on for ever.
-/

namespace Recalc

/-- The state of a scanner. -/
structure Cursor where
  /-- The position. -/
  position : Nat
  /-- Whether the scan has ended with an error. -/
  ended : Bool

/-- A step of a scanner. -/
abbrev Scan (α : Type) := StateT Cursor Option α

/-- A scanner, by the text it reads. -/
abbrev Scanner := List Char

namespace Scanner

/-- The characters from the position on. -/
def ahead (text : Scanner) : Scan (List Char) := do
  let (_, rest) ← Template.cutAt? (← get).position text
  return rest

/-- The characters between an offset and the position. -/
def behind (text : Scanner) (start : Nat) : Scan (List Char) := do
  let (before, _) ← Template.cutAt? (← get).position text
  let (_, part) ← Template.cutAt? start before
  return part

/-- The next character. -/
def peek (text : Scanner) : Scan (Option Char) := do
  let rest ← ahead text
  return rest.head?

/-- The character after the next one. -/
def peekSecond (text : Scanner) : Scan (Option Char) := do
  let rest ← ahead text
  return rest.tail.head?

/-- Moves the position on by a number of bytes. -/
def advance (bytes : Nat) : Scan Unit := modify fun s => { s with position := s.position + bytes }

/-- Takes the next character. -/
def bump (text : Scanner) : Scan (Option Char) := do
  match ← peek text with
  | none => return none
  | some c =>
    advance c.utf8Size
    return some c

/-- Takes the next character if it is the expected one, and tells whether it is. -/
def eat (text : Scanner) (expected : Char) : Scan Bool := do
  if (← peek text) = some expected then
    advance expected.utf8Size
    return true
  else return false

/-- Takes characters as long as they satisfy `p`. -/
def skipWhile (text : Scanner) (p : Char → Bool) : Scan Unit := do
  if (← peek text).any p then
    let _ ← bump text
    text |>.skipWhile p
  else return ()
partial_fixpoint

/-! ### Between tokens -/

/-- Takes the rest of a line, with its end. -/
def skipLine (text : Scanner) : Scan Unit := do
  if (← bump text).any (· ≠ '\n') then text |>.skipLine
  else return ()
partial_fixpoint

/-- Takes the rest of a comment, up to `*/`. -/
def skipBlock (text : Scanner) : Scan Unit := do
  match ← bump text with
  | none => return ()
  | some c =>
    if c = '*' then
      if ← eat text '/' then return () else text |>.skipBlock
    else text |>.skipBlock
partial_fixpoint

/-- Takes white space and comments. -/
def skipTrivia (text : Scanner) : Scan Unit := do
  match ← peek text with
  | none => return ()
  | some c =>
    if Text.isBlank c then
      let _ ← bump text
      text |>.skipTrivia
    else if c = '/' then
      let second ← peekSecond text
      if second = some '/' then
        skipLine text
        text |>.skipTrivia
      else if second = some '*' then
        advance 2
        skipBlock text
        text |>.skipTrivia
      else return ()
    else return ()
partial_fixpoint

/-! ### Readers of tokens

Each starts behind the first character of the token, which stands at the offset `start`. -/

/-- What a reader returns. -/
abbrev Reading (α : Type) := Except SyntaxError α

/-- Takes a point and the digits after it, if there is a digit. -/
def skipFraction (text : Scanner) : Scan Unit := do
  if (← peek text) = some '.' ∧ (← peekSecond text).any Char.isDigit then
    let _ ← bump text
    skipWhile text Char.isDigit
  else return ()

/-- Takes the sign of an exponent, if there is one. -/
def skipSign (text : Scanner) : Scan Unit := do
  if (← peek text).any fun c => c = '+' || c = '-' then
    let _ ← bump text
    return ()
  else return ()

/-- Takes an exponent, with its digits or without. -/
def skipExponent (text : Scanner) : Scan Unit := do
  if (← peek text).any fun c => c = 'e' || c = 'E' then
    let _ ← bump text
    skipSign text
    skipWhile text Char.isDigit
  else return ()

/-- Reads a number. -/
def number (text : Scanner) (start : Nat) : Scan (Reading Token) := do
  skipWhile text Char.isDigit
  skipFraction text
  skipExponent text
  let part ← behind text start
  match Number.read? part with
  | some value => return .ok (.number value)
  | none => return .error ⟨.invalidNumber (String.ofList part), start⟩

/-- Reads a word. -/
def word (text : Scanner) (start : Nat) : Scan (Reading Token) := do
  skipWhile text Text.isNamePart
  let part ← behind text start
  return .ok (.word (String.ofList part))

/-- Reads a quoted text up to its closing mark, behind what was read of its content. -/
def quoted (text : Scanner) (mark : Char) (start : Nat) (content : List Char) :
    Scan (Reading Token) := do
  match ← bump text with
  | none => return .error ⟨.unterminatedText, start⟩
  | some c =>
    if c = mark then return .ok (.text (String.ofList content))
    else if c = '\\' then
      match ← bump text with
      | none => return .error ⟨.unterminatedText, start⟩
      | some escaped => text |>.quoted mark start (content ++ [Lexer.unescape escaped])
    else text |>.quoted mark start (content ++ [c])
partial_fixpoint

/-- Reads a punctuation mark that starts with `c`. -/
def punct (text : Scanner) (c : Char) (start : Nat) : Scan (Reading Punct) :=
  let unknown : Scan (Reading Punct) := return .error ⟨.unexpectedCharacter c, start⟩
  let one (mark : Punct) : Scan (Reading Punct) := return .ok mark
  let double (second : Char) (mark : Punct) (otherwise : Scan (Reading Punct)) :
      Scan (Reading Punct) := do
    if ← eat text second then return .ok mark else otherwise
  let equality (mark : Punct) (otherwise : Scan (Reading Punct)) : Scan (Reading Punct) := do
    if ← eat text '=' then
      let _ ← eat text '='
      return .ok mark
    else otherwise
  match c with
  | '.' => one .dot
  | ',' => one .comma
  | '(' => one .lParen
  | ')' => one .rParen
  | '[' => one .lBracket
  | ']' => one .rBracket
  | '+' => one .plus
  | '-' => one .minus
  | '*' => one .star
  | '/' => one .slash
  | '%' => one .percent
  | ':' => one .colon
  | '=' => equality .eqEq unknown
  | '!' => equality .notEq (one .bang)
  | '<' => double '=' .le (one .lt)
  | '>' => double '=' .ge (one .gt)
  | '&' => double '&' .andAnd unknown
  | '|' => double '|' .orOr unknown
  | '?' => double '?' .nullish (one .question)
  | _ => unknown

/-- Reads the token that starts with `c`. -/
def token (text : Scanner) (c : Char) (start : Nat) : Scan (Reading Token) :=
  if c.isDigit then number text start
  else if Text.isNameStart c then word text start
  else if c = '"' || c = '\'' || c = '\x60' then quoted text c start []
  else do
    let mark ← punct text c start
    return mark.map .punct

/-! ### The scans -/

/-- The next lexeme or error. The lenient scan passes errors over; the strict one ends with an
error. -/
def next (text : Scanner) (lenient : Bool) : Scan (Option (Reading Lexeme)) := do
  if (← get).ended then return none
  else
    skipTrivia text
    let start := (← get).position
    match ← bump text with
    | none => return none
    | some c =>
      match ← token text c start with
      | .ok token => return some (.ok ⟨token, start⟩)
      | .error error =>
        if lenient then text |>.next lenient
        else
          modify fun s => { s with ended := true }
          return some (.error error)
partial_fixpoint

/-- All lexemes and errors from the position on. -/
def items (text : Scanner) (lenient : Bool) : Scan (List (Reading Lexeme)) := do
  match ← next text lenient with
  | none => return []
  | some item =>
    let rest ← text |>.items lenient
    return item :: rest
partial_fixpoint

/-- What a scan of a text lists, from its start on. -/
def scan? (text : String) (lenient : Bool) : Option (List (Reading Lexeme)) :=
  ((items text.toList lenient).run ⟨0, false⟩).map (·.1)

/-- The lexemes that the strict scan lists, or its error. -/
def tokenize? (text : String) : Option (Except SyntaxError (List Lexeme)) :=
  (scan? text false).map (·.mapM id)

/-- The lexemes that the lenient scan lists. -/
def tokenizeLenient? (text : String) : Option (List Lexeme) :=
  (scan? text true).map (·.filterMap Except.toOption)

end Scanner

end Recalc
