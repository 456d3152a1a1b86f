import Recalc.Expr.Error
import Recalc.Number.Reading
import Recalc.Text.Name

/-!
# Scanning expressions

`scan` cuts a text into lexemes. Where no token can be read it records an error and goes on behind
the characters that the attempt took, so that the words of a richer language can still be found.
`tokenize` is the strict reading of a scan, up to its first error; `tokenizeLenient` drops the
errors.

Between tokens stand white space, comments to the end of the line and comments between `/*` and
`*/`; a comment may be ended by the end of the text.
-/

namespace Recalc.Lexer

/-- The number of bytes of a text. -/
def byteSize (cs : List Char) : Nat := cs.foldr (fun c size => c.utf8Size + size) 0

/-- What is being skipped between two tokens. -/
inductive Gap where
  /-- White space, or the start of a comment. -/
  | space
  /-- A comment that ends with the line. -/
  | line
  /-- A comment that ends with `*/`. -/
  | block
  deriving DecidableEq

/-- The text from the next token on. -/
def skip : Gap → List Char → List Char
  | _, [] => []
  | .space, c :: rest =>
    if Text.isBlank c then skip .space rest
    else if c = '/' then
      match rest with
      | '/' :: rest => skip .line rest
      | '*' :: rest => skip .block rest
      | rest => c :: rest
    else c :: rest
  | .line, c :: rest => if c = '\n' then skip .space rest else skip .line rest
  | .block, c :: rest =>
    if c = '*' then
      match rest with
      | '/' :: rest => skip .space rest
      | rest => skip .block rest
    else skip .block rest

/-- A token or what kept it from being read, and the text after the characters that were taken. -/
abbrev Attempt (α : Type) := Except SyntaxFault α × List Char

/-- A point with at least one digit after it, if the text starts with one. -/
def fraction (cs : List Char) : List Char × List Char :=
  match cs with
  | '.' :: d :: rest =>
    if d.isDigit then
      let (digits, rest) := (d :: rest).span Char.isDigit
      ('.' :: digits, rest)
    else ([], cs)
  | cs => ([], cs)

/-- A sign, if the text starts with one. -/
def sign : List Char → List Char × List Char
  | '+' :: rest => (['+'], rest)
  | '-' :: rest => (['-'], rest)
  | cs => ([], cs)

/-- An exponent, if the text starts with one; its digits may be missing. -/
def exponent (cs : List Char) : List Char × List Char :=
  match cs with
  | e :: rest =>
    if e = 'e' || e = 'E' then
      let (sign, rest) := sign rest
      let (digits, rest) := rest.span Char.isDigit
      (e :: (sign ++ digits), rest)
    else ([], cs)
  | [] => ([], [])

/-- A number, from its first digit on. -/
def number (cs : List Char) : Attempt Token :=
  let (whole, rest) := cs.span Char.isDigit
  let (fraction, rest) := fraction rest
  let (exponent, rest) := exponent rest
  let text := whole ++ fraction ++ exponent
  match Number.read? text with
  | some value => (.ok (.number value), rest)
  | none => (.error (.invalidNumber (String.ofList text)), rest)

/-- The character that an escape stands for. -/
def unescape (c : Char) : Char :=
  if c = 'n' then '\n' else if c = 't' then '\t' else if c = 'r' then '\r' else c

/-- The content of a quoted text up to its closing mark, if there is one, and the text after it. -/
def content (mark : Char) : List Char → Option (List Char) × List Char
  | [] => (none, [])
  | c :: rest =>
    if c = mark then (some [], rest)
    else if c = '\\' then
      match rest with
      | [] => (none, [])
      | escaped :: rest =>
        let (content, rest) := content mark rest
        (content.map (unescape escaped :: ·), rest)
    else
      let (content, rest) := content mark rest
      (content.map (c :: ·), rest)

/-- A quoted text, after its opening mark. -/
def quoted (mark : Char) (cs : List Char) : Attempt Token :=
  match content mark cs with
  | (some content, rest) => (.ok (.text (String.ofList content)), rest)
  | (none, rest) => (.error .unterminatedText, rest)

/-- The text after `c`, if it starts with `c`. -/
def eat (c : Char) : List Char → Option (List Char)
  | [] => none
  | d :: rest => if d = c then some rest else none

/-- The text after `c`, or the whole text if it does not start with `c`. -/
def eatAny (c : Char) (cs : List Char) : List Char := (eat c cs).getD cs

/-- The punctuation mark that starts with `c`, the longest one there is. -/
def punct (c : Char) (rest : List Char) : Attempt Punct :=
  let one (mark : Punct) : Attempt Punct := (.ok mark, rest)
  let unknown : Attempt Punct := (.error (.unexpectedCharacter c), rest)
  let double (second : Char) (mark : Punct) (otherwise : Attempt Punct) : Attempt Punct :=
    match eat second rest with
    | some rest => (.ok mark, rest)
    | none => otherwise
  let equality (mark : Punct) (otherwise : Attempt Punct) : Attempt Punct :=
    match eat '=' rest with
    | some rest => (.ok mark, eatAny '=' rest)
    | none => otherwise
  match c with
  | '.' => one .dot
  | ',' => one .comma
  | '(' => one .lParen
  | ')' => one .rParen
  | '[' => one .lBracket
  | ']' => one .rBracket
  | '+' => one .plus
  | '-' => one .minus
  | '*' => one .star
  | '/' => one .slash
  | '%' => one .percent
  | ':' => one .colon
  | '=' => equality .eqEq unknown
  | '!' => equality .notEq (one .bang)
  | '<' => double '=' .le (one .lt)
  | '>' => double '=' .ge (one .gt)
  | '&' => double '&' .andAnd unknown
  | '|' => double '|' .orOr unknown
  | '?' => double '?' .nullish (one .question)
  | _ => unknown

/-- The token that starts with `c`. -/
def token (c : Char) (rest : List Char) : Attempt Token :=
  if c.isDigit then number (c :: rest)
  else if Text.isNameStart c then
    let (part, rest) := rest.span Text.isNamePart
    (.ok (.word (String.ofList (c :: part))), rest)
  else if c = '"' || c = '\'' || c = '\x60' then quoted c rest
  else
    let (mark, rest) := punct c rest
    (mark.map .punct, rest)

/-- The lexemes and errors of the end `cs` of a text of `total` bytes, found in at most `fuel`
steps. -/
def scanFrom (total : Nat) : Nat → List Char → List (Except SyntaxError Lexeme)
  | 0, _ => []
  | fuel + 1, cs =>
    match skip .space cs with
    | [] => []
    | c :: rest =>
      let offset := total - byteSize (c :: rest)
      let (found, rest) := token c rest
      let item :=
        match found with
        | .ok token => .ok ⟨token, offset⟩
        | .error fault => .error ⟨fault, offset⟩
      item :: scanFrom total fuel rest

/-- The lexemes and errors of a text, in order. -/
def scan (text : String) : List (Except SyntaxError Lexeme) :=
  let cs := text.toList
  scanFrom (byteSize cs) cs.length cs

/-- The lexemes of a text in which every token can be read, and the first error of another text. -/
def tokenize (text : String) : Except SyntaxError (List Lexeme) := (scan text).mapM id

/-- The lexemes that can be read. -/
def tokenizeLenient (text : String) : List Lexeme :=
  (scan text).filterMap fun
    | .ok lexeme => some lexeme
    | .error _ => none

end Recalc.Lexer
