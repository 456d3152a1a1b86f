/-!
# Templates

A template is a text in which code stands between double braces. The code of a binding ends at the
first pair of closing braces that is not inside a quotation and matches no opening brace of the
code; a backslash inside a quotation takes the next character with it. An opening that is never
closed is plain text, with everything after it.
-/

namespace Recalc

/-- A part of a template. -/
inductive Segment where
  /-- Plain text. -/
  | text (content : String)
  /-- The code of a binding. -/
  | binding (code : String)
  deriving DecidableEq

namespace Template

/-- The state of a search for the end of a binding. -/
structure Scan where
  /-- The quotation mark that is still open. -/
  quotation : Option Char
  /-- The number of braces that are still open. -/
  depth : Nat
  deriving DecidableEq

/-- Whether `c` opens and closes quotations. -/
def isQuotation (c : Char) : Bool := c = '"' || c = '\'' || c = '\x60'

/-- The code up to the closing braces, and the text after them. -/
def code? (s : Scan) : List Char → Option (List Char × List Char)
  | [] => none
  | c :: rest =>
    let go (s : Scan) := (code? s rest).map fun r => (c :: r.1, r.2)
    match s.quotation with
    | some mark =>
      if c = '\\' then
        match rest with
        | [] => none
        | escaped :: rest => (code? s rest).map fun r => (c :: escaped :: r.1, r.2)
      else if c = mark then go { s with quotation := none }
      else go s
    | none =>
      if isQuotation c then go { s with quotation := some c }
      else if c = '\x7b' then go { s with depth := s.depth + 1 }
      else if c = '\x7d' then
        if 0 < s.depth then go { s with depth := s.depth - 1 }
        else
          match rest with
          | '\x7d' :: rest => some ([], rest)
          | _ => go s
      else go s

/-- The text before the first double opening brace, and the text after it. -/
def opening? : List Char → Option (List Char × List Char)
  | [] => none
  | '\x7b' :: '\x7b' :: rest => some ([], rest)
  | c :: rest => (opening? rest).map fun r => (c :: r.1, r.2)

/-- A text segment, unless there is no text. -/
def textSegment (cs : List Char) : List Segment :=
  if cs.isEmpty then [] else [.text (String.ofList cs)]

/-- The first binding of a text: the text before it, its code, and the text after it. -/
def firstBinding? (cs : List Char) : Option (List Char × List Char × List Char) :=
  (opening? cs).bind fun (before, rest) =>
    (code? ⟨none, 0⟩ rest).map fun (code, after) => (before, code, after)

/-- The segments of a text, found in at most `fuel` steps. -/
def segmentsFrom : Nat → List Char → List Segment
  | 0, cs => textSegment cs
  | fuel + 1, cs =>
    match firstBinding? cs with
    | none => textSegment cs
    | some (before, code, after) =>
      textSegment before ++ .binding (String.ofList code) :: segmentsFrom fuel after

/-- The segments of a text, in order. -/
def segments (text : String) : List Segment :=
  let cs := text.toList
  segmentsFrom cs.length cs

/-- Whether a text has a binding. -/
def isDynamic (text : String) : Bool :=
  (segments text).any fun
    | .binding _ => true
    | .text _ => false

/-- The codes of the bindings, in order. -/
def codes (text : String) : List String :=
  (segments text).filterMap fun
    | .binding code => some code
    | .text _ => none

end Template

end Recalc
