import Recalc.Number.Style
import Recalc.Text.Quoted

/-!
# Tokens of the expression language

A token is a number, a text, a word or a punctuation mark; a lexeme is a token with the byte offset
at which it starts. Messages show tokens in the notation of `Token.shown`.
-/

namespace Recalc

/-- A punctuation mark. -/
inductive Punct where
  /-- The mark `.`. -/
  | dot
  /-- The mark `,`. -/
  | comma
  /-- The mark `(`. -/
  | lParen
  /-- The mark `)`. -/
  | rParen
  /-- The mark `[`. -/
  | lBracket
  /-- The mark `]`. -/
  | rBracket
  /-- The mark `+`. -/
  | plus
  /-- The mark `-`. -/
  | minus
  /-- The mark `*`. -/
  | star
  /-- The mark `/`. -/
  | slash
  /-- The mark `%`. -/
  | percent
  /-- The mark `!`. -/
  | bang
  /-- The mark `==` or `===`. -/
  | eqEq
  /-- The mark `!=` or `!==`. -/
  | notEq
  /-- The mark `<`. -/
  | lt
  /-- The mark `<=`. -/
  | le
  /-- The mark `>`. -/
  | gt
  /-- The mark `>=`. -/
  | ge
  /-- The mark `&&`. -/
  | andAnd
  /-- The mark `||`. -/
  | orOr
  /-- The mark `??`. -/
  | nullish
  /-- The mark `?`. -/
  | question
  /-- The mark `:`. -/
  | colon
  deriving DecidableEq

/-- A token. -/
inductive Token where
  /-- A number. -/
  | number (value : Float)
  /-- A quoted text, without its quotes and escapes. -/
  | text (content : String)
  /-- A word. -/
  | word (name : String)
  /-- A punctuation mark. -/
  | punct (mark : Punct)
  deriving DecidableEq

/-- A token and where it starts. -/
structure Lexeme where
  /-- The token. -/
  token : Token
  /-- The byte offset of its first character. -/
  offset : Nat
  deriving DecidableEq

/-- The name of a punctuation mark in messages. -/
def Punct.shown : Punct → String
  | dot => "Dot"
  | comma => "Comma"
  | lParen => "LParen"
  | rParen => "RParen"
  | lBracket => "LBracket"
  | rBracket => "RBracket"
  | plus => "Plus"
  | minus => "Minus"
  | star => "Star"
  | slash => "Slash"
  | percent => "Percent"
  | bang => "Bang"
  | eqEq => "EqEq"
  | notEq => "NotEq"
  | lt => "Lt"
  | le => "Le"
  | gt => "Gt"
  | ge => "Ge"
  | andAnd => "AndAnd"
  | orOr => "OrOr"
  | nullish => "Nullish"
  | question => "Question"
  | colon => "Colon"

namespace Token

/-- Numbers in messages are written positionally from 10⁻⁴ up to 10¹⁶ and with a bare exponent
elsewhere; of two shortest decimals equally near the larger is taken. -/
def style : Number.Style := ⟨.up, -4, 16, false⟩

/-- A number in messages. -/
def numberText (x : Float) : String :=
  if x.isNaN then "NaN"
  else if x.isInf then (if x < 0.0 then "-inf" else "inf")
  else style.write x

/-- A token in messages. -/
def shown : Token → String
  | number value => "Number(" ++ numberText value ++ ")"
  | text content => "Str(" ++ Text.quote content ++ ")"
  | word name => "Ident(" ++ Text.quote name ++ ")"
  | punct mark => "Punct(" ++ mark.shown ++ ")"

/-- Words that never start a reference. -/
def keywords : List String := [
  "true", "false", "null", "undefined", "this", "function", "return", "const", "let", "var", "if",
  "else", "new", "typeof", "async", "await", "export", "default"]

/-- Whether a word never starts a reference. -/
def isKeyword (word : String) : Bool := keywords.contains word

end Token

end Recalc
