import Recalc.Expr.Token
import Recalc.Text.Blank
import Recalc.Value

/-!
# Failures of expressions

An expression fails because its text is malformed, because an operation has no result, or because
its budget is spent. Each failure is a cause; the wording is in the functions called `message`.
-/

namespace Recalc

/-- What is wrong with the text of an expression. -/
inductive SyntaxFault where
  /-- The characters start like a number but are none. -/
  | invalidNumber (text : String)
  /-- A quoted text has no end. -/
  | unterminatedText
  /-- No token starts with the character. -/
  | unexpectedCharacter (c : Char)
  /-- The text ends where a token has to follow. -/
  | unexpectedEnd
  /-- The token cannot stand here. -/
  | unexpectedToken (token : Token)
  /-- Another mark has to stand here. -/
  | expected (mark : Punct)
  /-- A word has to follow the dot. -/
  | expectedName
  /-- A call, which the language does not have. -/
  | callUnsupported
  /-- The expression is nested too deeply. -/
  | tooDeep
  deriving DecidableEq

/-- The wording of a syntax fault. -/
def SyntaxFault.message : SyntaxFault → String
  | invalidNumber text => "invalid number " ++ Text.quote text
  | unterminatedText => "unterminated string"
  | unexpectedCharacter c => "unexpected character " ++ Text.quoteChar c
  | unexpectedEnd => "unexpected end of expression"
  | unexpectedToken token => "unexpected " ++ token.shown
  | expected mark => "expected " ++ mark.shown
  | expectedName => "expected a property name"
  | callUnsupported => "function calls are not supported"
  | tooDeep => "expression is nested too deeply"

/-- A fault and the byte offset where it shows. -/
structure SyntaxError where
  /-- What is wrong. -/
  fault : SyntaxFault
  /-- Where it shows. -/
  offset : Nat
  deriving DecidableEq

/-- The wording of a syntax error. -/
def SyntaxError.message (e : SyntaxError) : String :=
  "syntax error at offset " ++ toString e.offset ++ ": " ++ e.fault.message

/-- Why an operation has no result. -/
inductive RuntimeFault where
  /-- The name is no entity. -/
  | notDefined (root : String)
  /-- A property of no value was read. -/
  | propertyOfUndefined (name : String)
  /-- A property of `null` was read. -/
  | propertyOfNull (name : String)
  /-- The value cannot be an index. -/
  | invalidIndex (index : Value)
  /-- The value cannot be an operand of the arithmetic operator. -/
  | invalidOperand (operator : String) (operand : Value)
  /-- The divisor is zero. -/
  | divisionByZero
  /-- The result is no finite number. -/
  | notFinite

/-- The text of an operand in a message: a text that is not blank is quoted. -/
def RuntimeFault.operandText (operand : Value) : String :=
  match operand.payload? with
  | some (.string s) => if (Text.trim s.toList).isEmpty then operand.display else Text.quote s
  | _ => operand.display

/-- The wording of a runtime fault. -/
def RuntimeFault.message : RuntimeFault → String
  | notDefined root => root ++ " is not defined"
  | propertyOfUndefined name => "cannot read property '" ++ name ++ "' of undefined"
  | propertyOfNull name => "cannot read property '" ++ name ++ "' of null"
  | invalidIndex index => "cannot index with " ++ index.display
  | invalidOperand operator operand =>
    "cannot apply '" ++ operator ++ "' to " ++ operandText operand
  | divisionByZero => "division by zero"
  | notFinite => "arithmetic produced a non-finite number"

/-- Why an expression failed. -/
inductive ExprError where
  /-- Its text is malformed. -/
  | malformed (error : SyntaxError)
  /-- An operation has no result. -/
  | runtime (fault : RuntimeFault)
  /-- Its budget is spent. -/
  | outOfBudget

/-- The wording of a failure. -/
def ExprError.message : ExprError → String
  | malformed error => error.message
  | runtime fault => fault.message
  | outOfBudget => "execution budget exceeded"

end Recalc
