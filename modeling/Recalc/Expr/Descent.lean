import Recalc.Expr.Parser
import Recalc.Expr.Scanner

/-!
# Parsing without bounds

The parser by recursive descent, with nothing in it that bounds its recursion or its loops: an
expression calls for the expressions in it, and a loop goes on as long as the lexemes say so. What
it has is the counter of open calls, which each call hands on to those inside it, and the check of
this counter.

Each function is what its body does, with its calls left open (`Call.body`): a parse that stands at
a call waits for what the call returns (`Pending`). Making every call as it comes up (`Pending.run`)
need not end, and a parse that goes on for ever gives nothing.
-/

namespace Recalc.Parser

/-- A parse that need not end. -/
abbrev Parse (α : Type) := ExceptT SyntaxError Option α

namespace Descent

/-- A call of a function of the parser: the counter of open calls, and what it is called with. -/
inductive Call where
  /-- For an expression. -/
  | expression (nesting power : Nat) (lexemes : List Lexeme)
  /-- For the operators behind a tree. -/
  | operators (nesting power : Nat) (left : Parsed) (lexemes : List Lexeme)
  /-- For an operand. -/
  | operand (nesting : Nat) (lexemes : List Lexeme)
  /-- For what an operand starts with. -/
  | primary (nesting : Nat) (lexemes : List Lexeme)
  /-- For the items of a list. -/
  | items (nesting : Nat) (lexemes : List Lexeme)
  /-- For the members and indices behind a tree. -/
  | suffixes (nesting : Nat) (base : Parsed) (lexemes : List Lexeme)

/-- What a call returns. -/
abbrev Call.Found : Call → Type
  | items _ _ => List Parsed × List Lexeme
  | _ => Parsed × List Lexeme

/-- A parse up to its first call. -/
inductive Pending (α : Type) where
  /-- It makes no call. -/
  | done (result : Except SyntaxError α)
  /-- It makes a call, and goes on with what this returns. -/
  | call (call : Call) (next : call.Found → Pending α)

namespace Pending

variable {α β : Type}

/-- One parse after another. -/
def bind : Pending α → (α → Pending β) → Pending β
  | done (.ok a), f => f a
  | done (.error error), _ => done (.error error)
  | call c next, f => call c fun found => (next found).bind f

instance : Monad Pending where
  pure a := done (.ok a)
  bind := bind

instance : MonadLift (Except SyntaxError) Pending := ⟨done⟩

/-- A call, and nothing after it. -/
def ask (c : Call) : Pending c.Found := call c pure

end Pending

/-! ### The functions

Each function is a call, since its body may call it again. -/

section

variable (nesting : Nat)

/-- An expression whose operators have at least the given power. -/
def expression (power : Nat) (lexemes : List Lexeme) : Pending (Parsed × List Lexeme) :=
  .ask (.expression nesting power lexemes)

/-- The operators with at least the given power that follow a tree. -/
def operators (power : Nat) (left : Parsed) (lexemes : List Lexeme) :
    Pending (Parsed × List Lexeme) :=
  .ask (.operators nesting power left lexemes)

/-- An operand of an operator between operands. -/
def operand (lexemes : List Lexeme) : Pending (Parsed × List Lexeme) :=
  .ask (.operand nesting lexemes)

/-- An expression without operators around it and without members after it. -/
def primary (lexemes : List Lexeme) : Pending (Parsed × List Lexeme) :=
  .ask (.primary nesting lexemes)

/-- The items of a list up to its closing bracket. -/
def items (lexemes : List Lexeme) : Pending (List Parsed × List Lexeme) :=
  .ask (.items nesting lexemes)

/-- The members and indices that follow a tree. -/
def suffixes (base : Parsed) (lexemes : List Lexeme) : Pending (Parsed × List Lexeme) :=
  .ask (.suffixes nesting base lexemes)

end

/-- The body of the function that is called. An expression is parsed with one more call open. -/
def Call.body (stop : Nat) : (call : Call) → Pending call.Found
  | .expression nesting power lexemes =>
    if nesting = maxDepth then fail .tooDeep (offsetOf stop lexemes)
    else Body.layer (Descent.operand (nesting + 1)) (Descent.operators (nesting + 1) power) lexemes
  | .operators nesting power left lexemes =>
    Body.operators stop (Descent.expression nesting) power (Descent.operators nesting power) left
      lexemes
  | .operand nesting lexemes =>
    Body.operand (Descent.expression nesting) (Descent.primary nesting) (Descent.suffixes nesting)
      lexemes
  | .primary nesting lexemes =>
    Body.primary stop (Descent.expression nesting) (Descent.items nesting) lexemes
  | .items nesting lexemes =>
    Body.items stop (Descent.expression nesting) (Descent.items nesting) lexemes
  | .suffixes nesting base lexemes =>
    Body.suffixes stop (Descent.expression nesting) (Descent.suffixes nesting) base lexemes

/-! ### Making the calls -/

/-- Makes the call, then those that the function called makes, and so on. -/
def Pending.run {α : Type} (pending : Pending α) (stop : Nat) : Parse α :=
  match pending with
  | .done result => result
  | .call c next => do
    let found ← c.body stop |>.run stop
    next found |>.run stop
partial_fixpoint

/-- The expression that a list of lexemes spells. -/
def ofLexemes (stop : Nat) (lexemes : List Lexeme) : Parse Expr :=
  (Body.ofLexemes (expression 0 0) lexemes).run stop

/-- The expression that a text spells. -/
def parse (text : String) : Parse Expr := do
  let lexemes ← ExceptT.mk (Scanner.tokenize? text)
  ofLexemes (Lexer.byteSize text.toList) lexemes

end Descent

end Recalc.Parser
