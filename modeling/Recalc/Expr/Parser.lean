import Recalc.Expr.Basic
import Recalc.Expr.Lexer

/-!
# Parsing expressions

The parser goes by binding powers: an operator of level l takes an operand on its right that binds
more strongly than l, so all operators associate to the left; the conditional binds least and the
operators in front of an operand most.

Trees may be at most `maxDepth` deep, and expressions nested at most as deep in one another. Each
level of nesting is one layer: `expression room` parses with at most `room` expressions in one
another, by means of `expression (room - 1)`. The loops inside a layer take at least one lexeme in
each round, so the number of lexemes bounds them.

What a function does is one thing (`Body`), and how its calls go on is another. The bodies and the
layer are the same in every monad that has syntax errors, so a parser that keeps count of its calls
or has no bounds is made of them too.

Every parsing function returns the depth of the tree it built beside the tree.
-/

namespace Recalc

/-- The greatest depth of a tree and of the nesting of expressions. -/
def maxDepth : Nat := 256

namespace Parser

/-- A tree and its depth. -/
structure Parsed where
  /-- The tree. -/
  expr : Expr
  /-- The depth of the tree. -/
  depth : Nat

/-- The least power of a conditional. -/
def conditionalPower : Nat := 1

/-- The power with which an operator in front takes its operand. -/
def unaryPower : Nat := 16

/-- The power with which an operator takes its left operand. -/
def leftPower (operator : BinaryOp) : Nat := 2 * operator.level

/-- The power with which an operator takes its right operand. -/
def rightPower (operator : BinaryOp) : Nat := 2 * operator.level + 1

/-- The offset of the next lexeme, or `stop` at the end. -/
def offsetOf (stop : Nat) : List Lexeme → Nat
  | [] => stop
  | lexeme :: _ => lexeme.offset

/-- A syntax error. -/
def fail {α : Type} (fault : SyntaxFault) (offset : Nat) : Except SyntaxError α :=
  .error ⟨fault, offset⟩

/-- The depth of a node above subtrees of the given depth. -/
def deeper (depth offset : Nat) : Except SyntaxError Nat :=
  if maxDepth ≤ depth then fail .tooDeep offset else .ok (depth + 1)

/-- The lexemes after a mark that has to stand here. -/
def expect (stop : Nat) (mark : Punct) (lexemes : List Lexeme) : Except SyntaxError (List Lexeme) :=
  match lexemes with
  | [] => fail (.expected mark) stop
  | lexeme :: rest =>
    if lexeme.token = .punct mark then .ok rest else fail (.expected mark) lexeme.offset

/-- A tree of depth one. -/
def leaf (expr : Expr) : Parsed := ⟨expr, 1⟩

/-- The expression that a word stands for. -/
def ofWord (word : String) : Expr :=
  if word = "true" then .literal (.bool true)
  else if word = "false" then .literal (.bool false)
  else if word = "null" then .literal .null
  else if word = "undefined" then .undefined
  else .path word []

/-- The expression that a number stands for; a number that is not finite has no value. -/
def ofNumber (x : Float) : Expr :=
  match Json.Number.ofFloat? x with
  | some value => .literal (.number value)
  | none => .undefined

/-- The operator in front of an operand, if the next lexeme is one. -/
def unary? : List Lexeme → Option (UnaryOp × Nat × List Lexeme)
  | ⟨.punct mark, offset⟩ :: rest => (UnaryOp.ofPunct? mark).map fun op => (op, offset, rest)
  | _ => none

/-- The member `name` of a tree. A member of a path lengthens the path. -/
def addMember (base : Parsed) (name : String) (offset : Nat) : Except SyntaxError Parsed :=
  match base.expr with
  | .path root members => .ok ⟨.path root (members ++ [name]), base.depth⟩
  | expr => do
    let depth ← deeper base.depth offset
    return ⟨.member expr name, depth⟩

variable {m : Type → Type} [Monad m] [MonadLiftT (Except SyntaxError) m]

/-! ### What the functions do

The body of each function, given the functions that it calls. -/

namespace Body

/- `stop` is the byte length of the text, and `inner power` parses an expression one level further
in. -/
variable (stop : Nat) (inner : Nat → List Lexeme → m (Parsed × List Lexeme))

/-- The items of a list up to its closing bracket; a comma may stand after the last one. -/
def items (items : List Lexeme → m (List Parsed × List Lexeme)) (lexemes : List Lexeme) :
    m (List Parsed × List Lexeme) :=
  match lexemes with
  | ⟨.punct .rBracket, _⟩ :: rest => return ([], rest)
  | lexemes => do
    let (item, rest) ← inner 0 lexemes
    match rest with
    | ⟨.punct .comma, _⟩ :: rest =>
      let (more, rest) ← items rest
      return (item :: more, rest)
    | rest =>
      let rest ← expect stop .rBracket rest
      return ([item], rest)

/-- An expression without operators around it and without members after it. -/
def primary (items : List Lexeme → m (List Parsed × List Lexeme)) (lexemes : List Lexeme) :
    m (Parsed × List Lexeme) :=
  match lexemes with
  | [] => fail .unexpectedEnd stop
  | ⟨token, offset⟩ :: rest =>
    match token with
    | .number value => return (leaf (ofNumber value), rest)
    | .text content => return (leaf (.literal (.string content)), rest)
    | .word name => return (leaf (ofWord name), rest)
    | .punct .lParen => do
      let (parsed, rest) ← inner 0 rest
      let rest ← expect stop .rParen rest
      return (parsed, rest)
    | .punct .lBracket => do
      let (found, rest) ← items rest
      let depth ← deeper (found.foldl (fun depth item => max depth item.depth) 0) offset
      return (⟨.array (found.map (·.expr)), depth⟩, rest)
    | token => fail (.unexpectedToken token) offset

/-- The members and indices that follow a tree. -/
def suffixes (suffixes : Parsed → List Lexeme → m (Parsed × List Lexeme)) (base : Parsed)
    (lexemes : List Lexeme) : m (Parsed × List Lexeme) :=
  match lexemes with
  | ⟨.punct .dot, _⟩ :: rest =>
    match rest with
    | [] => fail .unexpectedEnd stop
    | ⟨.word name, offset⟩ :: rest => do
      let base ← addMember base name offset
      suffixes base rest
    | lexeme :: _ => fail .expectedName lexeme.offset
  | ⟨.punct .lBracket, offset⟩ :: rest => do
    let (key, rest) ← inner 0 rest
    let rest ← expect stop .rBracket rest
    let depth ← deeper (max base.depth key.depth) offset
    suffixes ⟨.index base.expr key.expr, depth⟩ rest
  | ⟨.punct .lParen, offset⟩ :: _ => fail .callUnsupported offset
  | lexemes => return (base, lexemes)

/-- An operand of an operator between operands. -/
def operand (primary : List Lexeme → m (Parsed × List Lexeme))
    (suffixes : Parsed → List Lexeme → m (Parsed × List Lexeme)) (lexemes : List Lexeme) :
    m (Parsed × List Lexeme) :=
  match unary? lexemes with
  | some (op, offset, rest) => do
    let (parsed, rest) ← inner unaryPower rest
    let depth ← deeper parsed.depth offset
    return (⟨.unary op parsed.expr, depth⟩, rest)
  | none => do
    let (parsed, rest) ← primary lexemes
    suffixes parsed rest

/-- The operators with at least the given power that follow a tree, with their operands. -/
def operators (power : Nat) (operators : Parsed → List Lexeme → m (Parsed × List Lexeme))
    (left : Parsed) (lexemes : List Lexeme) : m (Parsed × List Lexeme) :=
  match lexemes with
  | ⟨.punct mark, offset⟩ :: rest =>
    if mark = .question then
      if conditionalPower < power then return (left, lexemes)
      else do
        let (whenTrue, rest) ← inner 0 rest
        let rest ← expect stop .colon rest
        let (whenFalse, rest) ← inner conditionalPower rest
        let depth ← deeper (max (max left.depth whenTrue.depth) whenFalse.depth) offset
        operators ⟨.conditional left.expr whenTrue.expr whenFalse.expr, depth⟩ rest
    else
      match BinaryOp.ofPunct? mark with
      | none => return (left, lexemes)
      | some op =>
        if leftPower op < power then return (left, lexemes)
        else do
          let (right, rest) ← inner (rightPower op) rest
          let depth ← deeper (max left.depth right.depth) offset
          operators ⟨.binary op left.expr right.expr, depth⟩ rest
  | lexemes => return (left, lexemes)

omit [MonadLiftT (Except SyntaxError) m] in
/-- An expression, of an operand and the operators that follow it. -/
def layer (operand : List Lexeme → m (Parsed × List Lexeme))
    (operators : Parsed → List Lexeme → m (Parsed × List Lexeme)) (lexemes : List Lexeme) :
    m (Parsed × List Lexeme) := do
  let (left, rest) ← operand lexemes
  operators left rest

/-- An expression that is all there is to parse; no lexemes are no value. -/
def ofLexemes (expression : List Lexeme → m (Parsed × List Lexeme)) (lexemes : List Lexeme) :
    m Expr :=
  if lexemes.isEmpty then return .undefined
  else do
    let (parsed, rest) ← expression lexemes
    match rest with
    | [] => return parsed.expr
    | lexeme :: _ => fail (.unexpectedToken lexeme.token) lexeme.offset

end Body

/-! ### A layer

`fuel` bounds the rounds of each loop, and exceeds the number of lexemes. -/

section Layer

variable (stop : Nat) (inner : Nat → List Lexeme → m (Parsed × List Lexeme))

/-- The items of a list up to its closing bracket. -/
def items : Nat → List Lexeme → m (List Parsed × List Lexeme)
  | 0, lexemes => fail .unexpectedEnd (offsetOf stop lexemes)
  | fuel + 1, lexemes => Body.items stop inner (items fuel) lexemes

/-- An expression without operators around it and without members after it. -/
def primary (fuel : Nat) (lexemes : List Lexeme) : m (Parsed × List Lexeme) :=
  Body.primary stop inner (items stop inner fuel) lexemes

/-- The members and indices that follow a tree. -/
def suffixes : Nat → Parsed → List Lexeme → m (Parsed × List Lexeme)
  | 0, base, lexemes => return (base, lexemes)
  | fuel + 1, base, lexemes => Body.suffixes stop inner (suffixes fuel) base lexemes

/-- An operand of an operator between operands. -/
def operand (fuel : Nat) (lexemes : List Lexeme) : m (Parsed × List Lexeme) :=
  Body.operand inner (primary stop inner fuel) (suffixes stop inner fuel) lexemes

/-- The operators with at least the given power that follow a tree, with their operands. -/
def operators (power : Nat) : Nat → Parsed → List Lexeme → m (Parsed × List Lexeme)
  | 0, left, lexemes => return (left, lexemes)
  | fuel + 1, left, lexemes =>
    Body.operators stop inner power (operators power fuel) left lexemes

/-- An expression whose operators have at least the given power. -/
def layer (fuel power : Nat) (lexemes : List Lexeme) : m (Parsed × List Lexeme) :=
  Body.layer (operand stop inner fuel) (operators stop inner power fuel) lexemes

end Layer

/-- An expression whose operators have at least the given power, with at most the given number of
expressions in one another. -/
def expression (stop fuel : Nat) :
    Nat → Nat → List Lexeme → Except SyntaxError (Parsed × List Lexeme)
  | 0, _, lexemes => fail .tooDeep (offsetOf stop lexemes)
  | room + 1, power, lexemes => layer stop (expression stop fuel room) fuel power lexemes

/-- The expression that a list of lexemes spells, which is no value if there are none. -/
def ofLexemes (stop : Nat) (lexemes : List Lexeme) : Except SyntaxError Expr :=
  Body.ofLexemes (expression stop (lexemes.length + 1) maxDepth 0) lexemes

end Parser

/-- The expression that a text spells. -/
def Expr.parse (text : String) : Except SyntaxError Expr := do
  let lexemes ← Lexer.tokenize text
  Parser.ofLexemes (Lexer.byteSize text.toList) lexemes

end Recalc
