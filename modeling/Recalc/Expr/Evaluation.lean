import Recalc.Expr.Budget
import Recalc.Expr.Operation
import Recalc.Expr.Parser
import Recalc.Template

/-!
# Evaluating expressions

An expression is evaluated against a scope, which answers what lives at a list of segments. One step
is charged for each node, before anything else is done for it; `&&`, `||`, `??` and the conditional
evaluate only the operands they need.

A path is read from its longest initial part at which the scope knows a value, and the rest are
members of that value.
-/

namespace Recalc

/-- What an expression can see. -/
structure Scope where
  /-- The value at a list of segments, if something lives there. -/
  lookup : List String → Option Value
  /-- Whether the name is an entity. -/
  isDefined : String → Bool

/-- A way to run the code of bindings. -/
structure Engine where
  /-- Runs code against a scope. -/
  run : Scope → String → Metered Value

namespace Expr

/-- What the scope knows at the first `count` members of a path, and the members after them. An
undefined value counts only for the name alone. -/
def known? (scope : Scope) (root : String) (members : List String) (count : Nat) :
    Option (Value × List String) :=
  match scope.lookup (root :: members.take count) with
  | none => none
  | some value => if value.isUndefined && 0 < count then none else some (value, members.drop count)

/-- The value of a path. -/
def readPath (scope : Scope) (root : String) (members : List String) : Except RuntimeFault Value :=
  match (List.range (members.length + 1)).reverse.findSome? (known? scope root members) with
  | some (value, rest) => rest.foldlM Operation.member value
  | none => if scope.isDefined root then .ok .undefined else .error (.notDefined root)

/-- The value of an operator with its operand. -/
def applyUnary : UnaryOp → Value → Except RuntimeFault Value
  | .not, v => .ok (Operation.ofBool !v.isTruthy)
  | .neg, v => do Operation.ofFloat (-(← Operation.toFloat "-" v))
  | .plus, v => do Operation.ofFloat (← Operation.toFloat "+" v)

/-- The result of an operator that its left operand decides alone. -/
def shortCircuit? : BinaryOp → Value → Option Value
  | .and, left => if left.isTruthy then none else some left
  | .or, left => if left.isTruthy then some left else none
  | .nullish, left => if left.isNullish then none else some left
  | _, _ => none

/-- The value of an operator with both operands. -/
def applyBinary : BinaryOp → Value → Value → Except RuntimeFault Value
  | .add, left, right => Operation.add left right
  | .sub, left, right => Operation.arithmetic "-" (· - ·) left right
  | .mul, left, right => Operation.arithmetic "*" (· * ·) left right
  | .div, left, right => Operation.divide "/" (· / ·) left right
  | .rem, left, right => Operation.divide "%" Number.remainder left right
  | .eq, left, right => .ok (Operation.ofBool (Operation.looseEq left right))
  | .notEq, left, right => .ok (Operation.ofBool !(Operation.looseEq left right))
  | .lt, left, right => .ok (Operation.ordered [.lt] left right)
  | .le, left, right => .ok (Operation.ordered [.lt, .eq] left right)
  | .gt, left, right => .ok (Operation.ordered [.gt] left right)
  | .ge, left, right => .ok (Operation.ordered [.gt, .eq] left right)
  | .and, _, right => .ok right
  | .or, _, right => .ok right
  | .nullish, _, right => .ok right

mutual

/-- The value of an expression. -/
def evaluate (scope : Scope) : Expr → Metered Value
  | literal value => do
    Metered.tick
    return .data value
  | undefined => do
    Metered.tick
    return .undefined
  | path root members => do
    Metered.tick
    Metered.ofExcept (readPath scope root members)
  | member base name => do
    Metered.tick
    let base ← evaluate scope base
    Metered.ofExcept (Operation.member base name)
  | index base key => do
    Metered.tick
    let base ← evaluate scope base
    let key ← evaluate scope key
    Metered.ofExcept (Operation.index base key)
  | array items => do
    Metered.tick
    let values ← evaluateItems scope items
    return .data (.array values)
  | unary operator operand => do
    Metered.tick
    let operand ← evaluate scope operand
    Metered.ofExcept (applyUnary operator operand)
  | binary operator left right => do
    Metered.tick
    let left ← evaluate scope left
    match shortCircuit? operator left with
    | some value => return value
    | none =>
      let right ← evaluate scope right
      Metered.ofExcept (applyBinary operator left right)
  | conditional condition whenTrue whenFalse => do
    Metered.tick
    let condition ← evaluate scope condition
    if condition.isTruthy then evaluate scope whenTrue else evaluate scope whenFalse

/-- The payloads of the items of a list, where no value counts as `null`. -/
def evaluateItems (scope : Scope) : List Expr → Metered (List Json)
  | [] => return []
  | item :: rest => do
    let value ← evaluate scope item
    let values ← evaluateItems scope rest
    return value.toJson :: values

end

end Expr

namespace Engine

/-- The engine of the expression language. -/
def standard : Engine where
  run scope code :=
    match Expr.parse code with
    | .ok expr => expr.evaluate scope
    | .error error => throw (.malformed error)

/-- The engine that charges one step and gives the code back as a text. -/
def echo : Engine where
  run _ code := do
    Metered.tick
    return .data (.string code)

/-- The text of a template with the value of each binding in its place. -/
def fill (engine : Engine) (scope : Scope) : List Segment → Metered String
  | [] => return ""
  | .text content :: rest => do
    let text ← engine.fill scope rest
    return content ++ text
  | .binding code :: rest => do
    let value ← engine.run scope code
    let text ← engine.fill scope rest
    return value.templateText ++ text

/-- The value of a template. A template that is one binding has the value of the binding; any other
is a text. -/
def evaluateTemplate (engine : Engine) (scope : Scope) (text : String) : Metered Value :=
  match Template.segments text with
  | [.binding code] => engine.run scope code
  | segments => do
    let text ← engine.fill scope segments
    return .data (.string text)

end Engine

end Recalc
