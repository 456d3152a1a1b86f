import Recalc.Expr.Error
import Recalc.Number.Remainder
import Recalc.Number.Reading

/-!
# Operations on values

The operations behind the operators of the expression language. Arithmetic goes through floats and
gives whole numbers back where it can; `+` joins texts as soon as one operand is a text; `==`
compares numbers as floats, the nullish values as one, and all else by content.
-/

namespace Recalc.Operation

/-- The truth value as a value. -/
def ofBool (b : Bool) : Value := .data (.bool b)

/-- The value of a computed number. -/
def ofFloat (x : Float) : Except RuntimeFault Value :=
  match Json.Number.ofFloat? x with
  | some n => .ok (.data (.number n))
  | none => .error .notFinite

/-- The property `name` of a value. Texts and lists have a length. -/
def member (base : Value) (name : String) : Except RuntimeFault Value :=
  match base.payload? with
  | none => .error (.propertyOfUndefined name)
  | some .null => .error (.propertyOfNull name)
  | some (.string s) =>
    .ok (if name = "length" then .data (.ofNat s.length) else base.navigate [name])
  | some (.array items) =>
    .ok (if name = "length" then .data (.ofNat items.length) else base.navigate [name])
  | some _ => .ok (base.navigate [name])

/-- The part of a value that an index names: a number by its text, a text as it is. -/
def index (base key : Value) : Except RuntimeFault Value :=
  match key.payload? with
  | some (.number n) => do
    let number ← ofFloat n.toFloat
    member base number.display
  | some (.string s) => member base s
  | _ => .error (.invalidIndex key)

/-- The number that an operand of arithmetic stands for. -/
def toFloat (operator : String) (operand : Value) : Except RuntimeFault Float :=
  let refused : Except RuntimeFault Float := .error (.invalidOperand operator operand)
  match operand.payload? with
  | some (.number n) => .ok n.toFloat
  | some (.bool b) => .ok (if b then 1.0 else 0.0)
  | some .null => .ok 0.0
  | some (.string s) =>
    match Number.read? (Text.trim s.toList) with
    | some x => .ok x
    | none => refused
  | _ => refused

/-- Whether the value is a text. -/
def isText (v : Value) : Bool :=
  match v.payload? with
  | some (.string _) => true
  | _ => false

/-- An operation on two floats. -/
def arithmetic (operator : String) (f : Float → Float → Float) (left right : Value) :
    Except RuntimeFault Value := do
  let a ← toFloat operator left
  let b ← toFloat operator right
  ofFloat (f a b)

/-- A division, or the remainder of one. -/
def divide (operator : String) (f : Float → Float → Float) (left right : Value) :
    Except RuntimeFault Value := do
  let a ← toFloat operator left
  let b ← toFloat operator right
  if b == 0.0 then throw .divisionByZero
  ofFloat (f a b)

/-- The sum of two numbers, or two texts joined. -/
def add (left right : Value) : Except RuntimeFault Value :=
  if isText left || isText right then .ok (.data (.string (left.display ++ right.display)))
  else arithmetic "+" (· + ·) left right

/-- Equality as expressions see it. -/
def looseEq (left right : Value) : Bool :=
  if left.isNullish && right.isNullish then true
  else
    match left.payload?, right.payload? with
    | some (.number a), some (.number b) => a.toFloat == b.toFloat
    | some a, some b => a == b
    | _, _ => false

/-- The order of two floats, unless one is no number. -/
def compareFloat? (a b : Float) : Option Ordering :=
  if a < b then some .lt else if b < a then some .gt else if a == b then some .eq else none

/-- The order of two values: texts by code points, all else as numbers. -/
def compare? (left right : Value) : Option Ordering := do
  let a ← left.payload?
  let b ← right.payload?
  match a, b with
  | .string a, .string b => some (compare a b)
  | a, b =>
    match toFloat "<" (.data a), toFloat "<" (.data b) with
    | .ok a, .ok b => compareFloat? a b
    | _, _ => none

/-- Whether two values have one of the given orders. -/
def ordered (orders : List Ordering) (left right : Value) : Value :=
  ofBool ((compare? left right).any orders.contains)

end Recalc.Operation
