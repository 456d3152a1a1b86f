import Recalc.Expr.Token
import Recalc.Json.Basic

/-!
# Expressions

The trees of the expression language. A name with the members that follow it is one node, a path,
which is read as a whole; members and indices of anything else are nodes of their own.
-/

namespace Recalc

/-- An operator with one operand. -/
inductive UnaryOp where
  /-- The operator `!`. -/
  | not
  /-- The operator `-`. -/
  | neg
  /-- The operator `+`. -/
  | plus
  deriving DecidableEq

/-- An operator with two operands. -/
inductive BinaryOp where
  /-- The operator `+`. -/
  | add
  /-- The operator `-`. -/
  | sub
  /-- The operator `*`. -/
  | mul
  /-- The operator `/`. -/
  | div
  /-- The operator `%`. -/
  | rem
  /-- The operator `==`. -/
  | eq
  /-- The operator `!=`. -/
  | notEq
  /-- The operator `<`. -/
  | lt
  /-- The operator `<=`. -/
  | le
  /-- The operator `>`. -/
  | gt
  /-- The operator `>=`. -/
  | ge
  /-- The operator `&&`. -/
  | and
  /-- The operator `||`. -/
  | or
  /-- The operator `??`. -/
  | nullish
  deriving DecidableEq

/-- An expression. -/
inductive Expr where
  /-- A value written out. -/
  | literal (value : Json)
  /-- No value. -/
  | undefined
  /-- A name and the members read from it. -/
  | path (root : String) (members : List String)
  /-- A member of another expression. -/
  | member (base : Expr) (name : String)
  /-- The part of `base` that the value of `key` names. -/
  | index (base key : Expr)
  /-- A list. -/
  | array (items : List Expr)
  /-- An operator with its operand. -/
  | unary (operator : UnaryOp) (operand : Expr)
  /-- An operator with its operands. -/
  | binary (operator : BinaryOp) (left right : Expr)
  /-- A choice between two expressions. -/
  | conditional (condition whenTrue whenFalse : Expr)

namespace UnaryOp

/-- The operator that a mark in front of an operand stands for. -/
def ofPunct? : Punct → Option UnaryOp
  | .bang => some not
  | .minus => some neg
  | .plus => some plus
  | _ => none

end UnaryOp

namespace BinaryOp

/-- The operator that a mark between operands stands for. -/
def ofPunct? : Punct → Option BinaryOp
  | .nullish => some nullish
  | .orOr => some or
  | .andAnd => some and
  | .eqEq => some eq
  | .notEq => some notEq
  | .lt => some lt
  | .le => some le
  | .gt => some gt
  | .ge => some ge
  | .plus => some add
  | .minus => some sub
  | .star => some mul
  | .slash => some div
  | .percent => some rem
  | _ => none

/-- How strongly the operator binds. -/
def level : BinaryOp → Nat
  | nullish => 1
  | or => 2
  | and => 3
  | eq | notEq => 4
  | lt | le | gt | ge => 5
  | add | sub => 6
  | mul | div | rem => 7

end BinaryOp

namespace Expr

instance : Inhabited Expr := ⟨.undefined⟩

mutual

/-- The depth of a tree; a leaf has depth one. -/
def depth : Expr → Nat
  | literal _ => 1
  | undefined => 1
  | path _ _ => 1
  | member base _ => base.depth + 1
  | index base key => max base.depth key.depth + 1
  | array items => depthOfItems items + 1
  | unary _ operand => operand.depth + 1
  | binary _ left right => max left.depth right.depth + 1
  | conditional condition whenTrue whenFalse =>
    max (max condition.depth whenTrue.depth) whenFalse.depth + 1

/-- The greatest depth of the items; zero if there are none. -/
def depthOfItems : List Expr → Nat
  | [] => 0
  | item :: rest => max item.depth (depthOfItems rest)

end

mutual

/-- The number of nodes of a tree. -/
def size : Expr → Nat
  | literal _ => 1
  | undefined => 1
  | path _ _ => 1
  | member base _ => base.size + 1
  | index base key => base.size + key.size + 1
  | array items => sizeOfItems items + 1
  | unary _ operand => operand.size + 1
  | binary _ left right => left.size + right.size + 1
  | conditional condition whenTrue whenFalse => condition.size + whenTrue.size + whenFalse.size + 1

/-- The number of nodes of the items together. -/
def sizeOfItems : List Expr → Nat
  | [] => 0
  | item :: rest => item.size + sizeOfItems rest

end

end Expr

end Recalc
