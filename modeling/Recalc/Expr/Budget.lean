import Recalc.Expr.Error

/-!
# Budgets

A budget limits the steps of one evaluation and, through a deadline, its time. The clock is read
only with every 64th step. Work that draws on a budget is `Metered`: it ends with a result or a
failure, and with what is left of the budget either way.
-/

namespace Recalc

/-- A limit in time, as the clock stands during an evaluation. -/
inductive Deadline where
  /-- There is no limit. -/
  | none
  /-- The limit is ahead. -/
  | ahead
  /-- The limit has passed. -/
  | passed
  deriving DecidableEq

/-- An allowance of steps and time. -/
structure Budget where
  /-- The steps that may still be charged. -/
  left : Nat
  /-- The steps charged so far. -/
  used : Nat
  /-- The limit in time. -/
  deadline : Deadline
  deriving DecidableEq

namespace Budget

/-- The number of steps between two looks at the clock. -/
def clockInterval : Nat := 64

/-- An allowance of the given number of steps. -/
def ofSteps (steps : Nat) (deadline : Deadline) : Budget := ⟨steps, 0, deadline⟩

/-- An allowance that is never used up: as many steps as a 64-bit word counts. -/
def unlimited : Budget := ofSteps (Nat.pow 2 64 - 1) .none

/-- Charges one step, and says whether the work may go on. Nothing is charged if no step is left. -/
def charge (b : Budget) : Bool × Budget :=
  if b.left = 0 then (false, b)
  else
    let used := b.used + 1
    let late := used % clockInterval = 0 && b.deadline = .passed
    (!late, { b with left := b.left - 1, used })

/-- Charges `count` steps one after another, and lists the numbers of those that were refused,
counted from `first`. -/
def refused (first : Nat) : Nat → Budget → List Nat × Budget
  | 0, b => ([], b)
  | count + 1, b =>
    let (granted, b) := b.charge
    let (later, b) := refused (first + 1) count b
    (if granted then later else first :: later, b)

end Budget

/-- Work that draws on a budget and may fail. -/
abbrev Metered (α : Type) := ExceptT ExprError (StateM Budget) α

namespace Metered

/-- Charges one step, and fails if the budget does not allow it. -/
def tick : Metered Unit := do
  let budget ← get
  let (granted, budget) := budget.charge
  set budget
  if granted then return () else throw .outOfBudget

/-- An operation that charges nothing. -/
def ofExcept {α : Type} : Except RuntimeFault α → Metered α
  | .ok a => return a
  | .error fault => throw (.runtime fault)

/-- The outcome of the work, and the budget after it. -/
def runWith {α : Type} (work : Metered α) (budget : Budget) : Except ExprError α × Budget :=
  (ExceptT.run work).run budget

end Metered

end Recalc
