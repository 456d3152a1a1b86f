import Recalc.Proofs.Expr.Payload
import Mathlib.Algebra.GroupWithZero.Nat

/-!
# Budgets of steps

Without a deadline, work charges a certain number of steps and ends with a certain result, whatever
its budget is, as long as the budget has as many steps; with fewer it uses all of them and fails for
that reason (`Metered.Takes`). For an expression the number is at most that of its nodes, and if
there is a value, at least that of the nodes that no choice can leave out (`Expr.evaluate_within`).

So a budget cuts off an evaluation cleanly (`Engine.standard_cutsOff`): it changes the result of
code or of a template only by taking it away, and exactly if it has fewer steps than an evaluation
that is never cut off.
-/

namespace Recalc

/-! ### What work costs -/

namespace Metered

variable {A B : Type}

/-- Without a deadline, the work ends with the result after `cost` steps. With a budget of fewer
steps it uses them all and fails. -/
def Takes (m : Metered A) (result : Except ExprError A) (cost : Nat) : Prop :=
  ∀ left used, m.runWith ⟨left, used, .none⟩ =
    if cost ≤ left then (result, ⟨left - cost, used + cost, .none⟩)
    else (.error .outOfBudget, ⟨0, used + left, .none⟩)

theorem runWith_tick (budget : Budget) : tick.runWith budget =
    (if budget.charge.1 = true then .ok () else .error .outOfBudget, budget.charge.2) := by
  have hrun : tick.runWith budget =
      (if budget.charge.1 then (pure () : Metered Unit) else throw .outOfBudget).runWith
        budget.charge.2 := rfl
  rw [hrun]
  cases budget.charge.1 <;> rfl

namespace Takes

theorem pure (a : A) : Takes (Pure.pure a) (.ok a) 0 := fun _ _ => rfl

theorem throw (error : ExprError) : Takes (MonadExcept.throw error : Metered A) (.error error) 0 :=
  fun _ _ => rfl

theorem tick : Takes tick (.ok ()) 1 := by
  intro left used
  rw [runWith_tick]
  cases left with
  | zero => rfl
  | succ left =>
    -- Without a deadline no step is late, whatever its number is.
    have hcharge : Budget.charge ⟨left + 1, used, .none⟩ = (true, ⟨left, used + 1, .none⟩) := by
      simp [Budget.charge]
    rw [hcharge, if_pos (Nat.le_add_left 1 left)]
    rfl

variable {m : Metered A} {f : A → Metered B} {cost more : Nat}

/-- After a result the work goes on with what is left. -/
theorem bind {a : A} {result : Except ExprError B} (h : m.Takes (.ok a) cost)
    (hf : (f a).Takes result more) : (m >>= f).Takes result (cost + more) := by
  intro left used
  rw [runWith_bind, h]
  by_cases hc : cost ≤ left
  · rw [if_pos hc]
    simp only
    rw [hf]
    by_cases hm : more ≤ left - cost
    · rw [if_pos hm, if_pos (by omega)]
      simp only [Nat.sub_sub, Nat.add_assoc]
    · rw [if_neg hm, if_neg (by omega), Nat.add_assoc, Nat.add_sub_cancel' hc]
  · rw [if_neg hc, if_neg (by omega)]

/-- After a failure nothing more is done. -/
theorem bind_error {error : ExprError} (h : m.Takes (.error error) cost) :
    (m >>= f).Takes (.error error) cost := by
  intro left used
  rw [runWith_bind, h]
  by_cases hc : cost ≤ left
  · rw [if_pos hc, if_pos hc]
  · rw [if_neg hc, if_neg hc]

end Takes

/-- Without a deadline, the work takes at most `most` steps, and at least `least` for a result. -/
def Within (m : Metered A) (least most : Nat) : Prop :=
  ∃ result cost, m.Takes result cost ∧ cost ≤ most ∧ (result.isOk = true → least ≤ cost)

namespace Within

variable {m : Metered A} {f : A → Metered B} {least most least' most' : Nat}

theorem mono (h : m.Within least most) (hl : least' ≤ least) (hm : most ≤ most') :
    m.Within least' most' := by
  obtain ⟨result, cost, ht, hmost, hleast⟩ := h
  exact ⟨result, cost, ht, Nat.le_trans hmost hm, fun hok => Nat.le_trans hl (hleast hok)⟩

theorem pure (a : A) : Within (Pure.pure a) 0 0 :=
  ⟨_, _, .pure a, Nat.le_refl 0, fun _ => Nat.le_refl 0⟩

theorem throw (error : ExprError) (least : Nat) :
    Within (MonadExcept.throw error : Metered A) least 0 :=
  ⟨_, _, .throw error, Nat.le_refl 0, fun h => by cases h⟩

theorem ofExcept (x : Except RuntimeFault A) : Within (Metered.ofExcept x) 0 0 := by
  cases x with
  | ok a => exact .pure a
  | error fault => exact .throw (.runtime fault) 0

theorem bind (h : m.Within least most) (hf : ∀ a, (f a).Within least' most') :
    (m >>= f).Within (least + least') (most + most') := by
  obtain ⟨result, cost, ht, hmost, hleast⟩ := h
  cases result with
  | error error =>
    exact ⟨_, _, ht.bind_error, Nat.le_add_right_of_le hmost, fun hok => by cases hok⟩
  | ok a =>
    obtain ⟨result, more, ht', hmost', hleast'⟩ := hf a
    exact ⟨_, _, ht.bind ht', Nat.add_le_add hmost hmost', fun hok =>
      Nat.add_le_add (hleast rfl) (hleast' hok)⟩

/-- One step is charged before the rest of the work. -/
theorem step (h : m.Within least most) :
    (tick >>= fun _ => m).Within (least + 1) (most + 1) := by
  have htick : tick.Within 1 1 := ⟨_, _, .tick, Nat.le_refl 1, fun _ => Nat.le_refl 1⟩
  exact (htick.bind fun _ => h).mono (Nat.le_of_eq (Nat.add_comm least 1))
    (Nat.le_of_eq (Nat.add_comm 1 most))

/-- An operation at the end charges nothing. -/
theorem bind_ofExcept {f : A → Except RuntimeFault B} (h : m.Within least most) :
    (m >>= fun a => Metered.ofExcept (f a)).Within least most :=
  h.bind fun a => .ofExcept (f a)

/-- Giving back what was found charges nothing. -/
theorem bind_pure {f : A → B} (h : m.Within least most) :
    (m >>= fun a => (Pure.pure (f a) : Metered B)).Within least most :=
  h.bind fun a => .pure (f a)

end Within

end Metered

/-! ### Expressions -/

/-- Whether the left operand may decide the result alone. -/
def BinaryOp.isLazy : BinaryOp → Bool
  | and | or | nullish => true
  | _ => false

theorem Expr.shortCircuit?_of_not_isLazy {operator : BinaryOp} (h : operator.isLazy = false)
    (left : Value) : shortCircuit? operator left = none := by
  cases operator <;> first | rfl | cases h

namespace Expr

mutual

/-- The number of nodes that an evaluation with a value cannot leave out. -/
def needed : Expr → Nat
  | literal _ => 1
  | undefined => 1
  | path _ _ => 1
  | member base _ => base.needed + 1
  | index base key => base.needed + key.needed + 1
  | array items => neededOfItems items + 1
  | unary _ operand => operand.needed + 1
  | binary operator left right => left.needed + (if operator.isLazy then 0 else right.needed) + 1
  | conditional condition whenTrue whenFalse =>
    condition.needed + min whenTrue.needed whenFalse.needed + 1

/-- The number of nodes of the items that cannot be left out. -/
def neededOfItems : List Expr → Nat
  | [] => 0
  | item :: rest => item.needed + neededOfItems rest

end

open Metered

mutual

/-- **An expression charges one step for each node that is evaluated.** -/
theorem evaluate_within (scope : Scope) (expr : Expr) :
    (evaluate scope expr).Within expr.needed expr.size := by
  match expr with
  | literal value =>
    rw [evaluate]
    exact (Within.pure _).step
  | undefined =>
    rw [evaluate]
    exact (Within.pure _).step
  | path root members =>
    rw [evaluate]
    exact (Within.ofExcept _).step
  | member base name =>
    rw [evaluate]
    exact (evaluate_within scope base).bind_ofExcept.step
  | index base key =>
    rw [evaluate]
    exact ((evaluate_within scope base).bind fun _ =>
      (evaluate_within scope key).bind_ofExcept).step
  | array items =>
    rw [evaluate]
    exact (evaluateItems_within scope items).bind_pure.step
  | unary operator operand =>
    rw [evaluate]
    exact (evaluate_within scope operand).bind_ofExcept.step
  | binary operator left right =>
    rw [evaluate]
    refine ((evaluate_within scope left).bind fun value => ?_).step
    have hright : (evaluate scope right >>= fun other =>
        Metered.ofExcept (applyBinary operator value other)).Within right.needed right.size :=
      (evaluate_within scope right).bind_ofExcept
    cases hlazy : operator.isLazy with
    | true =>
      -- The right operand may be left out.
      rw [if_pos rfl]
      cases shortCircuit? operator value with
      | some value => exact (Within.pure value).mono (Nat.le_refl 0) (Nat.zero_le _)
      | none => exact hright.mono (Nat.zero_le _) (Nat.le_refl _)
    | false =>
      rw [if_neg (by simp), shortCircuit?_of_not_isLazy hlazy]
      exact hright
  | conditional condition whenTrue whenFalse =>
    rw [evaluate]
    have hbranch : ∀ value : Value, Within (if value.isTruthy = true then evaluate scope whenTrue
        else evaluate scope whenFalse) (min whenTrue.needed whenFalse.needed)
        (whenTrue.size + whenFalse.size) := by
      intro value
      split
      · exact (evaluate_within scope whenTrue).mono (Nat.min_le_left _ _) (Nat.le_add_right _ _)
      · exact (evaluate_within scope whenFalse).mono (Nat.min_le_right _ _) (Nat.le_add_left _ _)
    refine ((evaluate_within scope condition).bind hbranch).step.mono (Nat.le_refl _) ?_
    rw [size]
    omega

theorem evaluateItems_within (scope : Scope) (items : List Expr) :
    (evaluateItems scope items).Within (neededOfItems items) (sizeOfItems items) := by
  match items with
  | [] =>
    rw [evaluateItems]
    exact .pure []
  | item :: rest =>
    rw [evaluateItems]
    exact (evaluate_within scope item).bind fun _ => (evaluateItems_within scope rest).bind_pure

end

/-- A number of nodes of the expression that a text spells, and zero if it spells none. -/
def countIn (count : Expr → Nat) (code : String) : Nat :=
  match parse code with
  | .ok expr => count expr
  | .error _ => 0

end Expr

/-! ### Code and templates -/

namespace Engine

open Metered

theorem run_standard_within (scope : Scope) (code : String) :
    (standard.run scope code).Within (Expr.countIn Expr.needed code)
      (Expr.countIn Expr.size code) := by
  simp only [standard, Expr.countIn]
  cases Expr.parse code with
  | ok expr => exact expr.evaluate_within scope
  | error error => exact .throw (.malformed error) 0

/-- The codes among the segments. -/
def codesIn (segments : List Segment) : List String :=
  segments.filterMap fun
    | .binding code => some code
    | .text _ => none

theorem fill_standard_within (scope : Scope) (segments : List Segment) :
    (standard.fill scope segments).Within
      ((codesIn segments).map (Expr.countIn Expr.needed)).sum
      ((codesIn segments).map (Expr.countIn Expr.size)).sum := by
  induction segments with
  | nil => exact .pure ""
  | cons segment segments ih =>
    cases segment with
    | text content => exact ih.bind_pure
    | binding code => exact (run_standard_within scope code).bind fun _ => ih.bind_pure

theorem evaluateTemplate_standard_within (scope : Scope) (text : String) :
    (standard.evaluateTemplate scope text).Within
      ((Template.codes text).map (Expr.countIn Expr.needed)).sum
      ((Template.codes text).map (Expr.countIn Expr.size)).sum := by
  have hcodes : Template.codes text = codesIn (Template.segments text) := rfl
  rw [hcodes, evaluateTemplate]
  split
  · rename_i code he
    rw [he]
    exact run_standard_within scope code
  · exact (fill_standard_within scope _).bind_pure

end Engine

/-! ### Budgets -/

/-- An evaluation that is never cut off tells what becomes of it under any budget of steps: its
result after as many steps, or all steps of the budget and no result. -/
structure Metered.CutsOff {A : Type} (m : Metered A) (least most : Nat) : Prop where
  /-- The number of its steps is at most the greatest. -/
  bounded : (m.runWith .unlimited).2.used ≤ most
  /-- With a result, the number of its steps is at least the least. -/
  charged : (m.runWith .unlimited).1.isOk = true → least ≤ (m.runWith .unlimited).2.used
  /-- With at least as many steps there is the same result after the same number of steps. -/
  enough : ∀ steps : UInt64, (m.runWith .unlimited).2.used ≤ steps.toNat →
    (m.runWith (.ofSteps steps.toNat .none)).1 = (m.runWith .unlimited).1 ∧
      (m.runWith (.ofSteps steps.toNat .none)).2.used = (m.runWith .unlimited).2.used
  /-- With fewer steps all of them are used, and the budget is spent. -/
  short : ∀ steps : UInt64, steps.toNat < (m.runWith .unlimited).2.used →
    (m.runWith (.ofSteps steps.toNat .none)).1 = .error .outOfBudget ∧
      (m.runWith (.ofSteps steps.toNat .none)).2.used = steps.toNat

theorem Metered.Within.cutsOff {A : Type} {m : Metered A} {least most : Nat}
    (h : m.Within least most) : m.CutsOff least most := by
  obtain ⟨result, cost, ht, hmost, hleast⟩ := h
  have hrun : ∀ steps, m.runWith (.ofSteps steps .none) =
      if cost ≤ steps then (result, ⟨steps - cost, cost, .none⟩)
      else (.error .outOfBudget, ⟨0, steps, .none⟩) := by
    intro steps
    have h := ht steps 0
    rwa [Nat.zero_add, Nat.zero_add] at h
  have hunlimited := hrun (Nat.pow 2 64 - 1)
  rw [← Budget.unlimited] at hunlimited
  have hsize : ∀ steps : UInt64, steps.toNat ≤ Nat.pow 2 64 - 1 := fun steps =>
    Nat.le_sub_one_of_lt steps.toNat_lt
  by_cases hc : cost ≤ Nat.pow 2 64 - 1
  · rw [if_pos hc] at hunlimited
    refine ⟨?_, ?_, fun steps hs => ?_, fun steps hs => ?_⟩ <;> rw [hunlimited] at *
    · exact hmost
    · exact hleast
    · rw [hrun, if_pos hs]
      exact ⟨rfl, rfl⟩
    · rw [hrun, if_neg (Nat.not_le.2 hs)]
      exact ⟨rfl, rfl⟩
  · -- The evaluation takes more steps than a budget can have, so each budget cuts it off.
    have hshort : ∀ steps : UInt64, m.runWith (.ofSteps steps.toNat .none) =
        (.error .outOfBudget, ⟨0, steps.toNat, .none⟩) := fun steps => by
      rw [hrun, if_neg fun hs => hc (Nat.le_trans hs (hsize steps))]
    rw [if_neg hc] at hunlimited
    refine ⟨?_, fun hok => ?_, fun steps hs => ?_, fun steps hs => ?_⟩ <;> rw [hunlimited] at *
    · exact Nat.le_trans (Nat.le_of_not_le hc) hmost
    · cases hok
    · rw [hshort]
      exact ⟨rfl, Nat.le_antisymm (hsize steps) hs⟩
    · rw [hshort]
      exact ⟨rfl, rfl⟩

/-- **A budget of steps cuts off cleanly**: run as code or as a template, against any scope, a text
takes one step for each node that is evaluated, and with fewer steps it uses all of them and
fails. -/
theorem Engine.standard_cutsOff (scope : Scope) (text : String) :
    (standard.run scope text).CutsOff (Expr.countIn Expr.needed text)
        (Expr.countIn Expr.size text) ∧
      (standard.evaluateTemplate scope text).CutsOff
        ((Template.codes text).map (Expr.countIn Expr.needed)).sum
        ((Template.codes text).map (Expr.countIn Expr.size)).sum :=
  ⟨(run_standard_within scope text).cutsOff, (evaluateTemplate_standard_within scope text).cutsOff⟩

end Recalc
