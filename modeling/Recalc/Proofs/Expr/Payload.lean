import Recalc.Expr.Evaluation
import Recalc.Proofs.Expr.Names

/-!
# Evaluation goes by payloads

What an expression evaluates to depends on the payloads of the values it reads only: against two
scopes in which the names of an expression have the same payloads, it has values with the same
payload, and the same budget is left, or it fails in both, and the failures are worded the same
(`Expr.evaluate_alike`). The values that the failures show may differ.
-/

namespace Recalc

/-! ### Failures that are worded the same -/

/-- The faults are worded the same. -/
def RuntimeFault.Same (f f' : RuntimeFault) : Prop := f.message = f'.message

theorem RuntimeFault.Same.refl (f : RuntimeFault) : f.Same f := rfl

/-- The failures are of the same kind and worded the same. -/
inductive ExprError.Same : ExprError → ExprError → Prop where
  /-- The same malformed text. -/
  | malformed (error : SyntaxError) : Same (.malformed error) (.malformed error)
  /-- Operations without a result. -/
  | runtime {f f' : RuntimeFault} (h : f.Same f') : Same (.runtime f) (.runtime f')
  /-- Two spent budgets. -/
  | outOfBudget : Same .outOfBudget .outOfBudget

theorem ExprError.Same.refl (e : ExprError) : e.Same e := by
  cases e with
  | malformed error => exact .malformed error
  | runtime fault => exact .runtime (.refl fault)
  | outOfBudget => exact .outOfBudget

/-- Both results are failures, or both are there, and they are related. -/
inductive Agree {E A : Type} (T : E → E → Prop) (R : A → A → Prop) :
    Except E A → Except E A → Prop where
  /-- Two results. -/
  | ok {a a' : A} (h : R a a') : Agree T R (.ok a) (.ok a')
  /-- Two failures. -/
  | error {e e' : E} (h : T e e') : Agree T R (.error e) (.error e')

namespace Agree

variable {E A B : Type} {T : E → E → Prop} {R : A → A → Prop} {S : B → B → Prop}

theorem refl_of {x : Except E A} (ht : ∀ e, T e e) (h : ∀ a, R a a) : Agree T R x x := by
  cases x with
  | error e => exact .error (ht e)
  | ok a => exact .ok (h a)

theorem bind {x x' : Except E A} (h : Agree T R x x') {f f' : A → Except E B}
    (hf : ∀ a a', R a a' → Agree T S (f a) (f' a')) : Agree T S (x >>= f) (x' >>= f') := by
  cases h with
  | error h => exact .error h
  | ok h => exact hf _ _ h

end Agree

/-! ### Values with the same payload -/

/-- The values have the same payload, or none. -/
def SamePayload (v w : Value) : Prop := v.payload? = w.payload?

namespace SamePayload

variable {v w : Value} (h : SamePayload v w)
include h

theorem isUndefined : v.isUndefined = w.isUndefined := by
  rw [Bool.eq_iff_iff, Value.isUndefined_iff, Value.isUndefined_iff, h]

theorem isNullish : v.isNullish = w.isNullish := by rw [Value.isNullish, Value.isNullish, h]

theorem isTruthy : v.isTruthy = w.isTruthy := by rw [Value.isTruthy, Value.isTruthy, h]

theorem display : v.display = w.display := by rw [Value.display, Value.display, h]

theorem templateText : v.templateText = w.templateText := by
  rw [Value.templateText, Value.templateText, h.isNullish, h.display]

theorem toJson : v.toJson = w.toJson := by rw [Value.toJson, Value.toJson, h]

theorem navigate (segments : List String) : v.navigate segments = w.navigate segments := by
  rw [Value.navigate, Value.navigate, h]

theorem member (name : String) : Operation.member v name = Operation.member w name := by
  rw [Operation.member, Operation.member, h, h.navigate]

theorem isText : Operation.isText v = Operation.isText w := by
  rw [Operation.isText, Operation.isText, h]

theorem operandText : RuntimeFault.operandText v = RuntimeFault.operandText w := by
  rw [RuntimeFault.operandText, RuntimeFault.operandText, h, h.display]

/-- The operands are refused with the same words. -/
theorem invalidOperand (operator : String) :
    (RuntimeFault.invalidOperand operator v).Same (.invalidOperand operator w) :=
  congrArg ("cannot apply '" ++ operator ++ "' to " ++ ·) h.operandText

theorem toFloat (operator : String) : Agree RuntimeFault.Same (· = ·)
    (Operation.toFloat operator v) (Operation.toFloat operator w) := by
  rw [Operation.toFloat, Operation.toFloat, h]
  split
  · exact .ok rfl
  · exact .ok rfl
  · exact .ok rfl
  · split
    · exact .ok rfl
    · exact .error (h.invalidOperand operator)
  · exact .error (h.invalidOperand operator)

end SamePayload

namespace Operation

variable {v w v' w' : Value} (h : SamePayload v w) (h' : SamePayload v' w')
include h h'

theorem index_agree : Agree RuntimeFault.Same SamePayload (index v v') (index w w') := by
  rw [index, index, h']
  split
  · refine Agree.bind (R := (· = ·)) (Agree.refl_of RuntimeFault.Same.refl fun _ => rfl) ?_
    rintro number _ rfl
    exact h.member _ ▸ Agree.refl_of RuntimeFault.Same.refl fun _ => rfl
  · exact h.member _ ▸ Agree.refl_of RuntimeFault.Same.refl fun _ => rfl
  · exact .error (congrArg ("cannot index with " ++ ·) h'.display)

theorem arithmetic_agree (operator : String) (f : Float → Float → Float) :
    Agree RuntimeFault.Same SamePayload (arithmetic operator f v v')
      (arithmetic operator f w w') := by
  refine (h.toFloat operator).bind ?_
  rintro a _ rfl
  refine (h'.toFloat operator).bind ?_
  rintro b _ rfl
  exact Agree.refl_of RuntimeFault.Same.refl fun _ => rfl

theorem divide_agree (operator : String) (f : Float → Float → Float) :
    Agree RuntimeFault.Same SamePayload (divide operator f v v') (divide operator f w w') := by
  refine (h.toFloat operator).bind ?_
  rintro a _ rfl
  refine (h'.toFloat operator).bind ?_
  rintro b _ rfl
  exact Agree.refl_of RuntimeFault.Same.refl fun _ => rfl

theorem add_agree : Agree RuntimeFault.Same SamePayload (add v v') (add w w') := by
  rw [add, add, h.isText, h'.isText, h.display, h'.display]
  split
  · exact .ok rfl
  · exact arithmetic_agree h h' "+" _

theorem looseEq_congr : looseEq v v' = looseEq w w' := by
  rw [looseEq, looseEq, h.isNullish, h'.isNullish, h, h']

theorem ordered_congr (orders : List Ordering) : ordered orders v v' = ordered orders w w' := by
  rw [ordered, ordered, compare?, compare?, h, h']

end Operation

namespace Expr

theorem applyUnary_agree {v w : Value} (h : SamePayload v w) (operator : UnaryOp) :
    Agree RuntimeFault.Same SamePayload (applyUnary operator v) (applyUnary operator w) := by
  cases operator with
  | not =>
    rw [applyUnary, applyUnary, h.isTruthy]
    exact .ok rfl
  | neg =>
    refine (h.toFloat "-").bind ?_
    rintro a _ rfl
    exact Agree.refl_of RuntimeFault.Same.refl fun _ => rfl
  | plus =>
    refine (h.toFloat "+").bind ?_
    rintro a _ rfl
    exact Agree.refl_of RuntimeFault.Same.refl fun _ => rfl

theorem applyBinary_agree {v w v' w' : Value} (h : SamePayload v w) (h' : SamePayload v' w')
    (operator : BinaryOp) :
    Agree RuntimeFault.Same SamePayload (applyBinary operator v v')
      (applyBinary operator w w') := by
  cases operator with
  | add => exact Operation.add_agree h h'
  | sub => exact Operation.arithmetic_agree h h' "-" _
  | mul => exact Operation.arithmetic_agree h h' "*" _
  | div => exact Operation.divide_agree h h' "/" _
  | rem => exact Operation.divide_agree h h' "%" _
  | eq =>
    exact .ok (congrArg (fun b => (Operation.ofBool b).payload?) (Operation.looseEq_congr h h'))
  | notEq =>
    exact .ok (congrArg (fun b => (Operation.ofBool !b).payload?) (Operation.looseEq_congr h h'))
  | lt => exact .ok (congrArg Value.payload? (Operation.ordered_congr h h' _))
  | le => exact .ok (congrArg Value.payload? (Operation.ordered_congr h h' _))
  | gt => exact .ok (congrArg Value.payload? (Operation.ordered_congr h h' _))
  | ge => exact .ok (congrArg Value.payload? (Operation.ordered_congr h h' _))
  | and => exact .ok h'
  | or => exact .ok h'
  | nullish => exact .ok h'

/-- Both operators are decided by their left operands, or neither is. -/
theorem shortCircuit?_congr {v w : Value} (h : SamePayload v w) (operator : BinaryOp) :
    shortCircuit? operator v = none ∧ shortCircuit? operator w = none ∨
      shortCircuit? operator v = some v ∧ shortCircuit? operator w = some w := by
  cases operator with
  | and =>
    rw [shortCircuit?, shortCircuit?, h.isTruthy]
    split <;> simp
  | or =>
    rw [shortCircuit?, shortCircuit?, h.isTruthy]
    split <;> simp
  | nullish =>
    rw [shortCircuit?, shortCircuit?, h.isNullish]
    split <;> simp
  | _ => exact .inl ⟨rfl, rfl⟩

end Expr

/-! ### Metered work -/

namespace Metered

variable {A B : Type} {R : A → A → Prop} {S : B → B → Prop}

/-- Both outcomes are failures that are worded the same, or both are results that are related, with
the same budget left. -/
inductive Ends (R : A → A → Prop) :
    Except ExprError A × Budget → Except ExprError A × Budget → Prop where
  /-- Two results. -/
  | ok {a a' : A} (h : R a a') (left : Budget) : Ends R (.ok a, left) (.ok a', left)
  /-- Two failures. -/
  | error {e e' : ExprError} (h : e.Same e') (left left' : Budget) :
    Ends R (.error e, left) (.error e', left')

/-- From every budget the two pieces of work end alike. -/
def Alike (R : A → A → Prop) (m m' : Metered A) : Prop :=
  ∀ budget, Ends R (m.runWith budget) (m'.runWith budget)

theorem Alike.refl_of (m : Metered A) (h : ∀ a, R a a) : Alike R m m := by
  intro budget
  cases m.runWith budget with
  | mk result left =>
    cases result with
    | error e => exact .error (.refl e) _ _
    | ok a => exact .ok (h a) _

theorem Alike.pure {a a' : A} (h : R a a') : Alike R (Pure.pure a) (Pure.pure a') :=
  fun budget => .ok h budget

theorem runWith_bind (m : Metered A) (f : A → Metered B) (budget : Budget) :
    (m >>= f).runWith budget =
      match m.runWith budget with
      | (.ok a, left) => (f a).runWith left
      | (.error e, left) => (.error e, left) := by
  change (StateT.bind (m : StateM Budget (Except ExprError A)) (ExceptT.bindCont f)) budget = _
  simp only [StateT.bind, runWith, ExceptT.run, StateT.run]
  obtain ⟨result, left⟩ := m budget
  cases result <;> rfl

theorem Alike.bind {m m' : Metered A} (h : Alike R m m') {f f' : A → Metered B}
    (hf : ∀ a a', R a a' → Alike S (f a) (f' a')) : Alike S (m >>= f) (m' >>= f') := by
  intro budget
  rw [runWith_bind, runWith_bind]
  have hb := h budget
  generalize m.runWith budget = outcome, m'.runWith budget = outcome' at hb
  cases hb with
  | ok h left => exact hf _ _ h left
  | error h left left' => exact .error h _ _

theorem Alike.ofExcept {x x' : Except RuntimeFault A} (h : Agree RuntimeFault.Same R x x') :
    Alike R (Metered.ofExcept x) (Metered.ofExcept x') := by
  cases h with
  | ok h => exact .pure h
  | error h => exact fun budget => .error (.runtime h) _ _

theorem Alike.bind_tick {m m' : Metered A} (h : Alike R m m') :
    Alike R (tick >>= fun _ => m) (tick >>= fun _ => m') :=
  (Alike.refl_of tick fun _ => (rfl : () = ())).bind fun _ _ _ => h

end Metered

/-! ### Expressions and templates -/

/-- The names have the same payloads against the two scopes. -/
def Scope.SameNames (scope scope' : Scope) (names : List (String × List String)) : Prop :=
  ∀ x ∈ names, Agree RuntimeFault.Same SamePayload (Expr.readPath scope x.1 x.2)
    (Expr.readPath scope' x.1 x.2)

namespace Scope.SameNames

variable {scope scope' : Scope} {names more : List (String × List String)}

theorem left (h : SameNames scope scope' (names ++ more)) : SameNames scope scope' names :=
  fun x hx => h x (List.mem_append_left _ hx)

theorem right (h : SameNames scope scope' (names ++ more)) : SameNames scope scope' more :=
  fun x hx => h x (List.mem_append_right _ hx)

end Scope.SameNames

namespace Expr

open Metered

mutual

/-- **An expression has the same payload** against scopes in which its names have. -/
theorem evaluate_alike {scope scope' : Scope} (expr : Expr)
    (h : scope.SameNames scope' expr.names) :
    Alike SamePayload (evaluate scope expr) (evaluate scope' expr) := by
  match expr with
  | literal value =>
    rw [evaluate, evaluate]
    exact Alike.bind_tick (.pure rfl)
  | undefined =>
    rw [evaluate, evaluate]
    exact Alike.bind_tick (.pure rfl)
  | path root members =>
    rw [evaluate, evaluate]
    exact Alike.bind_tick (.ofExcept (h _ (List.mem_singleton_self _)))
  | member base name =>
    rw [evaluate, evaluate]
    refine Alike.bind_tick ((evaluate_alike base h).bind fun v w hv => .ofExcept ?_)
    exact hv.member name ▸ Agree.refl_of RuntimeFault.Same.refl fun _ => rfl
  | index base key =>
    rw [evaluate, evaluate]
    refine Alike.bind_tick ((evaluate_alike base h.left).bind fun v w hv => ?_)
    refine (evaluate_alike key h.right).bind fun v' w' hv' => .ofExcept ?_
    exact Operation.index_agree hv hv'
  | array items =>
    rw [evaluate, evaluate]
    refine Alike.bind_tick ((evaluateItems_alike items h).bind ?_)
    rintro values _ rfl
    exact .pure rfl
  | unary operator operand =>
    rw [evaluate, evaluate]
    refine Alike.bind_tick ((evaluate_alike operand h).bind fun v w hv => .ofExcept ?_)
    exact applyUnary_agree hv operator
  | binary operator left right =>
    rw [evaluate, evaluate]
    refine Alike.bind_tick ((evaluate_alike left h.left).bind fun v w hv => ?_)
    rcases shortCircuit?_congr hv operator with ⟨he, he'⟩ | ⟨he, he'⟩
    · rw [he, he']
      refine (evaluate_alike right h.right).bind fun v' w' hv' => .ofExcept ?_
      exact applyBinary_agree hv hv' operator
    · rw [he, he']
      exact .pure hv
  | conditional condition whenTrue whenFalse =>
    rw [evaluate, evaluate]
    refine Alike.bind_tick ((evaluate_alike condition h.left.left).bind fun v w hv => ?_)
    rw [hv.isTruthy]
    split
    · exact evaluate_alike whenTrue h.left.right
    · exact evaluate_alike whenFalse h.right

theorem evaluateItems_alike {scope scope' : Scope} (items : List Expr)
    (h : scope.SameNames scope' (namesOfItems items)) :
    Alike (· = ·) (evaluateItems scope items) (evaluateItems scope' items) := by
  match items with
  | [] =>
    rw [evaluateItems, evaluateItems]
    exact .pure rfl
  | item :: rest =>
    rw [evaluateItems, evaluateItems]
    refine (evaluate_alike item h.left).bind fun v w hv => ?_
    refine (evaluateItems_alike rest h.right).bind ?_
    rintro values _ rfl
    exact .pure (by rw [hv.toJson])

end

end Expr

namespace Engine

open Metered

/-- The names in the code have the same payloads against the two scopes. -/
def SameCode (scope scope' : Scope) (code : String) : Prop :=
  ∀ expr, Expr.parse code = .ok expr → scope.SameNames scope' expr.names

variable {scope scope' : Scope}

theorem run_standard_alike {code : String} (h : SameCode scope scope' code) :
    Alike SamePayload (standard.run scope code) (standard.run scope' code) := by
  simp only [standard]
  cases hp : Expr.parse code with
  | ok expr => exact expr.evaluate_alike (h expr hp)
  | error error => exact fun budget => .error (.malformed error) _ _

theorem fill_standard_alike {segments : List Segment}
    (h : ∀ code, .binding code ∈ segments → SameCode scope scope' code) :
    Alike (· = ·) (standard.fill scope segments) (standard.fill scope' segments) := by
  induction segments with
  | nil => exact .pure rfl
  | cons segment segments ih =>
    have hrest := ih fun code hc => h code (List.mem_cons_of_mem _ hc)
    cases segment with
    | text content =>
      rw [fill, fill]
      refine hrest.bind ?_
      rintro text _ rfl
      exact .pure rfl
    | binding code =>
      rw [fill, fill]
      refine (run_standard_alike (h code List.mem_cons_self)).bind fun v w hv => hrest.bind ?_
      rintro text _ rfl
      exact .pure (by rw [hv.templateText])

/-- **A template has the same payload** against scopes in which the names in its code have. -/
theorem evaluateTemplate_standard_alike {text : String}
    (h : ∀ code ∈ Template.codes text, SameCode scope scope' code) :
    Alike SamePayload (standard.evaluateTemplate scope text)
      (standard.evaluateTemplate scope' text) := by
  have hseg : ∀ code, .binding code ∈ Template.segments text → SameCode scope scope' code := by
    intro code hc
    exact h code (List.mem_filterMap.2 ⟨_, hc, rfl⟩)
  rw [evaluateTemplate, evaluateTemplate]
  split
  · rename_i code he
    exact run_standard_alike (hseg code (he ▸ List.mem_singleton_self _))
  · refine (fill_standard_alike hseg).bind ?_
    rintro filled _ rfl
    exact .pure rfl

end Engine

end Recalc
