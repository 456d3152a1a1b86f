import Recalc.Evaluator.Pass
import Recalc.Proofs.Expr.Names

/-!
# Evaluation depends on the names only

Scopes in which the names of an expression read the same are interchangeable: the evaluation is the
same work, with the same value or the same failure and the same steps, whatever the budget. The same
holds of code and of the texts that code stands in (`Engine.work_standard_congr`).
-/

namespace Recalc

/-- The names read the same in the two scopes. -/
def Scope.EqualNames (scope scope' : Scope) (names : List (String × List String)) : Prop :=
  ∀ x ∈ names, Expr.readPath scope x.1 x.2 = Expr.readPath scope' x.1 x.2

namespace Scope.EqualNames

variable {scope scope' : Scope} {names more : List (String × List String)}

theorem left (h : EqualNames scope scope' (names ++ more)) : EqualNames scope scope' names :=
  fun x hx => h x (List.mem_append_left _ hx)

theorem right (h : EqualNames scope scope' (names ++ more)) : EqualNames scope scope' more :=
  fun x hx => h x (List.mem_append_right _ hx)

end Scope.EqualNames

namespace Expr

mutual

/-- **An expression is the same work** in scopes in which its names read the same. -/
theorem evaluate_congr {scope scope' : Scope} (expr : Expr)
    (h : scope.EqualNames scope' expr.names) : evaluate scope expr = evaluate scope' expr := by
  match expr with
  | literal value => rfl
  | undefined => rfl
  | path root members => rw [evaluate, evaluate, h _ (List.mem_singleton_self _)]
  | member base name => rw [evaluate, evaluate, evaluate_congr base h]
  | index base key =>
    rw [evaluate, evaluate, evaluate_congr base h.left, evaluate_congr key h.right]
  | array items => rw [evaluate, evaluate, evaluateItems_congr items h]
  | unary operator operand => rw [evaluate, evaluate, evaluate_congr operand h]
  | binary operator left right =>
    rw [evaluate, evaluate, evaluate_congr left h.left, evaluate_congr right h.right]
  | conditional condition whenTrue whenFalse =>
    rw [evaluate, evaluate, evaluate_congr condition h.left.left,
      evaluate_congr whenTrue h.left.right, evaluate_congr whenFalse h.right]

theorem evaluateItems_congr {scope scope' : Scope} (items : List Expr)
    (h : scope.EqualNames scope' (namesOfItems items)) :
    evaluateItems scope items = evaluateItems scope' items := by
  match items with
  | [] => rfl
  | item :: rest =>
    rw [evaluateItems, evaluateItems, evaluate_congr item h.left, evaluateItems_congr rest h.right]

end

end Expr

namespace Engine

/-- The names in the code read the same in the two scopes. -/
def EqualCode (scope scope' : Scope) (code : String) : Prop :=
  ∀ expr, Expr.parse code = .ok expr → scope.EqualNames scope' expr.names

/-- The work that the text of a dynamic property takes. A template without bindings takes none. -/
def work (engine : Engine) (scope : Scope) (reading : BindingSyntax) (text : String) :
    Metered Value :=
  match reading with
  | .template =>
    if Template.isDynamic text then engine.evaluateTemplate scope text
    else pure (.data (.string text))
  | .script => engine.run scope text

variable {scope scope' : Scope}

theorem run_standard_congr {code : String} (h : EqualCode scope scope' code) :
    standard.run scope code = standard.run scope' code := by
  simp only [standard]
  cases hp : Expr.parse code with
  | ok expr => exact expr.evaluate_congr (h expr hp)
  | error error => rfl

theorem fill_standard_congr {segments : List Segment}
    (h : ∀ code, .binding code ∈ segments → EqualCode scope scope' code) :
    standard.fill scope segments = standard.fill scope' segments := by
  induction segments with
  | nil => rfl
  | cons segment segments ih =>
    have hrest := ih fun code hc => h code (List.mem_cons_of_mem _ hc)
    cases segment with
    | text content => rw [fill, fill, hrest]
    | binding code => rw [fill, fill, hrest, run_standard_congr (h code List.mem_cons_self)]

theorem evaluateTemplate_standard_congr {text : String}
    (h : ∀ code ∈ Template.codes text, EqualCode scope scope' code) :
    standard.evaluateTemplate scope text = standard.evaluateTemplate scope' text := by
  have hseg : ∀ code, .binding code ∈ Template.segments text → EqualCode scope scope' code :=
    fun code hc => h code (List.mem_filterMap.2 ⟨_, hc, rfl⟩)
  rw [evaluateTemplate, evaluateTemplate]
  split
  · rename_i code he
    exact run_standard_congr (hseg code (he ▸ List.mem_singleton_self _))
  · rw [fill_standard_congr hseg]

/-- **A text is the same work** in scopes in which the names in its code read the same. -/
theorem work_standard_congr {reading : BindingSyntax} {text : String}
    (h : ∀ code ∈ Reference.fragments (.string text) reading, EqualCode scope scope' code) :
    standard.work scope reading text = standard.work scope' reading text := by
  cases reading with
  | template => rw [work, work, evaluateTemplate_standard_congr h]
  | script => exact run_standard_congr (h text (List.mem_singleton_self text))

end Engine

/-- The result of a dynamic text is that of its work within the budget of the settings. -/
theorem Evaluator.runCode_eq (e : Evaluator) (s : Snapshot) (reading : BindingSyntax)
    (text : String) : e.runCode s reading text =
      ((e.engine.work (e.scope s) reading text).runWith e.settings.budget).1 := by
  rw [runCode.eq_def, Engine.work.eq_def]
  cases reading with
  | template =>
    simp only
    split <;> rfl
  | script => rfl

end Recalc
