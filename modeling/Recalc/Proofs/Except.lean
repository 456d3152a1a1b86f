/-!
# Computations that may be refused

When a computation in `Except` succeeds: if its parts do, one after another. A fold succeeds if all
its steps do, and then what every successful step says of its element holds of all elements. And how
a computation fails: as one of its parts does (`FailsWith`).
-/

namespace Recalc

variable {E A B S : Type}

theorem bind_eq_ok {x : Except E A} {f : A → Except E B} {b : B} :
    (x >>= f) = .ok b ↔ ∃ a, x = .ok a ∧ f a = .ok b := by
  cases x with
  | error e => exact ⟨fun h => (by cases h), fun ⟨a, h, _⟩ => (by cases h)⟩
  | ok a => exact ⟨fun h => ⟨a, rfl, h⟩, fun ⟨a', h, hf⟩ => (Except.ok.inj h) ▸ hf⟩

theorem foldlM_cons_eq_ok {step : S → A → Except E S} {a : A} {list : List A} {s s' : S} :
    (a :: list).foldlM step s = .ok s' ↔
      ∃ mid, step s a = .ok mid ∧ list.foldlM step mid = .ok s' := by
  rw [List.foldlM_cons, bind_eq_ok]

theorem foldlM_append_eq_ok {step : S → A → Except E S} {first second : List A} {s s' : S} :
    (first ++ second).foldlM step s = .ok s' ↔
      ∃ mid, first.foldlM step s = .ok mid ∧ second.foldlM step mid = .ok s' := by
  rw [List.foldlM_append, bind_eq_ok]

/-- A traversal succeeds if the step does on every element. -/
theorem forM_eq_ok {step : A → Except E Unit} {list : List A} :
    list.forM step = .ok () ↔ ∀ a ∈ list, step a = .ok () := by
  induction list with
  | nil => simp [List.forM_nil, pure, Except.pure]
  | cons a list ih =>
    rw [List.forall_mem_cons, ← ih]
    exact bind_eq_ok.trans ⟨fun ⟨_, ha, hrest⟩ => ⟨ha, hrest⟩, fun ⟨ha, hrest⟩ => ⟨(), ha, hrest⟩⟩

/-- What holds of every element that a folded step accepts. -/
theorem forall_of_foldlM_ok {step : S → A → Except E S} {Good : A → Prop}
    (hstep : ∀ s a s', step s a = .ok s' → Good a) {list : List A} {s s' : S}
    (h : list.foldlM step s = .ok s') : ∀ a ∈ list, Good a := by
  induction list generalizing s with
  | nil => simp
  | cons a list ih =>
    obtain ⟨mid, ha, hrest⟩ := foldlM_cons_eq_ok.1 h
    exact List.forall_mem_cons.2 ⟨hstep s a mid ha, ih hrest⟩

/-- A result that has been looked at is there. -/
theorem exists_ok_of_toOption {x : S × Except E A} {f : A → B} {b : B}
    (h : x.2.toOption.map f = some b) : ∃ a, x = (x.1, .ok a) ∧ f a = b := by
  obtain ⟨s, err | a⟩ := x
  · cases h
  · exact ⟨a, rfl, Option.some.inj h⟩

/-- A call succeeds, and what holds of its result can be said of it. -/
theorem exists_ok_and_of_toOption {x : S × Except E A} (h : x.2.toOption.isSome = true)
    {P : S → Prop} (hP : P x.1) : ∃ s a, x = (s, .ok a) ∧ P s := by
  obtain ⟨s, err | a⟩ := x
  · cases h
  · exact ⟨s, a, rfl, hP⟩

/-! ### Failures -/

/-- If the computation fails, then with one of the given failures. -/
def FailsWith (Good : E → Prop) (x : Except E A) : Prop := ∀ err, x = .error err → Good err

variable {Good : E → Prop}

theorem failsWith_ok (a : A) : FailsWith Good (.ok a) := fun _ h => by cases h

theorem failsWith_error {err : E} (h : Good err) : FailsWith Good (.error err : Except E A) :=
  fun _ he => Except.error.inj he ▸ h

theorem FailsWith.bind {x : Except E A} {f : A → Except E B} (hx : FailsWith Good x)
    (hf : ∀ a, FailsWith Good (f a)) : FailsWith Good (x >>= f) := by
  cases x with
  | error err => exact failsWith_error (hx err rfl)
  | ok a => exact hf a

theorem FailsWith.foldlM {step : S → A → Except E S} (hstep : ∀ s a, FailsWith Good (step s a))
    (list : List A) (s : S) : FailsWith Good (list.foldlM step s) := by
  induction list generalizing s with
  | nil => exact failsWith_ok s
  | cons a list ih =>
    rw [List.foldlM_cons]
    exact (hstep s a).bind ih

theorem FailsWith.forM {step : A → Except E Unit} (hstep : ∀ a, FailsWith Good (step a))
    (list : List A) : FailsWith Good (list.forM step) := by
  induction list with
  | nil => exact failsWith_ok ()
  | cons a list ih => exact (hstep a).bind fun _ => ih

end Recalc
