import Recalc.Scheduler
import Recalc.Proofs.Evaluator.Load
import Recalc.Proofs.Evaluator.Calls

/-!
# Accepted changes can be flushed

The pending changes of a scheduler pass the check against the tree as it is (`Scheduler.Ready`):
a submission is checked on top of them, and what is accepted in turn is accepted merged. So no pass
is refused, and a submission that is refused leaves no trace (`Scheduler.run_accepts`).
-/

namespace Recalc.Scheduler

/-! ### Runs -/

/-- A call of a scheduler, at the given time where the time matters. -/
inductive Call where
  /-- Adds a batch to the pending changes. -/
  | submit (now : Nat) (batch : ChangeBatch)
  /-- Replaces the pending changes by a batch. -/
  | replacePending (now : Nat) (batch : ChangeBatch)
  /-- Flushes if changes are pending for long enough. -/
  | poll (now : Nat)
  /-- Applies the pending changes. -/
  | flush

/-- The scheduler after a call, and whether the call delivered an update. -/
def answer (s : Scheduler) : Call → Scheduler × Except Rejection Bool
  | .submit now b => ((s.submit now b).1, (s.submit now b).2.map fun _ => false)
  | .replacePending now b =>
    ((s.replacePending now b).1, (s.replacePending now b).2.map fun _ => false)
  | .poll now => s.poll now
  | .flush => s.flush

/-- The scheduler after several calls, and their answers. -/
def run (s : Scheduler) : List Call → Scheduler × List (Except Rejection Bool)
  | [] => (s, [])
  | c :: calls =>
    (((s.answer c).1.run calls).1, (s.answer c).2 :: ((s.answer c).1.run calls).2)

/-! ### Pending changes -/

/-- The pending changes can be applied. -/
structure Ready (s : Scheduler) : Prop where
  /-- The evaluator is standard. -/
  evaluator : s.evaluator.Standard
  /-- The pending changes pass the check. -/
  pending : s.evaluator.validateAll [s.pending] = .ok ()

theorem ready_ofEvaluator {e : Evaluator} (h : e.Standard) (sink : Sink) :
    (ofEvaluator e sink).Ready := ⟨h, Evaluator.validateAll_empty⟩

/-- A submission is refused without a trace, or its changes are pending with the others. -/
theorem submit_cases (s : Scheduler) (now : Nat) (b : ChangeBatch) :
    (s.submit now b).1 = s ∨
      (s.submit now b).2 = .ok () ∧ s.evaluator.validateAll [s.pending, b] = .ok () ∧
        (s.submit now b).1 = { s with
          pending := s.pending.merge b, pendingSince := some (s.pendingSince.getD now) } := by
  rw [submit]
  split
  · exact .inl rfl
  · cases hv : s.evaluator.validateAll [s.pending, b] with
    | error rejection => exact .inl rfl
    | ok _ => exact .inr ⟨rfl, rfl, rfl⟩

theorem replacePending_cases (s : Scheduler) (now : Nat) (b : ChangeBatch) :
    (s.replacePending now b).1 = s ∨
      (s.replacePending now b).2 = .ok () ∧ s.evaluator.validateAll [b] = .ok () ∧
        (s.replacePending now b).1 = { s with
          pending := b, pendingSince := if b.isEmpty then none else some now } := by
  rw [replacePending]
  cases hv : s.evaluator.validateAll [b] with
  | error rejection => exact .inl rfl
  | ok _ => exact .inr ⟨rfl, rfl, rfl⟩

namespace Ready

variable {s : Scheduler} (h : s.Ready)
include h

theorem submit (now : Nat) (b : ChangeBatch) : (s.submit now b).1.Ready := by
  rcases s.submit_cases now b with hs | ⟨-, hv, hs⟩ <;> rw [hs]
  · exact h
  · exact ⟨h.evaluator, Evaluator.validateAll_merge hv⟩

theorem replacePending (now : Nat) (b : ChangeBatch) : (s.replacePending now b).1.Ready := by
  rcases s.replacePending_cases now b with hs | ⟨-, hv, hs⟩ <;> rw [hs]
  · exact h
  · exact ⟨h.evaluator, hv⟩

/-- **A flush succeeds**, and nothing is pending afterwards. -/
theorem flush : s.flush.1.Ready ∧ ∃ delivered, s.flush.2 = .ok delivered := by
  rw [Scheduler.flush]
  split
  · obtain ⟨e', u, ha, -, hs⟩ := h.evaluator.exists_apply h.pending
    rw [ha]
    exact ⟨⟨hs, Evaluator.validateAll_empty⟩, true, rfl⟩
  · exact ⟨h, false, rfl⟩

theorem poll (now : Nat) : (s.poll now).1.Ready ∧ ∃ delivered, (s.poll now).2 = .ok delivered := by
  rw [Scheduler.poll]
  split
  · exact h.flush
  · exact ⟨h, false, rfl⟩

/-- A call keeps the pending changes ready. -/
theorem answer (c : Call) : (s.answer c).1.Ready := by
  cases c with
  | submit now b => exact h.submit now b
  | replacePending now b => exact h.replacePending now b
  | poll now => exact (h.poll now).1
  | flush => exact h.flush.1

theorem run (calls : List Call) : (s.run calls).1.Ready := by
  induction calls generalizing s with
  | nil => exact h
  | cons c calls ih => exact ih (h.answer c)

/-- A call that is refused leaves no trace. -/
theorem answer_eq_error {c : Call} {rejection : Rejection}
    (hc : (s.answer c).2 = .error rejection) : (s.answer c).1 = s := by
  cases c with
  | submit now b =>
    rcases s.submit_cases now b with hs | ⟨hok, -⟩
    · exact hs
    · rw [Scheduler.answer, hok] at hc
      cases hc
  | replacePending now b =>
    rcases s.replacePending_cases now b with hs | ⟨hok, -⟩
    · exact hs
    · rw [Scheduler.answer, hok] at hc
      cases hc
  | poll now =>
    obtain ⟨-, delivered, hok⟩ := h.poll now
    rw [Scheduler.answer, hok] at hc
    cases hc
  | flush =>
    obtain ⟨-, delivered, hok⟩ := h.flush
    rw [Scheduler.answer, hok] at hc
    cases hc

end Ready

/-- **What a scheduler accepted it can always flush**: after any calls, no pass is refused, and a
call that is refused leaves the scheduler as it was, so that all later calls find and deliver what
they would have found and delivered without it. -/
theorem run_accepts {settings : Settings} {engine : Engine} {allowed : Recalc.Call → Prop}
    {e : Evaluator} (h : Evaluator.Evolves allowed (.ofEngine settings engine) e) (sink : Sink)
    (calls : List Call) :
    let s := ((ofEvaluator e sink).run calls).1
    (∀ now, ∃ delivered, (s.poll now).2 = .ok delivered) ∧
      (∃ delivered, s.flush.2 = .ok delivered) ∧
      ∀ c rejection, (s.answer c).2 = .error rejection → (s.answer c).1 = s ∧
        ∀ later, s.run (c :: later) = ((s.run later).1, .error rejection :: (s.run later).2) := by
  intro s
  have hs : s.Ready := (ready_ofEvaluator (h.standard (.ofEngine settings engine)) sink).run calls
  refine ⟨fun now => (hs.poll now).2, hs.flush.2, fun c rejection hc => ?_⟩
  have hsame := hs.answer_eq_error hc
  refine ⟨hsame, fun later => ?_⟩
  rw [run, hsame, hc]

/-- With a new greeting pending, the removal of an entity that does not exist is refused, and the
greeting can be flushed all the same. -/
theorem run_accepts_greeting : ∃ e : Evaluator,
    Evaluator.Evolves Recalc.Call.Tidy (.ofEngine .default .standard) e ∧
    let greet := Call.submit 0 (.setValue .empty "Greeting.text" (.string "good day"))
    let remove := Call.submit 5 (.removeEntity .empty "Nobody")
    let s := ((ofEvaluator e (.inbox [])).run [greet]).1
    s.hasPending = true ∧ (s.answer remove).2 = .error (.unknownEntity "Nobody") ∧
      (∃ delivered, s.flush.2 = .ok delivered) ∧ s.run [remove, .flush] =
        ((s.run [.flush]).1, .error (.unknownEntity "Nobody") :: (s.run [.flush]).2) := by
  obtain ⟨e, hr, ht⟩ :=
    Evaluator.exists_reaches_load .default .standard loadable_echo.tidy loadable_echo
  refine ⟨e, hr.evolves, ?_⟩
  intro greet remove s
  have haccepted : e.validateAll [.empty, .setValue .empty "Greeting.text" (.string "good day")] =
      .ok () := by
    rw [Evaluator.validateAll, ht]
    rfl
  have hs : s = { ofEvaluator e (.inbox []) with
      pending := .merge .empty (.setValue .empty "Greeting.text" (.string "good day"))
      pendingSince := some 0 } := by
    change (submit _ _ _).1 = _
    rw [submit, if_neg (by decide)]
    simp only [ofEvaluator, haccepted]
    rfl
  have hrefused : (s.answer remove).2 = .error (.unknownEntity "Nobody") := by
    rw [hs]
    change Except.map _ (submit _ _ _).2 = _
    rw [submit, if_neg (by decide)]
    simp only [ofEvaluator, Evaluator.validateAll, ht]
    rfl
  obtain ⟨-, hflush, hlater⟩ := run_accepts hr.evolves (.inbox []) [greet]
  exact ⟨by rw [hs]; rfl, hrefused, hflush, (hlater remove _ hrefused).2 [.flush]⟩

end Recalc.Scheduler
