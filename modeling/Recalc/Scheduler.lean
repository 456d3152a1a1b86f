import Recalc.Evaluator.Apply

/-!
# Collecting changes into passes

A scheduler collects submitted batches while a window is open and applies them as one batch, in one
pass. A batch is checked on submission, on top of what is pending, so that a producer learns at once
about a change that cannot be applied. The scheduler owns no clock: the host tells it the time, in
milliseconds.
-/

namespace Recalc

/-- Where updates go. -/
inductive Sink where
  /-- Updates are kept in the order of their delivery. -/
  | inbox (received : List Update)
  /-- Nobody listens any more. -/
  | closed

namespace Sink

/-- Delivers an update. -/
def deliver : Sink → Update → Sink
  | inbox received, update => inbox (received ++ [update])
  | closed, _ => closed

/-- The updates that arrived. -/
def received : Sink → List Update
  | inbox received => received
  | closed => []

end Sink

/-- An evaluator with pending changes. -/
structure Scheduler where
  /-- The evaluator. -/
  evaluator : Evaluator
  /-- Where updates go. -/
  sink : Sink
  /-- The changes since the last pass. -/
  pending : ChangeBatch
  /-- When the first of them came, if there are any. -/
  pendingSince : Option Nat
  /-- How long changes are collected before a pass. -/
  debounce : Nat
  /-- The number of passes. -/
  passes : Nat

namespace Scheduler

/-- A scheduler without pending changes. -/
def ofEvaluator (evaluator : Evaluator) (sink : Sink) : Scheduler :=
  ⟨evaluator, sink, .empty, none, evaluator.settings.debounce, 0⟩

/-- Adds a batch to the pending changes. -/
def submit (s : Scheduler) (now : Nat) (b : ChangeBatch) : Scheduler × Except Rejection Unit :=
  if b.isEmpty then (s, .ok ())
  else
    match s.evaluator.validateAll [s.pending, b] with
    | .error rejection => (s, .error rejection)
    | .ok () =>
      ({ s with
        pending := s.pending.merge b
        pendingSince := some (s.pendingSince.getD now) }, .ok ())

/-- Replaces the pending changes by a batch. -/
def replacePending (s : Scheduler) (now : Nat) (b : ChangeBatch) :
    Scheduler × Except Rejection Unit :=
  match s.evaluator.validateAll [b] with
  | .error rejection => (s, .error rejection)
  | .ok () =>
    ({ s with pending := b, pendingSince := if b.isEmpty then none else some now }, .ok ())

/-- Whether changes are pending. -/
def hasPending (s : Scheduler) : Bool := s.pendingSince.isSome

/-- Whether changes are pending for long enough. -/
def isDue (s : Scheduler) (now : Nat) : Bool :=
  s.pendingSince.any fun since => s.debounce ≤ now - since

/-- Applies the pending changes and delivers the update, and tells whether there were any. Changes
that are refused are dropped. -/
def flush (s : Scheduler) : Scheduler × Except Rejection Bool :=
  if s.hasPending then
    let (evaluator, outcome) := s.evaluator.apply s.pending
    let s := { s with evaluator, pending := .empty, pendingSince := none }
    match outcome with
    | .error rejection => (s, .error rejection)
    | .ok update => ({ s with passes := s.passes + 1, sink := s.sink.deliver update }, .ok true)
  else (s, .ok false)

/-- Flushes if changes are pending for long enough. -/
def poll (s : Scheduler) (now : Nat) : Scheduler × Except Rejection Bool :=
  if s.isDue now then s.flush else (s, .ok false)

end Scheduler

end Recalc
