import Recalc.Proofs.Batch.Monoid
import Recalc.Proofs.Scheduler

/-!
# What a scheduler delivers

No submission is lost and none is applied twice. A journal of a run keeps the tree as of the last
delivery and the submissions that were accepted since then, from the last replacement on
(`Journal.enter`). The pending changes do to the tree what the submissions of the journal do to it
one after another, because merging is applying in turn (`Journal.Matches`); so a delivery leaves the
tree that the journal promises. The books of the scheduler itself are right as well: a window is
open exactly while something is pending, and as many updates went out as there were passes
(`Scheduler.run_delivers`).
-/

namespace Recalc

namespace ChangeBatch

/-- A batch that asks for nothing leaves the tree alone. -/
theorem perform_of_isEmpty {b : ChangeBatch} (h : b.isEmpty = true) (t : Tree) :
    t.perform b = t := by
  simp only [isEmpty, Bool.and_eq_true, List.isEmpty_iff] at h
  obtain ⟨⟨⟨⟨hs, hv⟩, -⟩, -⟩, -⟩ := h
  rw [Tree.perform, hs, hv]
  rfl

end ChangeBatch

namespace Scheduler

/-! ### The journal of a run -/

/-- What an observer of the calls and their answers writes down. -/
structure Journal where
  /-- The tree as of the last delivery, or as it was found. -/
  delivered : Tree
  /-- The submissions accepted since then, from the last replacement on. -/
  accepted : List ChangeBatch

namespace Journal

/-- The entry for a call that was answered, and left the given tree. -/
def enter (j : Journal) (c : Call) (after : Tree) : Except Rejection Bool → Journal
  | .error _ => j
  | .ok true => ⟨after, []⟩
  | .ok false =>
    match c with
    | .submit _ b => { j with accepted := j.accepted ++ [b] }
    | .replacePending _ b => { j with accepted := [b] }
    | .poll _ | .flush => j

/-- The journal after several calls of a scheduler. -/
def record (j : Journal) (s : Scheduler) : List Call → Journal
  | [] => j
  | c :: calls =>
    (j.enter c (s.answer c).1.evaluator.tree (s.answer c).2).record (s.answer c).1 calls

/-- The tree that the journal promises: the accepted submissions are performed one after another on
the tree as of the last delivery. -/
def promised (j : Journal) : Tree := j.accepted.foldl Tree.perform j.delivered

/-- Nothing was delivered since the journal says so, and what is pending does to the tree what the
journal promises. -/
structure Matches (j : Journal) (s : Scheduler) : Prop where
  /-- The tree only changes by deliveries. -/
  delivered : s.evaluator.tree = j.delivered
  /-- The pending changes keep the promise. -/
  promised : s.evaluator.tree.perform s.pending = j.promised

/-- Without pending changes there is nothing to promise. -/
theorem matches_of_empty {s : Scheduler} (h : s.pending = .empty) :
    Matches ⟨s.evaluator.tree, []⟩ s := ⟨rfl, by rw [h]; rfl⟩

end Journal

/-! ### Single calls -/

/-- What a call of a scheduler can do: the call, its answer and the scheduler that it leaves. -/
inductive Step (s : Scheduler) : Call → Except Rejection Bool → Scheduler → Prop where
  /-- The call is refused. -/
  | refused (c : Call) (rejection : Rejection) : Step s c (.error rejection) s
  /-- There is nothing to submit. -/
  | ignored (now : Nat) {b : ChangeBatch} (hb : b.isEmpty = true) :
      Step s (.submit now b) (.ok false) s
  /-- A submission is pending with the others. -/
  | submitted (now : Nat) {b : ChangeBatch} (hb : b.isEmpty = false) :
      Step s (.submit now b) (.ok false) { s with
        pending := s.pending.merge b, pendingSince := some (s.pendingSince.getD now) }
  /-- A submission is pending in place of the others. -/
  | replaced (now : Nat) (b : ChangeBatch) :
      Step s (.replacePending now b) (.ok false) { s with
        pending := b, pendingSince := if b.isEmpty then none else some now }
  /-- It is too early for a pass. -/
  | early (now : Nat) : Step s (.poll now) (.ok false) s
  /-- There is nothing to flush. -/
  | idle : Step s .flush (.ok false) s
  /-- The pending changes are performed, and the update goes out. -/
  | delivered (c : Call) {e : Evaluator} (update : Update)
      (ht : e.tree = s.evaluator.tree.perform s.pending) :
      Step s c (.ok true) { s with
        evaluator := e, pending := .empty, pendingSince := none
        passes := s.passes + 1, sink := s.sink.deliver update }

/-- What passes the check is pending with the rest. -/
theorem submit_of_validateAll {s : Scheduler} {b : ChangeBatch} (hb : b.isEmpty = false)
    (hv : s.evaluator.validateAll [s.pending, b] = .ok ()) (now : Nat) : s.submit now b =
      ({ s with pending := s.pending.merge b, pendingSince := some (s.pendingSince.getD now) },
        .ok ()) := by
  rw [submit, hb, hv]
  rfl

/-- What is pending and can be applied is delivered. -/
theorem flush_of_apply {s : Scheduler} {e : Evaluator} {update : Update}
    (hp : s.hasPending = true) (ha : s.evaluator.apply s.pending = (e, .ok update)) : s.flush =
      ({ s with
        evaluator := e, pending := .empty, pendingSince := none
        passes := s.passes + 1, sink := s.sink.deliver update }, .ok true) := by
  rw [flush, if_pos hp, ha]

/-- A flush delivers nothing and changes nothing, or it performs the pending changes. -/
theorem Ready.flush_cases {s : Scheduler} (h : s.Ready) :
    s.flush = (s, .ok false) ∨ ∀ c, Step s c s.flush.2 s.flush.1 := by
  cases hp : s.hasPending with
  | false => exact .inl (by simp [Scheduler.flush, hp])
  | true =>
    obtain ⟨e', u, ha, ht, -⟩ := h.evaluator.exists_apply h.pending
    rw [flush_of_apply hp ha]
    exact .inr fun c => .delivered c u ht

/-- **Calls do nothing else.** -/
theorem Ready.step {s : Scheduler} (h : s.Ready) (c : Call) :
    Step s c (s.answer c).2 (s.answer c).1 := by
  cases c with
  | submit now b =>
    rw [Scheduler.answer, Scheduler.submit]
    split
    · rename_i hb
      exact .ignored now hb
    · rename_i hb
      split
      · exact .refused _ _
      · exact .submitted now (Bool.eq_false_iff.2 hb)
  | replacePending now b =>
    rw [Scheduler.answer, Scheduler.replacePending]
    split
    · exact .refused _ _
    · exact .replaced now b
  | poll now =>
    rw [Scheduler.answer, Scheduler.poll]
    split
    · rename_i hdue
      rcases h.flush_cases with hf | hf
      · rw [hf]
        exact .early now
      · exact hf _
    · exact .early now
  | flush =>
    rw [Scheduler.answer]
    rcases h.flush_cases with hf | hf
    · rw [hf]
      exact .idle
    · exact hf _

section Step

variable {s s' : Scheduler} {c : Call} {answer : Except Rejection Bool} (h : Step s c answer s')
include h

/-- **A call keeps the journal right.** -/
theorem Step.matches {j : Journal} (hs : s.evaluator.tree.Named) (hj : j.Matches s) :
    (j.enter c s'.evaluator.tree answer).Matches s' := by
  cases h with
  | refused => exact hj
  | ignored now hb =>
    refine ⟨hj.delivered, ?_⟩
    rw [hj.promised, Journal.enter, Journal.promised, Journal.promised, List.foldl_append]
    exact (ChangeBatch.perform_of_isEmpty hb _).symm
  | @submitted now b hb =>
    refine ⟨hj.delivered, ?_⟩
    rw [hs.perform_merge, hj.promised, Journal.enter, Journal.promised, Journal.promised,
      List.foldl_append]
    rfl
  | replaced now b =>
    refine ⟨hj.delivered, ?_⟩
    rw [hj.delivered]
    rfl
  | early => exact hj
  | idle => exact hj
  | delivered c update ht => exact Journal.matches_of_empty rfl

/-- What a delivery leaves is what the journal promises. -/
theorem Step.tree_eq {j : Journal} (hj : j.Matches s) (ha : answer = .ok true) :
    s'.evaluator.tree = j.promised := by
  subst ha
  cases h with
  | delivered _ _ ht => exact ht.trans hj.promised

end Step

/-! ### The books of the scheduler -/

/-- The marked paths of what is submitted are listed as they are indexed. -/
def Call.InStep : Call → Prop
  | submit _ b | replacePending _ b => b.InStep
  | poll _ | flush => True

/-- A window is open exactly while something is pending. -/
structure Windowed (s : Scheduler) : Prop where
  /-- The window is open for a reason. -/
  hasPending : s.hasPending = true ↔ s.pending.isEmpty = false
  /-- Marked paths are listed as they are indexed. -/
  inStep : s.pending.InStep

theorem windowed_ofEvaluator (e : Evaluator) (sink : Sink) : (ofEvaluator e sink).Windowed :=
  ⟨iff_of_false Bool.false_ne_true nofun, ChangeBatch.inStep_empty⟩

theorem Step.windowed {s s' : Scheduler} {c : Call} {answer : Except Rejection Bool}
    (h : Step s c answer s') (hc : c.InStep) (hs : s.Windowed) : s'.Windowed := by
  cases h with
  | refused => exact hs
  | ignored => exact hs
  | submitted now hb => exact ⟨iff_of_true rfl (hs.inStep.isEmpty_merge hb), hs.inStep.merge _⟩
  | replaced now b =>
    refine ⟨?_, hc⟩
    cases hb : b.isEmpty <;> simp [Scheduler.hasPending]
  | early => exact hs
  | idle => exact hs
  | delivered =>
    exact ⟨iff_of_false Bool.false_ne_true nofun, ChangeBatch.inStep_empty⟩

/-- Whether an answer reports a delivery. -/
def delivers : Except Rejection Bool → Bool
  | .ok delivered => delivered
  | .error _ => false

/-- A call that reports a delivery counts a pass and sends one update, and no other call does. -/
theorem Step.posted {s s' : Scheduler} {c : Call} {answer : Except Rejection Bool}
    (h : Step s c answer s') : ∃ updates : List Update,
      s'.sink = updates.foldl Sink.deliver s.sink ∧ s'.passes = s.passes + updates.length ∧
        updates.length = [answer].countP delivers := by
  cases h with
  | delivered _ update => exact ⟨[update], rfl, rfl, rfl⟩
  | _ => exact ⟨[], rfl, rfl, rfl⟩

/-! ### Whole runs -/

namespace Ready

variable {s : Scheduler} (h : s.Ready)
include h

theorem matches_record {j : Journal} (hj : j.Matches s) (calls : List Call) :
    (j.record s calls).Matches (s.run calls).1 := by
  induction calls generalizing s j with
  | nil => exact hj
  | cons c calls ih => exact ih (h.answer c) ((h.step c).matches h.evaluator.named hj)

theorem windowed {calls : List Call} (hcalls : ∀ c ∈ calls, c.InStep) (hs : s.Windowed) :
    (s.run calls).1.Windowed := by
  induction calls generalizing s with
  | nil => exact hs
  | cons c calls ih =>
    obtain ⟨hc, hrest⟩ := List.forall_mem_cons.1 hcalls
    exact ih (h.answer c) hrest ((h.step c).windowed hc hs)

theorem posted (calls : List Call) : ∃ updates : List Update,
    (s.run calls).1.sink = updates.foldl Sink.deliver s.sink ∧
      (s.run calls).1.passes = s.passes + updates.length ∧
      updates.length = (s.run calls).2.countP delivers := by
  induction calls generalizing s with
  | nil => exact ⟨[], rfl, rfl, rfl⟩
  | cons c calls ih =>
    obtain ⟨first, hsink, hpasses, hcount⟩ := (h.step c).posted
    obtain ⟨rest, hsink', hpasses', hcount'⟩ := ih (h.answer c)
    refine ⟨first ++ rest, ?_, ?_, ?_⟩
    · rw [List.foldl_append, ← hsink]
      exact hsink'
    · rw [List.length_append, ← Nat.add_assoc, ← hpasses]
      exact hpasses'
    · rw [List.length_append, hcount, hcount', ← List.countP_append]
      rfl

end Ready

/-- **A scheduler loses and duplicates nothing that it accepted**: after any calls, a window is open
exactly while something is pending, there were as many passes as updates that went out, and a
delivery leaves the tree as of the delivery before, changed by each submission accepted since, one
after another and from the last replacement on. -/
theorem run_delivers {settings : Settings} {engine : Engine} {allowed : Recalc.Call → Prop}
    {e : Evaluator} (h : Evaluator.Evolves allowed (.ofEngine settings engine) e) (sink : Sink)
    {calls : List Call} (hcalls : ∀ c ∈ calls, c.InStep) :
    let start := ofEvaluator e sink
    let s := (start.run calls).1
    (s.hasPending = true ↔ s.pending.isEmpty = false) ∧
      (∃ updates : List Update, s.sink = updates.foldl Sink.deliver sink ∧
        s.passes = updates.length ∧ s.passes = (start.run calls).2.countP delivers) ∧
      ∀ c, (s.answer c).2 = .ok true → (s.answer c).1.evaluator.tree =
        (Journal.record ⟨e.tree, []⟩ start calls).promised := by
  intro start s
  have hstart : start.Ready := ready_ofEvaluator (h.standard (.ofEngine settings engine)) sink
  obtain ⟨updates, hsink, hpasses, hcount⟩ := hstart.posted calls
  have hpasses : s.passes = updates.length := hpasses.trans (Nat.zero_add _)
  refine ⟨(hstart.windowed hcalls (windowed_ofEvaluator e sink)).hasPending,
    ⟨updates, hsink, hpasses, hpasses.trans hcount⟩, fun c hc => ?_⟩
  exact ((hstart.run calls).step c).tree_eq
    (hstart.matches_record (Journal.matches_of_empty rfl) calls) hc

/-- A greeting is submitted, a removal is refused, and the greeting is replaced by another one,
which alone is delivered. -/
theorem run_delivers_greeting : ∃ e : Evaluator,
    Evaluator.Evolves Recalc.Call.Tidy (.ofEngine .default .standard) e ∧
    let hello := ChangeBatch.setValue .empty "Greeting.text" (.string "hello")
    let welcome := ChangeBatch.setValue .empty "Greeting.text" (.string "welcome")
    let calls := [.submit 0 hello, .submit 5 (.removeEntity .empty "Nobody"),
      .replacePending 7 welcome]
    let s := ((ofEvaluator e (.inbox [])).run calls).1
    (∀ c ∈ calls, c.InStep) ∧ s.hasPending = true ∧ s.pending.isEmpty = false ∧
      (∃ updates : List Update, s.sink = updates.foldl Sink.deliver (.inbox []) ∧
        s.passes = updates.length) ∧
      (s.answer .flush).2 = .ok true ∧
      (s.answer .flush).1.evaluator.tree = e.tree.perform welcome := by
  obtain ⟨e, hr, ht⟩ :=
    Evaluator.exists_reaches_load .default .standard loadable_echo.tidy loadable_echo
  refine ⟨e, hr.evolves, ?_⟩
  intro hello welcome calls s
  have hhello : e.validateAll [.empty, hello] = .ok () := by
    rw [Evaluator.validateAll, ht]
    rfl
  have hremove : e.validateAll [hello, .removeEntity .empty "Nobody"] =
      .error (.unknownEntity "Nobody") := by
    rw [Evaluator.validateAll, ht]
    rfl
  have hwelcome : e.validateAll [welcome] = .ok () := by
    rw [Evaluator.validateAll, ht]
    rfl
  let start := ofEvaluator e (.inbox [])
  let first : Scheduler := { start with pending := hello, pendingSince := some 0 }
  let last : Scheduler := { start with pending := welcome, pendingSince := some 7 }
  have hsubmit : start.answer (.submit 0 hello) = (first, .ok false) := by
    have hmerge : ChangeBatch.empty.merge hello = hello := rfl
    rw [answer, submit_of_validateAll (s := start) (b := hello) rfl hhello]
    simp only [first, start, ofEvaluator, hmerge]
    rfl
  have hrefused : first.answer (.submit 5 (.removeEntity .empty "Nobody")) =
      (first, .error (.unknownEntity "Nobody")) := by
    have hsome : (ChangeBatch.removeEntity .empty "Nobody").isEmpty = false := rfl
    simp only [answer, submit, hsome, Bool.false_eq_true, if_false]
    simp only [first, start, ofEvaluator, hremove]
    rfl
  have hreplaced : first.answer (.replacePending 7 welcome) = (last, .ok false) := by
    simp only [answer, replacePending, last, first, start, ofEvaluator, hwelcome]
    rfl
  have hinStep : ∀ c ∈ calls, c.InStep := by
    have hbatch : hello.InStep ∧ ChangeBatch.InStep (.removeEntity .empty "Nobody") ∧
        welcome.InStep := by
      refine ⟨?_, ?_, ?_⟩ <;> exact ChangeBatch.inStep_of_empty rfl rfl
    simpa [calls, Call.InStep] using hbatch
  have hs : s = last := by
    change (start.run calls).1 = last
    simp only [calls, run, hsubmit, hrefused, hreplaced]
  have hjournal : Journal.record ⟨e.tree, []⟩ start calls = ⟨e.tree, [welcome]⟩ := by
    simp only [calls, Journal.record, hsubmit, hrefused, hreplaced]
    rfl
  obtain ⟨hwindow, ⟨updates, hsink, hpasses, -⟩, htree⟩ :=
    run_delivers hr.evolves (.inbox []) hinStep
  have hpending : s.hasPending = true := by rw [hs]; rfl
  have hdelivers : (s.answer .flush).2 = .ok true := by
    obtain ⟨e', u, ha, -⟩ :=
      (hr.evolves.standard (.ofEngine .default .standard)).exists_apply hwelcome
    rw [hs, answer, flush_of_apply (s := last) rfl ha]
  refine ⟨hinStep, hpending, hwindow.1 hpending, ⟨updates, hsink, hpasses⟩, hdelivers, ?_⟩
  exact (htree .flush hdelivers).trans (congrArg Journal.promised hjournal)

end Scheduler

end Recalc
