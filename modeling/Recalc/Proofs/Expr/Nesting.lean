import Recalc.Expr.Nesting
import Recalc.Proofs.Expr.Depth

/-!
# How many calls are open

The parser with a counter finds what the parser with room finds, whether that is a tree or an error
(`Tracks`). It leaves the counter as it was, and the calls in its log are balanced: at no moment are
more of them open than the counter had room for (`Balanced`). This is a way to follow the parser, so
it holds of a layer if it holds of what is nested in it, and of every level by induction on the
rounds that are left (`inside_expression`).
-/

namespace Recalc

namespace Parser

/-! ### Open calls -/

/-- What an event adds to the number of open calls. -/
def CallEvent.delta : CallEvent → Int
  | opened => 1
  | closed => -1
  | refused => 0

/-- The number of calls that are open after the events of a log. -/
def openCalls : List CallEvent → Int
  | [] => 0
  | event :: log => event.delta + openCalls log

@[simp] theorem openCalls_nil : openCalls [] = 0 := rfl

@[simp] theorem openCalls_cons (event : CallEvent) (log : List CallEvent) :
    openCalls (event :: log) = event.delta + openCalls log := rfl

@[simp] theorem openCalls_append (first second : List CallEvent) :
    openCalls (first ++ second) = openCalls first + openCalls second := by
  induction first with
  | nil => rw [List.nil_append, openCalls_nil, Int.zero_add]
  | cons event first ih => rw [List.cons_append, openCalls_cons, openCalls_cons, ih, Int.add_assoc]

/-- The calls in the log are closed at its end, and at no moment are more of them open than there is
room for. -/
structure Balanced (room : Nat) (log : List CallEvent) : Prop where
  /-- After the first `k` events. -/
  within : ∀ k, 0 ≤ openCalls (log.take k) ∧ openCalls (log.take k) ≤ room
  /-- After all of them. -/
  settled : openCalls log = 0

namespace Balanced

variable {room : Nat} {log : List CallEvent}

theorem nil (room : Nat) : Balanced room [] where
  within k := by
    rw [List.take_nil, openCalls_nil]
    omega
  settled := rfl

theorem append (h : Balanced room log) {more : List CallEvent} (h' : Balanced room more) :
    Balanced room (log ++ more) where
  within k := by
    rw [List.take_append, openCalls_append]
    rcases Nat.le_total k log.length with hk | hk
    · rw [Nat.sub_eq_zero_of_le hk, List.take_zero, openCalls_nil, Int.add_zero]
      exact h.within k
    · rw [List.take_of_length_le hk, h.settled, Int.zero_add]
      exact h'.within (k - log.length)
  settled := by rw [openCalls_append, h.settled, h'.settled, Int.zero_add]

/-- A call takes one more than what it calls. -/
theorem call (h : Balanced room log) : Balanced (room + 1) (.opened :: (log ++ [.closed])) where
  within k := by
    cases k with
    | zero =>
      rw [List.take_zero, openCalls_nil]
      omega
    | succ k =>
      rw [List.take_succ_cons, openCalls_cons, List.take_append, openCalls_append, CallEvent.delta]
      -- the call is closed only after all that it calls
      rcases Nat.lt_or_ge log.length k with hk | hk
      · have hclosed : openCalls (List.take (k - log.length) [.closed]) = -1 := by
          rw [List.take_of_length_le (by rw [List.length_singleton]; omega)]
          rfl
        rw [List.take_of_length_le (Nat.le_of_lt hk), h.settled, hclosed]
        omega
      · have hin := h.within k
        rw [Nat.sub_eq_zero_of_le hk, List.take_zero, openCalls_nil]
        omega
  settled := by
    rw [openCalls_cons, openCalls_append, h.settled]
    rfl

theorem refusal (room : Nat) : Balanced room [.refused] where
  within k := by
    cases k with
    | zero =>
      rw [List.take_zero, openCalls_nil]
      omega
    | succ k =>
      rw [List.take_succ_cons, List.take_nil, openCalls_cons, openCalls_nil, CallEvent.delta]
      omega
  settled := rfl

end Balanced

/-! ### A parse with a counter and one without -/

namespace Counted

variable {α β : Type} {x : Counted α} {f : α → Counted β} {s s' : Nesting}

theorem run_bind : (x >>= f).run.run s =
    ExceptT.bindCont f (x.run.run s).1 (x.run.run s).2 := rfl

theorem run_bind_ok {a : α} (h : x.run.run s = (.ok a, s')) :
    (x >>= f).run.run s = (f a).run.run s' := by
  rw [run_bind, h]
  rfl

theorem run_bind_error {error : SyntaxError} (h : x.run.run s = (.error error, s')) :
    (x >>= f).run.run s = (.error error, s') := by
  rw [run_bind, h]
  rfl

end Counted

/-- With the counter at `count` the one parse finds what the other does. It brings the counter back,
and its calls take no more than the room that the counter leaves. -/
def Tracks {α : Type} (count : Nat) (counted : Counted α) (parse : Except SyntaxError α) : Prop :=
  ∀ log, ∃ more, Balanced (maxDepth - count) more ∧
    counted.run.run ⟨count, log⟩ = (parse, ⟨count, log ++ more⟩)

namespace Tracks

variable {α β : Type} {count : Nat}

/-- What makes no call leaves everything as it is. -/
theorem lift (parse : Except SyntaxError α) : Tracks count (liftM parse) parse :=
  fun log => ⟨[], .nil _, by rw [List.append_nil]; rfl⟩

theorem pure (a : α) : Tracks count (Pure.pure a) (.ok a) := .lift (.ok a)

theorem bind {counted : Counted α} {parse : Except SyntaxError α} {f : α → Counted β}
    {g : α → Except SyntaxError β} (h : Tracks count counted parse)
    (hf : ∀ a, parse = .ok a → Tracks count (f a) (g a)) :
    Tracks count (counted >>= f) (parse >>= g) := by
  intro log
  obtain ⟨more, hmore, hrun⟩ := h log
  cases parse with
  | error error => exact ⟨more, hmore, Counted.run_bind_error hrun⟩
  | ok a =>
    obtain ⟨last, hlast, hrest⟩ := hf a rfl (log ++ more)
    refine ⟨more ++ last, hmore.append hlast, ?_⟩
    rw [Counted.run_bind_ok hrun, hrest, List.append_assoc]
    rfl

/-- A call at the bound is refused. -/
theorem refusal (offset : Nat) (layer : Counted α) :
    Tracks maxDepth (Counted.call offset layer) (fail .tooDeep offset) := by
  intro log
  exact ⟨[.refused], .refusal _, Counted.run_call_of_eq offset layer rfl⟩

/-- A call below the bound is opened and closed, whatever its layer turns out to be. -/
theorem call {layer : Counted α} {parse : Except SyntaxError α} (hcount : count < maxDepth)
    (h : Tracks (count + 1) layer parse) (offset : Nat) :
    Tracks count (Counted.call offset layer) parse := by
  intro log
  obtain ⟨more, hmore, hrun⟩ := h (log ++ [.opened])
  refine ⟨.opened :: (more ++ [.closed]), ?_, ?_⟩
  · rw [show maxDepth - count = maxDepth - (count + 1) + 1 by omega]
    exact hmore.call
  · rw [Counted.run_call_of_ne offset layer (Nat.ne_of_lt hcount), hrun, Counted.close]
    simp

/-- What tracks a parse follows it. -/
def follows (count stop : Nat) (whole : List Lexeme) : Follows Counted stop whole where
  Rel counted parse := Tracks count counted parse
  pure := .pure
  lift _ := .lift _
  bind := .bind

end Tracks

/-- A call with the counter at `count` finds what a parse finds that has the rest of the bound as
room, if there are rounds for all calls. -/
theorem inside_expression (stop fuel : Nat) (whole : List Lexeme) {count rounds : Nat}
    (hcount : count ≤ maxDepth) (hrounds : maxDepth < count + rounds) :
    (Tracks.follows count stop whole).Inside (Counted.expression stop fuel rounds)
      (expression stop fuel (maxDepth - count)) := by
  induction rounds generalizing count with
  | zero => omega
  | succ rounds ih =>
    intro power lexemes hs
    rw [Counted.expression]
    rcases Nat.eq_or_lt_of_le hcount with rfl | hless
    · rw [Nat.sub_self]
      exact ⟨.refusal _ _, nofun⟩
    · rw [show maxDepth - count = maxDepth - (count + 1) + 1 by omega, expression]
      obtain ⟨hlayer, hleft⟩ := Follows.layer_fuel _ (ih hless (by omega)) fuel power hs
      exact ⟨.call hless hlayer _, hleft⟩

theorem tracks_expression (stop fuel : Nat) {count rounds : Nat} (hcount : count ≤ maxDepth)
    (hrounds : maxDepth < count + rounds) (power : Nat) (lexemes : List Lexeme) :
    Tracks count (Counted.expression stop fuel rounds power lexemes)
      (expression stop fuel (maxDepth - count) power lexemes) :=
  (inside_expression stop fuel lexemes hcount hrounds power lexemes List.suffix_rfl).rel

theorem tracks_ofLexemes (stop : Nat) (lexemes : List Lexeme) :
    Tracks 0 (Counted.ofLexemes stop lexemes) (ofLexemes stop lexemes) := by
  have hinside : (Tracks.follows 0 stop lexemes).Inside
      (Counted.expression stop (lexemes.length + 1) (maxDepth + 1))
      (expression stop (lexemes.length + 1) maxDepth) :=
    inside_expression stop _ _ (Nat.zero_le _) (by omega)
  exact (Follows.ofLexemes _ List.suffix_rfl (hinside 0 lexemes List.suffix_rfl)).rel

end Parser

namespace Expr

/-- The bounds that a text is parsed in. -/
structure ParsesBounded (text : String) : Prop where
  /-- The tree, if there is one, is not too deep. -/
  depth : ∀ expr, parse text = .ok expr → expr.depth ≤ maxDepth
  /-- At every level of nesting, the functions return the depths of their trees. -/
  returned : ∀ stop fuel room, Parser.ReturnsDepths stop fuel (Parser.expression stop fuel room)
  /-- Parsing with a counter finds the same. It never has more open calls than the bound, leaves
  none open, and leaves the counter at zero. -/
  calls : ∃ log, Parser.Balanced maxDepth log ∧
    (Parser.Counted.parse text).run.run ⟨0, []⟩ = (parse text, ⟨0, log⟩)
  /-- Every call inside finds the same as without a counter, and brings the counter back. -/
  restored : ∀ stop fuel count rounds, count ≤ maxDepth → maxDepth < count + rounds →
    ∀ power lexemes log, ∃ more, Parser.Balanced (maxDepth - count) more ∧
      (Parser.Counted.expression stop fuel rounds power lexemes).run.run ⟨count, log⟩ =
        (Parser.expression stop fuel (maxDepth - count) power lexemes, ⟨count, log ++ more⟩)

/-- Every text is parsed within the bounds, whether it has a tree or not. -/
theorem parsesBounded (text : String) : ParsesBounded text where
  depth _ h := depth_le_of_parse h
  returned := Parser.returnsDepths
  calls := by
    have htracks : Parser.Tracks 0 (Parser.Counted.parse text) (parse text) :=
      .bind (.lift _) fun lexemes _ => Parser.tracks_ofLexemes _ lexemes
    obtain ⟨log, hlog, hrun⟩ := htracks []
    exact ⟨log, hlog, hrun⟩
  restored stop fuel _ _ hcount hrounds power lexemes :=
    Parser.tracks_expression stop fuel hcount hrounds power lexemes

/-- The calls of a text with a tree, and those of one that breaks off. -/
theorem parsesBounded_choice : ParsesBounded "[a.b, -c] ? d : e" ∧
    (parse "[a.b, -c] ? d : e").toOption.map depth = some 4 ∧
    ((Parser.Counted.parse "[a.b, -c] ? d : e").run.run ⟨0, []⟩).2 =
      ⟨0, [.opened, .opened, .closed, .opened, .opened, .closed, .closed, .opened, .closed,
        .opened, .closed, .closed]⟩ ∧
    ParsesBounded "(a, b)" ∧
    (parse "(a, b)").toOption.map depth = none ∧
    ((Parser.Counted.parse "(a, b)").run.run ⟨0, []⟩).2 =
      ⟨0, [.opened, .opened, .closed, .closed]⟩ :=
  ⟨parsesBounded _, by decide +kernel, by decide +kernel, parsesBounded _, by decide +kernel,
    by decide +kernel⟩

end Expr

end Recalc
