import Recalc.Expr.Scanner
import Recalc.Proofs.Template.Bytes
import Mathlib.Data.List.TakeDrop

/-!
# Scanning by a position reads what is left of the text

While a text is scanned the position is always where what is left of the text begins, so a step can
be told by what is left before it and after it (`Reads`). Each step of the scanner then does what
the function on what is left does; in particular no cut fails, and every loop ends.
-/

namespace Recalc

open Lexer (byteSize)

/-! ### Positions -/

theorem Lexer.byteSize_eq (cs : List Char) : byteSize cs = (Template.bytes cs).length := by
  induction cs with
  | nil => rfl
  | cons c cs ih => rw [Template.length_bytes_cons, ← ih, byteSize, byteSize, List.foldr_cons]

theorem Lexer.byteSize_append (before after : List Char) :
    byteSize (before ++ after) = byteSize before + byteSize after := by
  simp only [Lexer.byteSize_eq, Template.bytes_append, List.length_append]

theorem Lexer.utf8ByteSize_ofList (cs : List Char) :
    (String.ofList cs).utf8ByteSize = byteSize cs := by
  induction cs with
  | nil => rfl
  | cons c cs ih =>
    rw [← List.singleton_append, String.ofList_append, String.utf8ByteSize_append, ih,
      Lexer.byteSize_append]
    exact congrArg (· + byteSize cs) String.utf8ByteSize_singleton

namespace Scanner

variable (text : List Char)

/-- The byte offset at which an end of the text begins. -/
def place (rest : List Char) : Nat := byteSize text - byteSize rest

/-- The scanner in front of an end of the text. -/
def cursor (rest : List Char) : Cursor := ⟨place text rest, false⟩

theorem place_append (before rest : List Char) : place (before ++ rest) rest = byteSize before := by
  rw [place, Lexer.byteSize_append, Nat.add_sub_cancel]

variable {text}

theorem place_of_append {part rest : List Char} (h : part ++ rest <:+ text) :
    place text rest = place text (part ++ rest) + byteSize part := by
  obtain ⟨before, rfl⟩ := h
  rw [place_append, ← List.append_assoc, place_append, Lexer.byteSize_append]

/-! ### Steps -/

/-- The step, with `rest` left of the text, returns `a` and leaves `rest'`. -/
def Reads {α : Type} (text : List Char) (step : Scan α) (rest : List Char) (a : α)
    (rest' : List Char) : Prop :=
  rest' <:+ rest ∧ (rest <:+ text → step.run (cursor text rest) = some (a, cursor text rest'))

namespace Reads

variable {α β : Type} {step : Scan α} {f : α → Scan β} {rest rest' rest'' : List Char} {a : α}
  {b : β}

theorem suffix (h : Reads text step rest a rest') : rest' <:+ rest := h.1

theorem pure (a : α) (rest : List Char) : Reads text (pure a) rest a rest :=
  ⟨List.suffix_refl rest, fun _ => rfl⟩

theorem bind (h : Reads text step rest a rest') (hf : Reads text (f a) rest' b rest'') :
    Reads text (step >>= f) rest b rest'' := by
  refine ⟨hf.1.trans h.1, fun hrest => ?_⟩
  rw [StateT.run_bind, h.2 hrest]
  exact hf.2 (h.1.trans hrest)

/-- A step that returns is followed by what comes behind it. -/
theorem run_bind (h : Reads text step rest a rest') (hrest : rest <:+ text) :
    (step >>= f).run (cursor text rest) = (f a).run (cursor text rest') := by
  rw [StateT.run_bind, h.2 hrest]
  rfl

end Reads

theorem cutAt?_byteSize (before after : List Char) :
    Template.cutAt? (byteSize before) (before ++ after) = some (before, after) := by
  rw [Lexer.byteSize_eq, Template.cutAt?_length_bytes]

/-! ### Looking ahead and behind -/

theorem reads_ahead (rest : List Char) : Reads text (ahead text) rest rest rest := by
  refine ⟨List.suffix_refl rest, fun h => ?_⟩
  obtain ⟨before, rfl⟩ := h
  simp [ahead, cursor, place_append, cutAt?_byteSize]

theorem reads_peek (rest : List Char) : Reads text (peek text) rest rest.head? rest :=
  (reads_ahead rest).bind (.pure _ _)

theorem reads_peek_cons (c : Char) (rest : List Char) :
    Reads text (peek text) (c :: rest) (some c) (c :: rest) := reads_peek (c :: rest)

theorem reads_peekSecond (rest : List Char) :
    Reads text (peekSecond text) rest rest.tail.head? rest :=
  (reads_ahead rest).bind (.pure _ _)

/-- What was taken since an earlier place is cut out of the text. -/
theorem reads_behind {part rest : List Char} (h : part ++ rest <:+ text) :
    Reads text (behind text (place text (part ++ rest))) rest part rest := by
  refine ⟨List.suffix_refl rest, fun _ => ?_⟩
  obtain ⟨before, rfl⟩ := h
  have hplace := place_append (before ++ part) rest
  have hcut := cutAt?_byteSize (before ++ part) rest
  rw [List.append_assoc] at hplace hcut
  rw [place_append]
  simp [behind, cursor, hplace, hcut, cutAt?_byteSize]

/-! ### Taking characters -/

theorem reads_advance (part rest : List Char) :
    Reads text (advance (byteSize part)) (part ++ rest) () rest := by
  refine ⟨List.suffix_append part rest, fun h => ?_⟩
  simp [advance, cursor, place_of_append h]

/-- One character moves the position on by its bytes. -/
theorem reads_advance_one (c : Char) (rest : List Char) :
    Reads text (advance c.utf8Size) (c :: rest) () rest :=
  reads_advance [c] rest

theorem reads_bump_nil : Reads text (bump text) [] none [] := (reads_peek []).bind (.pure _ _)

theorem reads_bump_cons (c : Char) (rest : List Char) :
    Reads text (bump text) (c :: rest) (some c) rest :=
  (reads_peek (c :: rest)).bind ((reads_advance_one c rest).bind (.pure _ _))

theorem reads_eat_of_eq_some {c : Char} {rest rest' : List Char}
    (h : Lexer.eat c rest = some rest') : Reads text (eat text c) rest true rest' := by
  cases rest with
  | nil => cases h
  | cons d rest =>
    rw [Lexer.eat] at h
    split at h
    · rename_i hd
      obtain rfl := Option.some.inj h
      subst hd
      refine (reads_peek_cons d rest).bind ?_
      rw [if_pos rfl]
      exact (reads_advance_one d rest).bind (.pure _ _)
    · cases h

theorem reads_eat_of_eq_none {c : Char} {rest : List Char} (h : Lexer.eat c rest = none) :
    Reads text (eat text c) rest false rest := by
  refine (reads_peek rest).bind ?_
  rw [if_neg]
  · exact .pure _ _
  · intro hc
    cases rest with
    | nil => cases hc
    | cons d rest =>
      obtain rfl := Option.some.inj hc
      rw [Lexer.eat, if_pos rfl] at h
      cases h

theorem reads_skipWhile (p : Char → Bool) (rest : List Char) :
    Reads text (skipWhile text p) rest () (rest.dropWhile p) := by
  induction rest with
  | nil =>
    rw [skipWhile]
    exact (reads_peek []).bind (.pure _ _)
  | cons c rest ih =>
    rw [skipWhile]
    refine (reads_peek_cons c rest).bind ?_
    rw [List.dropWhile_cons]
    cases hc : p c with
    | true =>
      rw [if_pos (by simpa using hc), if_pos rfl]
      exact (reads_bump_cons c rest).bind ih
    | false =>
      rw [if_neg (by simpa using hc), if_neg (by simp)]
      exact .pure _ _

/-! ### Between tokens -/

variable (text)

/-- A comment to the end of the line takes a character, if there is one, and is followed by more
trivia. -/
theorem reads_skipLine (rest : List Char) : ∃ rest', Reads text (skipLine text) rest () rest' ∧
    Lexer.skip .line rest = Lexer.skip .space rest' ∧ rest' <:+ rest.tail := by
  induction rest with
  | nil =>
    refine ⟨[], ?_, rfl, List.suffix_rfl⟩
    rw [skipLine]
    exact reads_bump_nil.bind (.pure _ _)
  | cons c rest ih =>
    rw [skipLine, Lexer.skip]
    by_cases hc : c = '\n'
    · refine ⟨rest, (reads_bump_cons c rest).bind ?_, if_pos hc, List.suffix_rfl⟩
      rw [if_neg (by simpa using hc)]
      exact .pure _ _
    · obtain ⟨rest', hreads, hskip, -⟩ := ih
      refine ⟨rest', (reads_bump_cons c rest).bind ?_, (if_neg hc).trans hskip, hreads.suffix⟩
      rw [if_pos (by simpa using hc)]
      exact hreads

theorem skip_block_star (rest : List Char) : Lexer.skip .block ('*' :: rest) =
    match Lexer.eat '/' rest with
    | some rest => Lexer.skip .space rest
    | none => Lexer.skip .block rest := by
  cases rest with
  | nil => rfl
  | cons d rest =>
    by_cases hd : d = '/'
    · subst hd
      rfl
    · simp [Lexer.skip, Lexer.eat, hd]

theorem skip_block_of_ne {c : Char} (h : c ≠ '*') (rest : List Char) :
    Lexer.skip .block (c :: rest) = Lexer.skip .block rest := by
  rw [Lexer.skip.eq_def]
  exact if_neg h

/-- A comment up to `*/` is followed by more trivia, too. -/
theorem reads_skipBlock (rest : List Char) : ∃ rest', Reads text (skipBlock text) rest () rest' ∧
    Lexer.skip .block rest = Lexer.skip .space rest' := by
  induction rest with
  | nil =>
    refine ⟨[], ?_, rfl⟩
    rw [skipBlock]
    exact reads_bump_nil.bind (.pure _ _)
  | cons c rest ih =>
    obtain ⟨rest', hreads, hskip⟩ := ih
    rw [skipBlock]
    by_cases hc : c = '*'
    · subst hc
      rw [skip_block_star]
      cases he : Lexer.eat '/' rest with
      | some behind =>
        refine ⟨behind, (reads_bump_cons _ rest).bind ?_, rfl⟩
        exact (reads_eat_of_eq_some he).bind (.pure _ _)
      | none =>
        refine ⟨rest', (reads_bump_cons _ rest).bind ?_, hskip⟩
        exact (reads_eat_of_eq_none he).bind hreads
    · refine ⟨rest', (reads_bump_cons c rest).bind ?_, (skip_block_of_ne hc rest).trans hskip⟩
      simp only [if_neg hc]
      exact hreads

theorem skip_space_of_isBlank {c : Char} (h : Text.isBlank c = true) (rest : List Char) :
    Lexer.skip .space (c :: rest) = Lexer.skip .space rest := by
  rw [Lexer.skip.eq_def]
  exact if_pos h

theorem skip_space_of_ne {c : Char} (hb : ¬ Text.isBlank c = true) (hc : c ≠ '/')
    (rest : List Char) : Lexer.skip .space (c :: rest) = c :: rest := by
  rw [Lexer.skip.eq_def]
  exact (if_neg hb).trans (if_neg hc)

theorem skip_space_line (rest : List Char) :
    Lexer.skip .space ('/' :: '/' :: rest) = Lexer.skip .line ('/' :: '/' :: rest) := rfl

theorem skip_space_block (rest : List Char) :
    Lexer.skip .space ('/' :: '*' :: rest) = Lexer.skip .block rest := rfl

theorem skip_space_slash {rest : List Char} (hline : rest.head? ≠ some '/')
    (hblock : rest.head? ≠ some '*') : Lexer.skip .space ('/' :: rest) = '/' :: rest := by
  rw [Lexer.skip.eq_def]
  refine (if_neg (by decide)).trans ((if_pos rfl).trans ?_)
  split
  · exact absurd rfl hline
  · exact absurd rfl hblock
  · rfl

/-- Trivia is skipped up to the next token. -/
theorem reads_skipTrivia (rest : List Char) :
    Reads text (skipTrivia text) rest () (Lexer.skip .space rest) := by
  -- What is left becomes shorter with each comment.
  induction hn : rest.length using Nat.strong_induction_on generalizing rest with
  | _ n ih =>
    subst hn
    rw [skipTrivia]
    cases rest with
    | nil => exact (reads_peek []).bind (.pure _ _)
    | cons c rest =>
      refine (reads_peek_cons c rest).bind ?_
      by_cases hb : Text.isBlank c = true
      · rw [skip_space_of_isBlank hb]
        simp only [if_pos hb]
        exact (reads_bump_cons c rest).bind (ih rest.length (by simp) rest rfl)
      · simp only [if_neg hb]
        by_cases hc : c = '/'
        · subst hc
          rw [if_pos rfl]
          refine (reads_peekSecond _).bind ?_
          rw [List.tail_cons]
          by_cases hline : rest.head? = some '/'
          · rw [if_pos hline]
            obtain ⟨rest, rfl⟩ := List.head?_eq_some_iff.1 hline
            obtain ⟨rest', hreads, hskip, htail⟩ := reads_skipLine text ('/' :: '/' :: rest)
            rw [skip_space_line, hskip]
            exact hreads.bind (ih rest'.length (Nat.lt_succ_of_le htail.length_le) rest' rfl)
          · rw [if_neg hline]
            by_cases hblock : rest.head? = some '*'
            · rw [if_pos hblock]
              obtain ⟨rest, rfl⟩ := List.head?_eq_some_iff.1 hblock
              obtain ⟨rest', hreads, hskip⟩ := reads_skipBlock text rest
              rw [skip_space_block, hskip]
              have hopen : Reads text (advance 2) ('/' :: '*' :: rest) () rest :=
                reads_advance ['/', '*'] rest
              refine hopen.bind (hreads.bind (ih rest'.length ?_ rest' rfl))
              exact Nat.lt_succ_of_le (Nat.le_succ_of_le hreads.suffix.length_le)
            · rw [if_neg hblock, skip_space_slash hline hblock]
              exact .pure _ _
        · rw [skip_space_of_ne hb hc, if_neg hc]
          exact .pure _ _

/-! ### Numbers -/

/-- The step takes the first part of what is left, and leaves the second one. -/
def TakesPart (text : List Char) (step : Scan Unit) (rest : List Char)
    (parts : List Char × List Char) : Prop :=
  parts.1 ++ parts.2 = rest ∧ Reads text step rest () parts.2

theorem takesPart_nil {step : Scan Unit} {rest : List Char} (h : Reads text step rest () rest) :
    TakesPart text step rest ([], rest) := ⟨List.nil_append rest, h⟩

theorem fraction_cons {d : Char} (h : d.isDigit = true) (rest : List Char) :
    Lexer.fraction ('.' :: d :: rest) =
      ('.' :: (d :: rest).takeWhile Char.isDigit, (d :: rest).dropWhile Char.isDigit) := by
  rw [Lexer.fraction, if_pos h, List.span_eq_takeWhile_dropWhile]

theorem fraction_of_not {rest : List Char}
    (h : ¬ (rest.head? = some '.' ∧ rest.tail.head?.any Char.isDigit = true)) :
    Lexer.fraction rest = ([], rest) := by
  rw [Lexer.fraction.eq_def]
  split
  · rename_i d rest
    have hd : ¬ d.isDigit = true := fun hd => h ⟨rfl, hd⟩
    rw [if_neg hd]
  · rfl

theorem takesPart_fraction (rest : List Char) :
    TakesPart text (skipFraction text) rest (Lexer.fraction rest) := by
  have hpeek {f : Option Char → Option Char → Scan Unit} {rest' : List Char}
      (hf : Reads text (f rest.head? rest.tail.head?) rest () rest') :
      Reads text (do f (← peek text) (← peekSecond text)) rest () rest' :=
    (reads_peek rest).bind ((reads_peekSecond rest).bind hf)
  by_cases h : rest.head? = some '.' ∧ rest.tail.head?.any Char.isDigit = true
  · obtain ⟨rest, rfl⟩ := List.head?_eq_some_iff.1 h.1
    obtain ⟨d, hd, hdigit⟩ := (Option.any_eq_true _ _).1 h.2
    obtain ⟨rest, rfl⟩ := List.head?_eq_some_iff.1 hd
    rw [fraction_cons hdigit]
    refine ⟨congrArg ('.' :: ·) List.takeWhile_append_dropWhile, hpeek ?_⟩
    rw [if_pos h]
    exact (reads_bump_cons _ _).bind (reads_skipWhile _ _)
  · rw [fraction_of_not h]
    refine takesPart_nil _ (hpeek ?_)
    rw [if_neg h]
    exact .pure _ _

theorem takesPart_sign (rest : List Char) :
    TakesPart text (skipSign text) rest (Lexer.sign rest) := by
  have htake (c : Char) (rest : List Char) (hc : (c = '+' || c = '-') = true) :
      Reads text (skipSign text) (c :: rest) () rest := by
    refine (reads_peek_cons c rest).bind ?_
    rw [Option.any_some, if_pos hc]
    exact (reads_bump_cons c rest).bind (.pure _ _)
  rw [Lexer.sign.eq_def]
  split
  · exact ⟨rfl, htake _ _ rfl⟩
  · exact ⟨rfl, htake _ _ rfl⟩
  · rename_i hplus hminus
    refine takesPart_nil _ ((reads_peek rest).bind ?_)
    rw [if_neg]
    · exact .pure _ _
    · intro h
      obtain ⟨c, hc, h⟩ := (Option.any_eq_true _ _).1 h
      obtain ⟨rest, rfl⟩ := List.head?_eq_some_iff.1 hc
      rcases (Bool.or_eq_true _ _).mp h with h | h
      · exact hplus rest (congrArg (· :: rest) (of_decide_eq_true h))
      · exact hminus rest (congrArg (· :: rest) (of_decide_eq_true h))

theorem takesPart_exponent (rest : List Char) :
    TakesPart text (skipExponent text) rest (Lexer.exponent rest) := by
  cases rest with
  | nil => exact takesPart_nil _ ((reads_peek []).bind (.pure _ _))
  | cons e rest =>
    rw [Lexer.exponent]
    by_cases he : (e = 'e' || e = 'E') = true
    · obtain ⟨happend, hsign⟩ := takesPart_sign text rest
      rw [if_pos he]
      simp only [List.span_eq_takeWhile_dropWhile]
      refine ⟨?_, (reads_peek_cons e rest).bind ?_⟩
      · rw [List.cons_append, List.append_assoc, List.takeWhile_append_dropWhile, happend]
      · rw [Option.any_some, if_pos he]
        exact (reads_bump_cons e rest).bind (hsign.bind (reads_skipWhile _ _))
    · rw [if_neg he]
      refine takesPart_nil _ ((reads_peek_cons e rest).bind ?_)
      rw [Option.any_some, if_neg he]
      exact .pure _ _

/-! ### Readers of tokens -/

variable {text}

/-- What is returned for an attempt at an offset. -/
def reading {α : Type} (start : Nat) (found : Except SyntaxFault α) : Reading α :=
  found.mapError (⟨·, start⟩)

/-- The reader returns what the attempt finds, and leaves what it leaves. -/
def ReadsAttempt {α : Type} (text : List Char) (step : Scan (Reading α)) (start : Nat)
    (rest : List Char) (attempt : Lexer.Attempt α) : Prop :=
  Reads text step rest (reading start attempt.1) attempt.2

theorem readsAttempt_number {c : Char} {rest : List Char} (hc : c.isDigit = true)
    (h : c :: rest <:+ text) : ReadsAttempt text (number text (place text (c :: rest)))
      (place text (c :: rest)) rest (Lexer.number (c :: rest)) := by
  obtain ⟨hfraction, hreads⟩ := takesPart_fraction text (rest.dropWhile Char.isDigit)
  obtain ⟨hexponent, hreads'⟩ :=
    takesPart_exponent text (Lexer.fraction (rest.dropWhile Char.isDigit)).2
  have hspan : (c :: rest).span Char.isDigit =
      (c :: rest.takeWhile Char.isDigit, rest.dropWhile Char.isDigit) := by
    rw [List.span_eq_takeWhile_dropWhile, List.takeWhile_cons_of_pos hc,
      List.dropWhile_cons_of_pos hc]
  rw [Lexer.number, hspan]
  generalize hf : Lexer.fraction (rest.dropWhile Char.isDigit) = fraction at *
  generalize he : Lexer.exponent fraction.2 = exponent at *
  have hall : (c :: rest.takeWhile Char.isDigit ++ fraction.1 ++ exponent.1) ++ exponent.2 =
      c :: rest := by
    rw [List.append_assoc, hexponent, List.append_assoc, hfraction, List.cons_append,
      List.takeWhile_append_dropWhile]
  have hbehind := reads_behind (hall.symm ▸ h)
  rw [hall] at hbehind
  refine (reads_skipWhile _ _).bind (hreads.bind (hreads'.bind (hbehind.bind ?_)))
  simp only [hf, he]
  cases Number.read? (c :: rest.takeWhile Char.isDigit ++ fraction.1 ++ exponent.1) with
  | some value => exact .pure _ _
  | none => exact .pure _ _

theorem reads_word {c : Char} {rest : List Char} (h : c :: rest <:+ text) :
    Reads text (word text (place text (c :: rest))) rest
      (.ok (.word (String.ofList (c :: rest.takeWhile Text.isNamePart))))
      (rest.dropWhile Text.isNamePart) := by
  have hall : (c :: rest.takeWhile Text.isNamePart) ++ rest.dropWhile Text.isNamePart =
      c :: rest := congrArg (c :: ·) List.takeWhile_append_dropWhile
  have hbehind := reads_behind (hall.symm ▸ h)
  rw [hall] at hbehind
  exact (reads_skipWhile _ _).bind (hbehind.bind (.pure _ _))

variable (text) in
/-- The reader of a quoted text returns what it has read of the content with what follows of it. -/
theorem reads_quoted (mark : Char) (start : Nat) (content rest : List Char) :
    Reads text (quoted text mark start content) rest
      (reading start ((Lexer.content mark rest).1.elim (.error .unterminatedText) fun more =>
        .ok (.text (String.ofList (content ++ more)))))
      (Lexer.content mark rest).2 := by
  fun_induction Lexer.content mark rest generalizing content with
  | case1 =>
    rw [quoted]
    exact reads_bump_nil.bind (.pure _ _)
  | case2 rest =>
    rw [quoted]
    refine (reads_bump_cons _ rest).bind ?_
    simp only [if_true, Option.elim_some, List.append_nil]
    exact .pure _ _
  | case3 hmark =>
    rw [quoted]
    refine (reads_bump_cons _ _).bind ?_
    simp only [if_neg hmark, if_true]
    exact reads_bump_nil.bind (.pure _ _)
  | case4 escaped rest more rest' hrest hmark ih =>
    rw [quoted]
    refine (reads_bump_cons _ _).bind ?_
    simp only [if_neg hmark, if_true]
    refine (reads_bump_cons _ _).bind ?_
    have hfound := ih (content ++ [Lexer.unescape escaped])
    rw [hrest] at hfound
    cases more <;> simpa using hfound
  | case5 c rest hmark hescape more rest' hrest ih =>
    rw [quoted]
    refine (reads_bump_cons _ _).bind ?_
    simp only [if_neg hmark, if_neg hescape]
    have hfound := ih (content ++ [c])
    rw [hrest] at hfound
    cases more <;> simpa using hfound

theorem readsAttempt_quoted (mark : Char) (start : Nat) (rest : List Char) :
    ReadsAttempt text (quoted text mark start []) start rest (Lexer.quoted mark rest) := by
  have hreads := reads_quoted text mark start [] rest
  rw [Lexer.quoted]
  split
  · rename_i content rest' hcontent
    rw [hcontent] at hreads
    exact hreads
  · rename_i rest' hcontent
    rw [hcontent] at hreads
    exact hreads

/-! ### Punctuation -/

section Punct

variable {c : Char} {start : Nat} {rest : List Char} {otherwise : Scan (Reading Punct)}
  {attempt : Lexer.Attempt Punct}

theorem readsAttempt_double (second : Char) (mark : Punct)
    (h : ReadsAttempt text otherwise start rest attempt) :
    ReadsAttempt text (do if ← eat text second then return .ok mark else otherwise) start rest
      (match Lexer.eat second rest with
        | some rest => (.ok mark, rest)
        | none => attempt) := by
  cases he : Lexer.eat second rest with
  | some rest' => exact (reads_eat_of_eq_some he).bind (.pure _ _)
  | none => exact (reads_eat_of_eq_none he).bind h

variable (text) in
theorem reads_eat (c : Char) (rest : List Char) :
    ∃ eaten, Reads text (eat text c) rest eaten (Lexer.eatAny c rest) := by
  rw [Lexer.eatAny]
  cases he : Lexer.eat c rest with
  | some rest' => exact ⟨true, reads_eat_of_eq_some he⟩
  | none => exact ⟨false, reads_eat_of_eq_none he⟩

theorem readsAttempt_equality (mark : Punct)
    (h : ReadsAttempt text otherwise start rest attempt) :
    ReadsAttempt text (do
        if ← eat text '=' then
          let _ ← eat text '='
          return .ok mark
        else otherwise) start rest
      (match Lexer.eat '=' rest with
        | some rest => (.ok mark, Lexer.eatAny '=' rest)
        | none => attempt) := by
  cases he : Lexer.eat '=' rest with
  | some rest' =>
    obtain ⟨eaten, hmore⟩ := reads_eat text '=' rest'
    exact (reads_eat_of_eq_some he).bind (hmore.bind (.pure _ _))
  | none => exact (reads_eat_of_eq_none he).bind h

variable (text) in
theorem readsAttempt_punct (c : Char) (start : Nat) (rest : List Char) :
    ReadsAttempt text (punct text c start) start rest (Lexer.punct c rest) := by
  have hone (mark : Punct) : ReadsAttempt text (return .ok mark) start rest (.ok mark, rest) :=
    .pure _ _
  have hunknown (c : Char) : ReadsAttempt (α := Punct) text
      (return .error ⟨.unexpectedCharacter c, start⟩) start rest
      (.error (.unexpectedCharacter c), rest) := .pure _ _
  rw [punct.eq_def]
  split
  case h_20 =>
    rw [Lexer.punct]
    exact hunknown _
    all_goals assumption
  all_goals first
    | exact hone _
    | exact readsAttempt_double _ _ (hone _)
    | exact readsAttempt_double _ _ (hunknown _)
    | exact readsAttempt_equality _ (hone _)
    | exact readsAttempt_equality _ (hunknown _)

end Punct

/-- The token that starts with a character is read behind it. -/
theorem readsAttempt_token {c : Char} {rest : List Char} (h : c :: rest <:+ text) :
    ReadsAttempt text (token text c (place text (c :: rest))) (place text (c :: rest)) rest
      (Lexer.token c rest) := by
  rw [token, Lexer.token]
  split
  · rename_i hc
    exact readsAttempt_number hc h
  · split
    · rw [List.span_eq_takeWhile_dropWhile]
      exact reads_word h
    · split
      · exact readsAttempt_quoted c _ rest
      · have hmark := readsAttempt_punct text c (place text (c :: rest)) rest
        generalize Lexer.punct c rest = attempt at hmark ⊢
        obtain ⟨mark, behind⟩ := attempt
        refine hmark.bind ?_
        cases mark with
        | ok mark => exact .pure _ _
        | error fault => exact .pure _ _

theorem skip_suffix (rest : List Char) : Lexer.skip .space rest <:+ rest :=
  (reads_skipTrivia rest rest).suffix

theorem token_suffix (c : Char) (rest : List Char) : (Lexer.token c rest).2 <:+ rest :=
  (readsAttempt_token (List.suffix_refl (c :: rest))).suffix

/-! ### The next lexeme -/

theorem reads_get (rest : List Char) :
    Reads text (get : Scan Cursor) rest (cursor text rest) rest :=
  ⟨List.suffix_rfl, fun _ => rfl⟩

section Next

variable {rest : List Char} (lenient : Bool) (h : rest <:+ text)

include h

theorem run_next_nil (hskip : Lexer.skip .space rest = []) :
    (next text lenient).run (cursor text rest) = some (none, cursor text []) := by
  have htrivia := reads_skipTrivia text rest
  rw [hskip] at htrivia
  have hnil := htrivia.suffix.trans h
  rw [next, (reads_get rest).run_bind h, if_neg (by simp [cursor]), htrivia.run_bind h,
    (reads_get []).run_bind hnil]
  exact reads_bump_nil.run_bind hnil

/-- Where a token starts, the attempt to read it decides what comes next. -/
theorem run_next_cons {c : Char} {rest' : List Char} (hskip : Lexer.skip .space rest = c :: rest') :
    (next text lenient).run (cursor text rest) =
      match Lexer.token c rest' with
      | (.ok token, behind) =>
        some (some (.ok ⟨token, place text (c :: rest')⟩), cursor text behind)
      | (.error fault, behind) =>
        if lenient then (next text lenient).run (cursor text behind)
        else some (some (.error ⟨fault, place text (c :: rest')⟩),
          { cursor text behind with ended := true }) := by
  have htrivia := reads_skipTrivia text rest
  rw [hskip] at htrivia
  have hcons := htrivia.suffix.trans h
  have htoken := readsAttempt_token hcons
  conv_lhs => rw [next]
  rw [(reads_get rest).run_bind h, if_neg (by simp [cursor]), htrivia.run_bind h,
    (reads_get (c :: rest')).run_bind hcons]
  refine ((reads_bump_cons c rest').run_bind hcons).trans ?_
  refine (htoken.run_bind ((List.suffix_cons c rest').trans hcons)).trans ?_
  obtain ⟨found, behind⟩ := Lexer.token c rest'
  cases found with
  | ok token => rfl
  | error fault =>
    cases lenient with
    | true => rfl
    | false => rfl

end Next

/-! ### The scans -/

theorem run_items_nil (lenient : Bool) {rest : List Char} (h : rest <:+ text)
    (hskip : Lexer.skip .space rest = []) :
    (items text lenient).run (cursor text rest) = some ([], cursor text []) := by
  rw [items, StateT.run_bind, run_next_nil lenient h hskip]
  rfl

/-- After its end the strict scan lists nothing more. -/
theorem run_items_ended (lenient : Bool) {s : Cursor} (h : s.ended = true) :
    (items text lenient).run s = some ([], s) := by
  have hnext : (next text lenient).run s = some (none, s) := by
    rw [next, StateT.run_bind]
    simp [h]
  rw [items, StateT.run_bind, hnext]
  rfl

/-- A list up to its first error. -/
def upToError : List (Reading Lexeme) → List (Reading Lexeme)
  | [] => []
  | .ok lexeme :: rest => .ok lexeme :: upToError rest
  | .error error :: _ => [.error error]

/-- What is listed for an attempt at an offset. -/
def itemAt (offset : Nat) : Except SyntaxFault Token → Reading Lexeme
  | .ok token => .ok ⟨token, offset⟩
  | .error fault => .error ⟨fault, offset⟩

/-- Induction along a scan: what is left is trivia, or a token is attempted behind trivia and the
scan goes on behind the attempt. -/
theorem scanFrom_induction (total : Nat) {motive : List Char → List (Reading Lexeme) → Prop}
    (nil : ∀ rest, Lexer.skip .space rest = [] → motive rest [])
    (cons : ∀ rest c rest' found behind items, Lexer.skip .space rest = c :: rest' →
      c :: rest' <:+ rest → Lexer.token c rest' = (found, behind) → behind <:+ rest' →
      motive behind items →
      motive rest (itemAt (total - byteSize (c :: rest')) found :: items))
    (fuel : Nat) (rest : List Char) (hfuel : rest.length ≤ fuel) :
    motive rest (Lexer.scanFrom total fuel rest) := by
  induction fuel generalizing rest with
  | zero =>
    obtain rfl := List.length_eq_zero_iff.1 (Nat.le_zero.1 hfuel)
    exact nil [] rfl
  | succ fuel ih =>
    rw [Lexer.scanFrom]
    split
    · rename_i hskip
      exact nil rest hskip
    · rename_i c rest' hskip
      have hcons : c :: rest' <:+ rest := hskip ▸ skip_suffix rest
      have hbehind := token_suffix c rest'
      obtain ⟨found, behind, ht⟩ : ∃ found behind, Lexer.token c rest' = (found, behind) :=
        ⟨_, _, rfl⟩
      rw [ht] at hbehind ⊢
      have hlength : behind.length < rest.length :=
        (Nat.lt_succ_of_le hbehind.length_le).trans_le hcons.length_le
      have hmore := ih behind (Nat.le_of_lt_succ (hlength.trans_le hfuel))
      cases found with
      | ok token => exact cons rest c rest' (.ok token) behind _ hskip hcons ht hbehind hmore
      | error fault => exact cons rest c rest' (.error fault) behind _ hskip hcons ht hbehind hmore

/-- The strict scan lists what there is up to the first error. -/
theorem run_items_strict (fuel : Nat) {rest : List Char} (h : rest <:+ text)
    (hfuel : rest.length ≤ fuel) : ∃ s, (items text false).run (cursor text rest) =
      some (upToError (Lexer.scanFrom (byteSize text) fuel rest), s) := by
  refine scanFrom_induction _ (motive := fun rest found => rest <:+ text → ∃ s,
    (items text false).run (cursor text rest) = some (upToError found, s))
    (fun rest hskip h => ?_)
    (fun rest c rest' found behind more hskip hcons htoken hbehind ih h => ?_) fuel rest hfuel h
  · exact ⟨_, run_items_nil false h hskip⟩
  · have hnext := run_next_cons false h hskip
    rw [htoken] at hnext
    rw [items, StateT.run_bind, hnext]
    cases found with
    | ok token =>
      obtain ⟨s, hmore⟩ := ih (hbehind.trans ((List.suffix_cons c rest').trans (hcons.trans h)))
      refine ⟨s, ?_⟩
      change (items text false >>= fun more => pure (_ :: more)).run (cursor text behind) = _
      rw [StateT.run_bind, hmore]
      rfl
    | error fault =>
      refine ⟨{ cursor text behind with ended := true }, ?_⟩
      change (items text false >>= fun more => pure (_ :: more)).run
        { cursor text behind with ended := true } = _
      rw [StateT.run_bind, run_items_ended false rfl]
      rfl

/-- The lenient scan lists the lexemes there are. -/
theorem run_items_lenient (fuel : Nat) {rest : List Char} (h : rest <:+ text)
    (hfuel : rest.length ≤ fuel) : ∃ s, (items text true).run (cursor text rest) =
      some ((Lexer.scanFrom (byteSize text) fuel rest).filter Except.isOk, s) := by
  refine scanFrom_induction _ (motive := fun rest found => rest <:+ text → ∃ s,
    (items text true).run (cursor text rest) = some (found.filter Except.isOk, s))
    (fun rest hskip h => ?_)
    (fun rest c rest' found behind more hskip hcons htoken hbehind ih h => ?_) fuel rest hfuel h
  · exact ⟨_, run_items_nil true h hskip⟩
  · have hnext := run_next_cons true h hskip
    rw [htoken] at hnext
    obtain ⟨s, hmore⟩ := ih (hbehind.trans ((List.suffix_cons c rest').trans (hcons.trans h)))
    refine ⟨s, ?_⟩
    rw [items, StateT.run_bind, hnext]
    cases found with
    | ok token =>
      change (items text true >>= fun more => pure (_ :: more)).run (cursor text behind) = _
      rw [StateT.run_bind, hmore]
      rfl
    | error fault =>
      -- An error is passed over inside the search for the next lexeme.
      rw [items, StateT.run_bind] at hmore
      exact hmore

theorem cursor_self (text : List Char) : cursor text text = ⟨0, false⟩ := by
  rw [cursor, place, Nat.sub_self]

/-- The strict scan of a text ends, with what there is up to the first error. -/
theorem scan?_strict (text : String) : scan? text false = some (upToError (Lexer.scan text)) := by
  obtain ⟨s, h⟩ := run_items_strict text.toList.length (List.suffix_refl text.toList) le_rfl
  rw [cursor_self] at h
  rw [scan?, h]
  rfl

/-- The lenient scan of a text ends, with the lexemes there are. -/
theorem scan?_lenient (text : String) :
    scan? text true = some ((Lexer.scan text).filter Except.isOk) := by
  obtain ⟨s, h⟩ := run_items_lenient text.toList.length (List.suffix_refl text.toList) le_rfl
  rw [cursor_self] at h
  rw [scan?, h]
  rfl

theorem mapM_id_upToError (items : List (Reading Lexeme)) :
    (upToError items).mapM id = items.mapM id := by
  fun_induction upToError items with
  | case1 => rfl
  | case2 lexeme rest ih => rw [List.mapM_cons, List.mapM_cons, ih]
  | case3 error rest => rfl

/-- Lexemes, then an error, then more items. -/
def parted (before : List Lexeme) (error : SyntaxError) (later : List (Reading Lexeme)) :
    List (Reading Lexeme) := before.map .ok ++ .error error :: later

/-- The error of a list that has one parts it, and the strict scan ends there. -/
theorem parted_of_mapM_id {items : List (Reading Lexeme)} {error : SyntaxError}
    (h : items.mapM id = .error error) : ∃ before later,
      items = parted before error later ∧ upToError items = parted before error [] := by
  fun_induction upToError items with
  | case1 => cases h
  | case2 lexeme rest ih =>
    rw [List.mapM_cons] at h
    cases hrest : rest.mapM id with
    | ok lexemes =>
      rw [hrest] at h
      cases h
    | error last =>
      rw [hrest] at h
      cases h
      obtain ⟨before, later, hitems, hup⟩ := ih hrest
      exact ⟨lexeme :: before, later, congrArg (.ok lexeme :: ·) hitems,
        congrArg (.ok lexeme :: ·) hup⟩
  | case3 first rest =>
    cases h
    exact ⟨[], rest, rfl, rfl⟩

/-- **The strict scan** of every text ends, and reads the text as `Lexer.tokenize` does. -/
theorem tokenize?_eq (text : String) : tokenize? text = some (Lexer.tokenize text) := by
  rw [tokenize?, scan?_strict, Option.map_some, mapM_id_upToError, Lexer.tokenize]

/-- The lenient reading keeps the lexemes of a scan. -/
theorem tokenizeLenient_eq_filterMap (text : String) :
    Lexer.tokenizeLenient text = (Lexer.scan text).filterMap Except.toOption := by
  rw [Lexer.tokenizeLenient]
  refine congrArg (fun f => List.filterMap f _) (funext fun item => ?_)
  cases item <;> rfl

/-- **The lenient scan** of every text ends, and reads the text as `Lexer.tokenizeLenient` does. -/
theorem tokenizeLenient?_eq (text : String) :
    tokenizeLenient? text = some (Lexer.tokenizeLenient text) := by
  rw [tokenizeLenient?, scan?_lenient, Option.map_some, tokenizeLenient_eq_filterMap,
    List.filterMap_filter]
  refine congrArg (fun f => some (List.filterMap f _)) (funext fun item => ?_)
  cases item <;> rfl

/-! ### Offsets -/

/-- The offset of a lexeme or an error. -/
def itemOffset : Reading Lexeme → Nat
  | .ok lexeme => lexeme.offset
  | .error error => error.offset

theorem itemOffset_itemAt (offset : Nat) (found : Except SyntaxFault Token) :
    itemOffset (itemAt offset found) = offset := by
  cases found <;> rfl

/-- The offset is the place of a character, no earlier than `rest`. -/
def Stands (text rest : List Char) (offset : Nat) : Prop :=
  ∃ c behind, c :: behind <:+ rest ∧ offset = place text (c :: behind)

theorem Stands.mono {rest rest' : List Char} {offset : Nat} (h : Stands text rest offset)
    (hr : rest <:+ rest') : Stands text rest' offset := by
  obtain ⟨c, behind, hc, ho⟩ := h
  exact ⟨c, behind, hc.trans hr, ho⟩

/-- What stands in the text behind a character stands behind it in bytes. -/
theorem Stands.place_lt {c : Char} {rest : List Char} {offset : Nat} (h : Stands text rest offset)
    (hc : c :: rest <:+ text) : place text (c :: rest) < offset := by
  obtain ⟨d, behind, ⟨before, rfl⟩, rfl⟩ := h
  rw [← List.cons_append] at hc ⊢
  have hplace := place_of_append hc
  have hpos := c.utf8Size_pos
  rw [Lexer.byteSize_eq, Template.length_bytes_cons] at hplace
  omega

/-- The items of a scan stand one behind the other. -/
theorem offsets_scanFrom (fuel : Nat) {rest : List Char} (h : rest <:+ text)
    (hfuel : rest.length ≤ fuel) :
    (∀ item ∈ Lexer.scanFrom (byteSize text) fuel rest, Stands text rest (itemOffset item)) ∧
      (Lexer.scanFrom (byteSize text) fuel rest).Pairwise fun a b =>
        itemOffset a < itemOffset b := by
  refine scanFrom_induction _ (motive := fun rest found => rest <:+ text →
      (∀ item ∈ found, Stands text rest (itemOffset item)) ∧
        found.Pairwise fun a b => itemOffset a < itemOffset b)
    (fun rest _ _ => ⟨nofun, .nil⟩)
    (fun rest c rest' found behind more _ hcons _ hbehind ih h => ?_) fuel rest hfuel h
  have hrest : behind <:+ rest := hbehind.trans ((List.suffix_cons c rest').trans hcons)
  obtain ⟨hstands, hpairwise⟩ := ih (hrest.trans h)
  refine ⟨List.forall_mem_cons.2 ⟨?_, fun item hitem => ?_⟩,
    List.pairwise_cons.2 ⟨fun item hitem => ?_, hpairwise⟩⟩
  · rw [itemOffset_itemAt]
    exact ⟨c, rest', hcons, rfl⟩
  · exact (hstands item hitem).mono hrest
  · rw [itemOffset_itemAt]
    exact ((hstands item hitem).mono hbehind).place_lt (hcons.trans h)

/-- What stands in a text does so between two characters, in front of the end. -/
theorem Stands.isValid {text : String} {offset : Nat} (h : Stands text.toList text.toList offset) :
    String.Pos.Raw.IsValid text ⟨offset⟩ ∧ offset < text.utf8ByteSize := by
  obtain ⟨c, behind, ⟨before, hbefore⟩, rfl⟩ := h
  have htext : text = String.ofList before ++ String.ofList (c :: behind) := by
    rw [← String.ofList_append, hbefore, String.ofList_toList]
  have hplace : place text.toList (c :: behind) = (String.ofList before).utf8ByteSize := by
    rw [← hbefore, place_append, Lexer.utf8ByteSize_ofList]
  rw [hplace]
  refine ⟨String.Pos.Raw.isValid_iff_exists_append.2 ⟨_, _, htext, rfl⟩, ?_⟩
  have hsize := congrArg String.utf8ByteSize htext
  rw [String.utf8ByteSize_append, Lexer.utf8ByteSize_ofList (c :: behind), Lexer.byteSize_eq,
    Template.length_bytes_cons] at hsize
  have := c.utf8Size_pos
  omega

end Scanner

end Recalc
