import Recalc.Expr.Descent
import Recalc.Proofs.Expr.Names
import Recalc.Proofs.Expr.Scanner

/-!
# Parsing ends, with a tree or a well-placed error

The parser that nothing bounds ends on every text, with what the parser with bounds finds, since
each round of a loop takes a lexeme and each expression inside another one raises the counter. Its
errors show at the offset of a lexeme or at the end of the text (`Ends`), and those of the scanner
where a character stands (`parseEnds`). Ending is a way to follow the parser, so each function ends
if the body of the call does.
-/

namespace Recalc

namespace Parser

namespace Descent

variable {α β : Type}

theorem Pending.run_pure (stop : Nat) (a : α) : (pure a : Pending α).run stop = Pure.pure a := by
  change (done (.ok a)).run stop = _
  rw [run]
  rfl

theorem Pending.run_bind (stop : Nat) (pending : Pending α) (f : α → Pending β) :
    (pending >>= f).run stop = pending.run stop >>= fun a => (f a).run stop := by
  induction pending with
  | done result =>
    rw [run]
    cases result with
    | error error =>
      change (done (.error error)).run stop = _
      rw [run]
      rfl
    | ok a => rfl
  | call c next ih =>
    change (call c fun found => next found >>= f).run stop = _
    rw [run, run, bind_assoc]
    exact bind_congr ih

/-- A call does what the body of the function does. -/
theorem Pending.run_ask (stop : Nat) (c : Call) : (ask c).run stop = (c.body stop).run stop := by
  rw [ask, run]
  simp only [run_pure, bind_pure]

end Descent

open Descent (Call Pending)

/-- The parse that nothing bounds ends as the other one, and an error is at the offset of a lexeme
or of the end. -/
structure Ends {α : Type} (stop : Nat) (lexemes : List Lexeme) (pending : Pending α)
    (parse : Except SyntaxError α) : Prop where
  /-- Both find the same. -/
  same : (pending.run stop).run = some parse
  /-- An error is well placed. -/
  marked : FailsAt stop lexemes parse

namespace Ends

variable {stop : Nat} {whole : List Lexeme}

theorem lift {α : Type} {parse : Except SyntaxError α} (h : FailsAt stop whole parse) :
    Ends stop whole (liftM parse) parse where
  same := by
    change ((Pending.done parse).run stop).run = some parse
    rw [Pending.run]
    rfl
  marked := h

theorem bind {α β : Type} {pending : Pending α} {parse : Except SyntaxError α} {f : α → Pending β}
    {g : α → Except SyntaxError β} (h : Ends stop whole pending parse)
    (hf : ∀ a, parse = .ok a → Ends stop whole (f a) (g a)) :
    Ends stop whole (pending >>= f) (parse >>= g) := by
  obtain ⟨hsame, hmarked⟩ := h
  cases parse with
  | error error =>
    refine ⟨?_, failsWith_error (hmarked error rfl)⟩
    rw [Pending.run_bind, ExceptT.run_bind, hsame]
    rfl
  | ok a =>
    obtain ⟨hsame', hmarked'⟩ := hf a rfl
    refine ⟨?_, hmarked'⟩
    rw [Pending.run_bind, ExceptT.run_bind, hsame]
    exact hsame'

/-- Ending as a parse is a way to follow it. -/
def follows (stop : Nat) (whole : List Lexeme) : Follows Pending stop whole where
  Rel pending parse := Ends stop whole pending parse
  pure a := .lift (failsWith_ok a)
  lift := .lift
  bind := .bind

/-- A call ends if the body of the function does. -/
theorem ask (c : Call) {parse : Except SyntaxError c.Found} {Good : c.Found → Prop}
    (h : (follows stop whole).Finds Good (c.body stop) parse) :
    (follows stop whole).Finds Good (.ask c) parse where
  rel := ⟨(congrArg ExceptT.run (Pending.run_ask stop c)).trans h.rel.same, h.rel.marked⟩
  good := h.good

end Ends

/-! ### The functions of a layer -/

section Layer

variable {stop nesting : Nat} {whole lexemes : List Lexeme}
  {inner : Nat → List Lexeme → Except SyntaxError (Parsed × List Lexeme)}
  (hin : (Ends.follows stop whole).Inside (Descent.expression nesting) inner)
include hin

theorem ends_items (n : Nat) (hs : lexemes <:+ whole) (hn : lexemes.length < n) :
    (Ends.follows stop whole).Leaves lexemes (Descent.items nesting lexemes)
      (items stop inner n lexemes) := by
  induction n generalizing lexemes with
  | zero => omega
  | succ n ih =>
    refine Ends.ask (.items nesting lexemes) (Follows.items _ hin hs fun rest hrest hless => ?_)
    exact ih hrest (by omega)

theorem ends_primary (fuel : Nat) (hs : lexemes <:+ whole) (hfuel : lexemes.length < fuel) :
    (Ends.follows stop whole).Leaves lexemes (Descent.primary nesting lexemes)
      (primary stop inner fuel lexemes) :=
  Ends.ask (.primary nesting lexemes) <| Follows.primary _ hin hs fun _ hrest hless =>
    ends_items hin fuel hrest (hless.trans hfuel)

theorem ends_suffixes (n : Nat) (base : Parsed) (hs : lexemes <:+ whole)
    (hn : lexemes.length < n) :
    (Ends.follows stop whole).Leaves lexemes (Descent.suffixes nesting base lexemes)
      (suffixes stop inner n base lexemes) := by
  induction n generalizing base lexemes with
  | zero => omega
  | succ n ih =>
    refine Ends.ask (.suffixes nesting base lexemes)
      (Follows.suffixes _ hin base hs fun base rest hrest hless => ?_)
    exact ih base hrest (by omega)

theorem ends_operand (fuel : Nat) (hs : lexemes <:+ whole) (hfuel : lexemes.length < fuel) :
    (Ends.follows stop whole).Leaves lexemes (Descent.operand nesting lexemes)
      (operand stop inner fuel lexemes) := by
  refine Ends.ask (.operand nesting lexemes)
    (Follows.operand _ hin hs (ends_primary hin fuel hs hfuel) fun base rest hrest => ?_)
  exact ends_suffixes hin fuel base (hrest.trans hs) (hrest.length_le.trans_lt hfuel)

theorem ends_operators (power n : Nat) (left : Parsed) (hs : lexemes <:+ whole)
    (hn : lexemes.length < n) :
    (Ends.follows stop whole).Leaves lexemes (Descent.operators nesting power left lexemes)
      (operators stop inner power n left lexemes) := by
  induction n generalizing left lexemes with
  | zero => omega
  | succ n ih =>
    refine Ends.ask (.operators nesting power left lexemes)
      (Follows.operators _ hin power left hs fun left rest hrest hless => ?_)
    exact ih left hrest (by omega)

end Layer

/-- An expression in some open calls finds what one finds that has the rest of the bound as room. -/
theorem ends_expression (stop : Nat) {fuel nesting room : Nat} {whole : List Lexeme}
    (hfuel : whole.length < fuel) (hroom : nesting + room = maxDepth) :
    (Ends.follows stop whole).Inside (Descent.expression nesting) (expression stop fuel room) := by
  induction room generalizing nesting with
  | zero =>
    intro power lexemes hs
    refine Ends.ask (.expression nesting power lexemes) ?_
    rw [Call.body, if_pos (show nesting = maxDepth from hroom)]
    exact .fail ((marks_offsetOf stop lexemes).mono hs)
  | succ room ih =>
    intro power lexemes hs
    have hin : (Ends.follows stop whole).Inside (Descent.expression (nesting + 1))
        (expression stop fuel room) := ih (by omega)
    have hless : lexemes.length < fuel := hs.length_le.trans_lt hfuel
    refine Ends.ask (.expression nesting power lexemes) ?_
    rw [Call.body, if_neg (by omega)]
    refine Follows.layer _ (ends_operand hin fuel hs hless) fun left rest hrest => ?_
    exact ends_operators hin power fuel left (hrest.trans hs) (hrest.length_le.trans_lt hless)

theorem ends_ofLexemes (stop : Nat) (lexemes : List Lexeme) :
    Ends stop lexemes (Body.ofLexemes (Descent.expression 0 0) lexemes)
      (ofLexemes stop lexemes) :=
  (Follows.ofLexemes _ List.suffix_rfl
    (ends_expression stop (Nat.lt_succ_self _) (Nat.zero_add _) 0 lexemes List.suffix_rfl)).rel

end Parser

/-! ### Texts -/

namespace Lexer

theorem stands_scan {text : String} {item : Except SyntaxError Lexeme} (h : item ∈ scan text) :
    Scanner.Stands text.toList text.toList (Scanner.itemOffset item) :=
  (Scanner.offsets_scanFrom text.toList.length (List.suffix_refl text.toList) le_rfl).1 item h

end Lexer

namespace Expr

/-- The offset is between two characters of the text, or at one of its ends. -/
def Placed (text : String) (offset : Nat) : Prop := String.Pos.Raw.IsValid text ⟨offset⟩

/-- Parsing a text, with nothing that bounds it, ends with a tree or a well-placed error. -/
structure ParseEnds (text : String) : Prop where
  /-- The scan ends. -/
  scan_ends : Scanner.tokenize? text = some (Lexer.tokenize text)
  /-- The parse ends. -/
  parse_ends : (Parser.Descent.parse text).run = some (parse text)
  /-- An error of the scan stands between two characters, in front of the end of the text. -/
  scan_error : ∀ error, Scanner.tokenize? text = some (.error error) →
    Placed text error.offset ∧ error.offset < text.utf8ByteSize
  /-- An error of the parse stands between two characters, or at the end of the text. -/
  parse_error : ∀ error, (Parser.Descent.parse text).run = some (.error error) →
    Placed text error.offset ∧ error.offset ≤ text.utf8ByteSize

theorem placed_scan {text : String} {error : SyntaxError} (h : Lexer.tokenize text = .error error) :
    Placed text error.offset ∧ error.offset < text.utf8ByteSize := by
  obtain ⟨before, later, hscan, -⟩ := Scanner.parted_of_mapM_id h
  have hmem : .error error ∈ Lexer.scan text :=
    hscan ▸ List.mem_append_right _ List.mem_cons_self
  exact (Lexer.stands_scan hmem).isValid

theorem placed_marks {text : String} {lexemes : List Lexeme} {offset : Nat}
    (h : Lexer.tokenize text = .ok lexemes)
    (hm : Parser.Marks (Lexer.byteSize text.toList) lexemes offset) :
    Placed text offset ∧ offset ≤ text.utf8ByteSize := by
  rcases hm with rfl | ⟨lexeme, hl, rfl⟩
  · rw [← Lexer.utf8ByteSize_ofList, String.ofList_toList]
    exact ⟨String.Pos.Raw.isValid_rawEndPos, le_rfl⟩
  · have hscan : .ok lexeme ∈ Lexer.scan text :=
      Lexer.mapM_id_eq_ok h ▸ List.mem_map_of_mem hl
    exact (Lexer.stands_scan hscan).isValid.imp_right le_of_lt

/-- Nothing but the bounds sets the two parsers apart, and the bounds are never met. -/
theorem run_descent (text : String) :
    (Parser.Descent.parse text).run = some (parse text) := by
  rw [Parser.Descent.parse, ExceptT.run_bind, ExceptT.run_mk, Scanner.tokenize?_eq, parse]
  cases Lexer.tokenize text with
  | error error => rfl
  | ok lexemes => exact (Parser.ends_ofLexemes (Lexer.byteSize text.toList) lexemes).same

/-- **Parsing ends, with a tree or a well-placed error**, for every text. -/
theorem parseEnds (text : String) : ParseEnds text where
  scan_ends := Scanner.tokenize?_eq text
  parse_ends := run_descent text
  scan_error error h := by
    rw [Scanner.tokenize?_eq] at h
    exact placed_scan (Option.some.inj h)
  parse_error error h := by
    rw [run_descent, Option.some_inj, parse] at h
    cases hscan : Lexer.tokenize text with
    | error first =>
      rw [hscan] at h
      cases h
      exact (placed_scan hscan).imp_right le_of_lt
    | ok lexemes =>
      rw [hscan] at h
      exact placed_marks hscan ((Parser.ends_ofLexemes _ lexemes).marked error h)

end Expr

end Recalc
