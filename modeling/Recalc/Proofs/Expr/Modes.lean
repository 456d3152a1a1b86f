import Recalc.Proofs.Expr.Names
import Recalc.Proofs.Expr.Scanner

/-!
# The strict and the lenient scan

The two scans of a text go the same way up to the first error, where the strict one ends. So the
lexemes of the strict scan are those of the lenient one that stand in front of the error, and the
other ones of the lenient scan stand behind it (`scansAlike`). All of this rests on one list, the
lexemes and errors of the text, of which each scan leaves something out (`scan?_strict` and
`scan?_lenient`); its offsets increase, since an attempt to read a token takes a character at least,
whether it succeeds or not.
-/

namespace Recalc.Scanner

/-! ### Lists of lexemes and errors -/

theorem upToError_sublist (items : List (Reading Lexeme)) : (upToError items).Sublist items := by
  fun_induction upToError items with
  | case1 => exact .slnil
  | case2 lexeme rest ih => exact ih.cons_cons _
  | case3 error rest => exact List.singleton_sublist.2 List.mem_cons_self

theorem filterMap_toOption_map_ok (lexemes : List Lexeme) :
    (lexemes.map .ok : List (Reading Lexeme)).filterMap Except.toOption = lexemes := by
  rw [List.filterMap_map]
  exact List.filterMap_some

/-- The lexemes of a list stand one behind the other if its items do. -/
theorem pairwise_filterMap_toOption {items : List (Reading Lexeme)}
    (h : items.Pairwise fun a b => itemOffset a < itemOffset b) :
    (items.filterMap Except.toOption).Pairwise fun a b => a.offset < b.offset := by
  refine List.Pairwise.filterMap _ (fun a b hab lexeme ha other hb => ?_) h
  cases a with
  | error _ => cases ha
  | ok a =>
    cases b with
    | error _ => cases hb
    | ok b =>
      cases ha
      cases hb
      exact hab

/-- An error in a list whose items stand one behind the other parts its lexemes. -/
theorem filterMap_parted {before : List Lexeme} {error : SyntaxError}
    {later : List (Reading Lexeme)}
    (h : (parted before error later).Pairwise fun a b => itemOffset a < itemOffset b) :
    let lexemes := (parted before error later).filterMap Except.toOption
    lexemes.filter (fun lexeme => lexeme.offset < error.offset) = before ∧
      ∀ lexeme ∈ lexemes, ¬ lexeme.offset < error.offset → error.offset < lexeme.offset := by
  obtain ⟨-, hlater, hbefore⟩ := List.pairwise_append.1 h
  have hfront : ∀ lexeme ∈ before, lexeme.offset < error.offset := fun lexeme hl =>
    hbefore (.ok lexeme) (List.mem_map_of_mem hl) _ List.mem_cons_self
  have hback : ∀ lexeme ∈ later.filterMap Except.toOption, error.offset < lexeme.offset := by
    intro lexeme hl
    obtain ⟨item, hitem, he⟩ := List.mem_filterMap.1 hl
    cases item with
    | error _ => cases he
    | ok found =>
      cases he
      exact (List.pairwise_cons.1 hlater).1 _ hitem
  rw [parted, List.filterMap_append, filterMap_toOption_map_ok, List.filterMap_cons_none rfl]
  refine ⟨?_, fun lexeme hl hnot => ?_⟩
  · have hkept := List.filter_eq_self.2 fun lexeme hl => decide_eq_true (hfront lexeme hl)
    have hdropped := List.filter_eq_nil_iff.2 fun lexeme hl =>
      mt of_decide_eq_true (hback lexeme hl).not_gt
    rw [List.filter_append, hkept, hdropped, List.append_nil]
  · exact hback lexeme ((List.mem_append.1 hl).resolve_left fun hb => hnot (hfront lexeme hb))

/-! ### The scans -/

/-- The two scans of a text, side by side: what the strict one lists, and the lexemes of the lenient
one. -/
structure ScansAlike (text : String) (strict : List (Reading Lexeme)) (lenient : List Lexeme) :
    Prop where
  /-- The strict scan ends with its list. -/
  strict_eq : scan? text false = some strict
  /-- The lenient scan ends with its lexemes. -/
  lenient_eq : tokenizeLenient? text = some lenient
  /-- The offsets of the strict scan increase. -/
  strict_increases : strict.Pairwise fun a b => itemOffset a < itemOffset b
  /-- Those of the lenient scan increase. -/
  lenient_increases : lenient.Pairwise fun a b => a.offset < b.offset
  /-- If the strict scan finds no error, the lenient one has the same lexemes. -/
  same : ∀ lexemes, tokenize? text = some (.ok lexemes) → lenient = lexemes
  /-- If it finds one, its lexemes are those of the lenient scan in front of the error, and the
  others stand behind the error. -/
  upTo : ∀ error, tokenize? text = some (.error error) → ∃ before,
    strict = parted before error [] ∧
      lenient.filter (fun lexeme => lexeme.offset < error.offset) = before ∧
        ∀ lexeme ∈ lenient, ¬ lexeme.offset < error.offset → error.offset < lexeme.offset

/-- **The lenient scan sees what the strict one sees**, in every text. -/
theorem scansAlike (text : String) : ∃ strict lenient, ScansAlike text strict lenient := by
  have hincreases : (Lexer.scan text).Pairwise fun a b => itemOffset a < itemOffset b :=
    (offsets_scanFrom text.toList.length (List.suffix_refl text.toList) le_rfl).2
  have hstrict := tokenize?_eq text
  refine ⟨upToError (Lexer.scan text), Lexer.tokenizeLenient text, scan?_strict text,
    tokenizeLenient?_eq text, ?_, ?_, fun lexemes hok => ?_, fun error herror => ?_⟩
  · exact hincreases.sublist (upToError_sublist _)
  · rw [tokenizeLenient_eq_filterMap]
    exact pairwise_filterMap_toOption hincreases
  · rw [hstrict] at hok
    exact Lexer.tokenizeLenient_eq (Option.some.inj hok)
  · rw [hstrict, Lexer.tokenize, Option.some_inj] at herror
    rw [tokenizeLenient_eq_filterMap]
    obtain ⟨before, later, hscan, hup⟩ := parted_of_mapM_id herror
    rw [hscan] at hincreases
    refine ⟨before, hup, ?_⟩
    rw [hscan]
    exact filterMap_parted hincreases

/-- A number without the digits of its exponent is an error, behind which the lenient scan goes
on. -/
example : tokenize? "1e+ x" = some (.error ⟨.invalidNumber "1e+", 0⟩) ∧
    tokenizeLenient? "1e+ x" = some [⟨.word "x", 4⟩] := by
  rw [tokenize?_eq, tokenizeLenient?_eq]
  decide +kernel

end Recalc.Scanner
