import Recalc.Expr.Parser
import Recalc.Proofs.Except
import Mathlib.Data.List.Infix

/-!
# The bodies of the parser's functions

What the other modules know of the bodies of the parser's functions. An accepted round of a function
has read one of a few things, and handed on the rest (`items_succ_eq_ok` and the like). And a body
goes on as it is told: in whatever monad, if its calls go as those of the parser do, so does the
body itself (`Follows`), and it leaves an end of its lexemes.
-/

namespace Recalc.Parser

/-! ### What has been read -/

theorem expect_eq_ok {stop : Nat} {mark : Punct} {lexemes rest : List Lexeme}
    (h : expect stop mark lexemes = .ok rest) :
    ∃ offset, lexemes = ⟨.punct mark, offset⟩ :: rest := by
  cases lexemes with
  | nil => cases h
  | cons lexeme lexemes =>
    obtain ⟨token, offset⟩ := lexeme
    rw [expect] at h
    split at h
    · rename_i ht
      obtain rfl := Except.ok.inj h
      exact ⟨offset, congrArg (⟨·, offset⟩ :: lexemes) ht⟩
    · cases h

theorem unary?_eq_some {lexemes rest : List Lexeme} {op : UnaryOp} {offset : Nat}
    (h : unary? lexemes = some (op, offset, rest)) :
    ∃ mark, UnaryOp.ofPunct? mark = some op ∧ lexemes = ⟨.punct mark, offset⟩ :: rest := by
  rw [unary?.eq_def] at h
  split at h
  · rename_i mark _ _
    obtain ⟨op', hop, he⟩ := Option.map_eq_some_iff.1 h
    cases he
    exact ⟨mark, hop, rfl⟩
  · cases h

section Round

variable {stop fuel : Nat} {inner : Nat → List Lexeme → Except SyntaxError (Parsed × List Lexeme)}

/-- One round of items reads an item and what is behind it, or stops at the bracket. -/
theorem items_succ_eq_ok {lexemes rest : List Lexeme} {found : List Parsed} {n : Nat}
    (h : items stop inner (n + 1) lexemes = .ok (found, rest)) :
    (∃ offset, lexemes = ⟨.punct .rBracket, offset⟩ :: rest ∧ found = []) ∨
    (∃ item offset behind more, inner 0 lexemes = .ok (item, ⟨.punct .comma, offset⟩ :: behind) ∧
      items stop inner n behind = .ok (more, rest) ∧ found = item :: more) ∨
    ∃ item offset, inner 0 lexemes = .ok (item, ⟨.punct .rBracket, offset⟩ :: rest) ∧
      found = [item] := by
  rw [items, Body.items.eq_def] at h
  split at h
  · cases h
    exact .inl ⟨_, rfl, rfl⟩
  · obtain ⟨⟨item, mid⟩, hitem, hmid⟩ := bind_eq_ok.1 h
    simp only at hmid
    split at hmid
    · obtain ⟨⟨more, last⟩, hmore, hlast⟩ := bind_eq_ok.1 hmid
      cases hlast
      exact .inr (.inl ⟨item, _, _, more, hitem, hmore, rfl⟩)
    · obtain ⟨last, hlast, hend⟩ := bind_eq_ok.1 hmid
      cases hend
      obtain ⟨offset, rfl⟩ := expect_eq_ok hlast
      exact .inr (.inr ⟨item, offset, hitem, rfl⟩)

/-- A primary expression is one token, an expression in parentheses or a list. -/
theorem primary_eq_ok {lexemes rest : List Lexeme} {parsed : Parsed}
    (h : primary stop inner fuel lexemes = .ok (parsed, rest)) :
    (∃ x offset, lexemes = ⟨.number x, offset⟩ :: rest ∧ parsed = leaf (ofNumber x)) ∨
    (∃ content offset, lexemes = ⟨.text content, offset⟩ :: rest ∧
      parsed = leaf (.literal (.string content))) ∨
    (∃ word offset, lexemes = ⟨.word word, offset⟩ :: rest ∧ parsed = leaf (ofWord word)) ∨
    (∃ offset behind offset', lexemes = ⟨.punct .lParen, offset⟩ :: behind ∧
      inner 0 behind = .ok (parsed, ⟨.punct .rParen, offset'⟩ :: rest)) ∨
    ∃ offset behind found depth, lexemes = ⟨.punct .lBracket, offset⟩ :: behind ∧
      items stop inner fuel behind = .ok (found, rest) ∧
      deeper (found.foldl (fun depth item => max depth item.depth) 0) offset = .ok depth ∧
      parsed = ⟨.array (found.map (·.expr)), depth⟩ := by
  cases lexemes with
  | nil => cases h
  | cons lexeme lexemes =>
    obtain ⟨token, offset⟩ := lexeme
    rw [primary, Body.primary.eq_def] at h
    simp only at h
    split at h
    · cases h
      exact .inl ⟨_, _, rfl, rfl⟩
    · cases h
      exact .inr (.inl ⟨_, _, rfl, rfl⟩)
    · cases h
      exact .inr (.inr (.inl ⟨_, _, rfl, rfl⟩))
    · obtain ⟨⟨inside, mid⟩, hinside, hmid⟩ := bind_eq_ok.1 h
      obtain ⟨last, hlast, hend⟩ := bind_eq_ok.1 hmid
      cases hend
      obtain ⟨offset', rfl⟩ := expect_eq_ok hlast
      exact .inr (.inr (.inr (.inl ⟨_, _, offset', rfl, hinside⟩)))
    · obtain ⟨⟨found, mid⟩, hfound, hmid⟩ := bind_eq_ok.1 h
      obtain ⟨depth, hdepth, hend⟩ := bind_eq_ok.1 hmid
      cases hend
      exact .inr (.inr (.inr (.inr ⟨_, _, found, depth, rfl, hfound, hdepth, rfl⟩)))
    · cases h

/-- One round of suffixes reads a member or an index, or stops where no member follows. -/
theorem suffixes_succ_eq_ok {lexemes rest : List Lexeme} {base parsed : Parsed} {n : Nat}
    (h : suffixes stop inner (n + 1) base lexemes = .ok (parsed, rest)) :
    (∃ dot name offset behind longer,
      lexemes = ⟨.punct .dot, dot⟩ :: ⟨.word name, offset⟩ :: behind ∧
      addMember base name offset = .ok longer ∧
      suffixes stop inner n longer behind = .ok (parsed, rest)) ∨
    (∃ offset behind key offset' last depth, lexemes = ⟨.punct .lBracket, offset⟩ :: behind ∧
      inner 0 behind = .ok (key, ⟨.punct .rBracket, offset'⟩ :: last) ∧
      deeper (max base.depth key.depth) offset = .ok depth ∧
      suffixes stop inner n ⟨.index base.expr key.expr, depth⟩ last = .ok (parsed, rest)) ∨
    parsed = base ∧ rest = lexemes ∧ ∀ mark offset behind,
      lexemes = ⟨.punct mark, offset⟩ :: behind →
        mark ≠ .dot ∧ mark ≠ .lBracket ∧ mark ≠ .lParen := by
  rw [suffixes, Body.suffixes.eq_def] at h
  split at h
  · rename_i dot _
    split at h
    · cases h
    · rename_i name offset behind
      obtain ⟨longer, hlonger, hrest⟩ := bind_eq_ok.1 h
      exact .inl ⟨dot, name, offset, behind, longer, rfl, hlonger, hrest⟩
    · cases h
  · rename_i offset behind
    obtain ⟨⟨key, mid⟩, hkey, hmid⟩ := bind_eq_ok.1 h
    obtain ⟨last, hlast, hdeep⟩ := bind_eq_ok.1 hmid
    obtain ⟨depth, hdepth, hrest⟩ := bind_eq_ok.1 hdeep
    obtain ⟨offset', rfl⟩ := expect_eq_ok hlast
    exact .inr (.inl ⟨offset, behind, key, offset', last, depth, rfl, hkey, hdepth, hrest⟩)
  · cases h
  · rename_i hdot hbracket hparen
    cases h
    refine .inr (.inr ⟨rfl, rfl, fun mark offset behind he => ⟨?_, ?_, ?_⟩⟩) <;> rintro rfl
    · exact hdot _ _ he
    · exact hbracket _ _ he
    · exact hparen _ _ he

/-- An operand is one with an operator in front, or a primary expression with its suffixes. -/
theorem operand_eq_ok {lexemes rest : List Lexeme} {parsed : Parsed}
    (h : operand stop inner fuel lexemes = .ok (parsed, rest)) :
    (∃ mark op offset behind inside depth, UnaryOp.ofPunct? mark = some op ∧
      lexemes = ⟨.punct mark, offset⟩ :: behind ∧ inner unaryPower behind = .ok (inside, rest) ∧
      deeper inside.depth offset = .ok depth ∧ parsed = ⟨.unary op inside.expr, depth⟩) ∨
    ∃ base mid, primary stop inner fuel lexemes = .ok (base, mid) ∧
      suffixes stop inner fuel base mid = .ok (parsed, rest) := by
  rw [operand, Body.operand] at h
  split at h
  · rename_i op offset behind hunary
    obtain ⟨⟨inside, mid⟩, hinside, hmid⟩ := bind_eq_ok.1 h
    obtain ⟨depth, hdepth, hend⟩ := bind_eq_ok.1 hmid
    cases hend
    obtain ⟨mark, hop, rfl⟩ := unary?_eq_some hunary
    exact .inl ⟨mark, op, offset, behind, inside, depth, hop, rfl, hinside, hdepth, rfl⟩
  · obtain ⟨⟨base, mid⟩, hbase, hsuffixes⟩ := bind_eq_ok.1 h
    exact .inr ⟨base, mid, hbase, hsuffixes⟩

/-- One round of operators reads the two other parts of a conditional or the right operand of an
operator, or stops. -/
theorem operators_succ_eq_ok {lexemes rest : List Lexeme} {left parsed : Parsed} {power n : Nat}
    (h : operators stop inner power (n + 1) left lexemes = .ok (parsed, rest)) :
    (parsed = left ∧ rest = lexemes ∧ ∀ mark offset behind,
      lexemes = ⟨.punct mark, offset⟩ :: behind → (mark = .question → conditionalPower < power) ∧
        ∀ op, BinaryOp.ofPunct? mark = some op → leftPower op < power) ∨
    (∃ offset behind whenTrue offset' mid whenFalse last depth, power ≤ conditionalPower ∧
      lexemes = ⟨.punct .question, offset⟩ :: behind ∧
      inner 0 behind = .ok (whenTrue, ⟨.punct .colon, offset'⟩ :: mid) ∧
      inner conditionalPower mid = .ok (whenFalse, last) ∧
      deeper (max (max left.depth whenTrue.depth) whenFalse.depth) offset = .ok depth ∧
      operators stop inner power n
        ⟨.conditional left.expr whenTrue.expr whenFalse.expr, depth⟩ last = .ok (parsed, rest)) ∨
    ∃ mark offset behind op right last depth, BinaryOp.ofPunct? mark = some op ∧
      power ≤ leftPower op ∧ lexemes = ⟨.punct mark, offset⟩ :: behind ∧
      inner (rightPower op) behind = .ok (right, last) ∧
      deeper (max left.depth right.depth) offset = .ok depth ∧
      operators stop inner power n ⟨.binary op left.expr right.expr, depth⟩ last =
        .ok (parsed, rest) := by
  rw [operators, Body.operators.eq_def] at h
  split at h
  · rename_i mark offset behind
    split at h
    · rename_i hquestion
      subst hquestion
      split at h
      · rename_i hpower
        cases h
        refine .inl ⟨rfl, rfl, fun mark offset behind he => ?_⟩
        cases he
        exact ⟨fun _ => hpower, fun op hop => by cases hop⟩
      · rename_i hpower
        obtain ⟨⟨whenTrue, mid⟩, htrue, hmid⟩ := bind_eq_ok.1 h
        obtain ⟨afterColon, hcolon, hnext⟩ := bind_eq_ok.1 hmid
        obtain ⟨⟨whenFalse, last⟩, hfalse, hdeep⟩ := bind_eq_ok.1 hnext
        obtain ⟨depth, hdepth, hrest⟩ := bind_eq_ok.1 hdeep
        obtain ⟨offset', rfl⟩ := expect_eq_ok hcolon
        exact .inr (.inl ⟨offset, behind, whenTrue, offset', afterColon, whenFalse, last, depth,
          Nat.le_of_not_lt hpower, rfl, htrue, hfalse, hdepth, hrest⟩)
    · rename_i hquestion
      split at h
      · rename_i hnone
        cases h
        refine .inl ⟨rfl, rfl, fun mark offset behind he => ?_⟩
        cases he
        exact ⟨fun hq => absurd hq hquestion, fun op hop => by simp [hnone] at hop⟩
      · rename_i op hop
        split at h
        · rename_i hpower
          cases h
          refine .inl ⟨rfl, rfl, fun mark offset behind he => ?_⟩
          cases he
          exact ⟨fun hq => absurd hq hquestion, fun op' hop' => by
            rwa [Option.some.inj (hop'.symm.trans hop)]⟩
        · rename_i hpower
          obtain ⟨⟨right, last⟩, hright, hdeep⟩ := bind_eq_ok.1 h
          obtain ⟨depth, hdepth, hrest⟩ := bind_eq_ok.1 hdeep
          exact .inr (.inr ⟨mark, offset, behind, op, right, last, depth, hop,
            Nat.le_of_not_lt hpower, rfl, hright, hdepth, hrest⟩)
  · rename_i hmark
    cases h
    exact .inl ⟨rfl, rfl, fun mark offset behind he => (hmark mark offset behind he).elim⟩

/-- All lexemes are read, if there are any. -/
theorem ofLexemes_eq_ok {lexemes : List Lexeme} {expr : Expr}
    (h : ofLexemes stop lexemes = .ok expr) :
    lexemes = [] ∧ expr = .undefined ∨ ∃ depth,
      expression stop (lexemes.length + 1) maxDepth 0 lexemes = .ok (⟨expr, depth⟩, []) := by
  rw [ofLexemes, Body.ofLexemes] at h
  split at h
  · rename_i hempty
    exact .inl ⟨List.isEmpty_iff.1 hempty, (Except.ok.inj h).symm⟩
  · obtain ⟨⟨parsed, rest⟩, hparsed, hend⟩ := bind_eq_ok.1 h
    cases rest with
    | nil =>
      cases hend
      exact .inr ⟨parsed.depth, hparsed⟩
    | cons lexeme rest => cases hend

end Round

/-! ### Parsers that go alike -/

/-- The offset is that of a lexeme, or that of the end of the text. -/
def Marks (stop : Nat) (lexemes : List Lexeme) (offset : Nat) : Prop :=
  offset = stop ∨ ∃ lexeme ∈ lexemes, lexeme.offset = offset

theorem marks_head (stop : Nat) (token : Token) (offset : Nat) (rest : List Lexeme) :
    Marks stop (⟨token, offset⟩ :: rest) offset := .inr ⟨_, List.mem_cons_self, rfl⟩

theorem Marks.mono {stop : Nat} {lexemes lexemes' : List Lexeme} {offset : Nat}
    (h : Marks stop lexemes offset) (hs : lexemes <:+ lexemes') : Marks stop lexemes' offset :=
  h.imp_right fun ⟨lexeme, hl, ho⟩ => ⟨lexeme, hs.subset hl, ho⟩

theorem marks_offsetOf (stop : Nat) (lexemes : List Lexeme) :
    Marks stop lexemes (offsetOf stop lexemes) := by
  cases lexemes with
  | nil => exact .inl rfl
  | cons lexeme rest => exact marks_head stop _ _ rest

/-- An error of the parse is at the offset of a lexeme, or at the end of the text. -/
abbrev FailsAt {α : Type} (stop : Nat) (lexemes : List Lexeme) (parse : Except SyntaxError α) :
    Prop :=
  FailsWith (fun error => Marks stop lexemes error.offset) parse

/-- A way to say that a computation in a monad goes as a parse does. -/
structure Follows (m : Type → Type) [Monad m] [MonadLiftT (Except SyntaxError) m] (stop : Nat)
    (whole : List Lexeme) where
  /-- The computation goes as the parse does. -/
  Rel {α : Type} : m α → Except SyntaxError α → Prop
  /-- What is there goes as itself. -/
  pure {α : Type} (a : α) : Rel (Pure.pure a) (.ok a)
  /-- What makes no call goes as itself, if its errors show in the text. -/
  lift {α : Type} {parse : Except SyntaxError α} : FailsAt stop whole parse →
    Rel (liftM parse) parse
  /-- One computation after another goes as the one parse after the other. -/
  bind {α β : Type} {x : m α} {parse : Except SyntaxError α} {f : α → m β}
    {g : α → Except SyntaxError β} :
    Rel x parse → (∀ a, parse = .ok a → Rel (f a) (g a)) → Rel (x >>= f) (parse >>= g)

namespace Follows

variable {m : Type → Type} [Monad m] [MonadLiftT (Except SyntaxError) m] {α β : Type}
  {stop : Nat} {whole lexemes rest : List Lexeme} (F : Follows m stop whole)

/-- The computation goes as the parse does, and what they find is good. -/
structure Finds (Good : α → Prop) (x : m α) (parse : Except SyntaxError α) : Prop where
  /-- They go alike. -/
  rel : F.Rel x parse
  /-- What they find is good. -/
  good : ∀ a, parse = .ok a → Good a

/-- The computation goes as the parse does, and they leave an end of the lexemes. -/
abbrev Leaves (lexemes : List Lexeme) (x : m (α × List Lexeme))
    (parse : Except SyntaxError (α × List Lexeme)) : Prop :=
  F.Finds (fun found => found.2 <:+ lexemes) x parse

namespace Finds

variable {F} {Good Last : α → Prop} {Next : β → Prop} {x : m α} {parse : Except SyntaxError α}

theorem pure {a : α} (h : Good a) : F.Finds Good (Pure.pure a) (.ok a) :=
  ⟨F.pure a, fun _ he => Except.ok.inj he ▸ h⟩

theorem bind {f : α → m β} {g : α → Except SyntaxError β} (h : F.Finds Good x parse)
    (hf : ∀ a, Good a → F.Finds Next (f a) (g a)) : F.Finds Next (x >>= f) (parse >>= g) where
  rel := F.bind h.rel fun a ha => (hf a (h.good a ha)).rel
  good b hb := by
    obtain ⟨a, ha, hg⟩ := bind_eq_ok.1 hb
    exact (hf a (h.good a ha)).good b hg

theorem mono (h : F.Finds Good x parse) (hgood : ∀ a, Good a → Last a) : F.Finds Last x parse :=
  ⟨h.rel, fun a ha => hgood a (h.good a ha)⟩

/-! #### What makes no call -/

theorem fail {fault : SyntaxFault} {offset : Nat} (h : Marks stop whole offset) :
    F.Finds Good (liftM (Parser.fail fault offset : Except SyntaxError α))
      (Parser.fail fault offset) :=
  ⟨F.lift (failsWith_error h), nofun⟩

theorem expect (mark : Punct) (hs : rest <:+ whole) :
    F.Finds (fun left => left <:+ rest) (liftM (Parser.expect stop mark rest))
      (Parser.expect stop mark rest) := by
  refine ⟨F.lift fun error h => Marks.mono ?_ hs, fun left h => ?_⟩
  · cases rest with
    | nil =>
      cases h
      exact .inl rfl
    | cons lexeme rest =>
      rw [Parser.expect] at h
      split at h
      · cases h
      · cases h
        exact marks_head stop _ _ rest
  · obtain ⟨offset, rfl⟩ := expect_eq_ok h
    exact List.suffix_cons _ _

theorem failsAt_deeper (depth : Nat) {offset : Nat} (h : Marks stop whole offset) :
    FailsAt stop whole (Parser.deeper depth offset) := by
  intro error he
  rw [Parser.deeper] at he
  split at he
  · cases he
    exact h
  · cases he

theorem deeper (depth : Nat) {offset : Nat} (h : Marks stop whole offset) :
    F.Finds (fun _ => True) (liftM (Parser.deeper depth offset)) (Parser.deeper depth offset) :=
  ⟨F.lift (failsAt_deeper depth h), fun _ _ => trivial⟩

theorem addMember (base : Parsed) (name : String) {offset : Nat} (h : Marks stop whole offset) :
    F.Finds (fun _ => True) (liftM (Parser.addMember base name offset))
      (Parser.addMember base name offset) := by
  refine ⟨F.lift ?_, fun _ _ => trivial⟩
  rw [Parser.addMember]
  split
  · exact failsWith_ok _
  · exact (failsAt_deeper base.depth h).bind fun _ => failsWith_ok _

end Finds

/-! #### The bodies -/

section Bodies

variable {inner : Nat → List Lexeme → m (Parsed × List Lexeme)}
  {inner' : Nat → List Lexeme → Except SyntaxError (Parsed × List Lexeme)}

/-- What is nested in a layer goes as in the parser, wherever it starts. -/
def Inside (inner : Nat → List Lexeme → m (Parsed × List Lexeme))
    (inner' : Nat → List Lexeme → Except SyntaxError (Parsed × List Lexeme)) : Prop :=
  ∀ power rest, rest <:+ whole → F.Leaves rest (inner power rest) (inner' power rest)

/-- A function goes as one of the parser wherever less is left than the lexemes. -/
def Behind (lexemes : List Lexeme) (next : List Lexeme → m (α × List Lexeme))
    (next' : List Lexeme → Except SyntaxError (α × List Lexeme)) : Prop :=
  ∀ rest, rest <:+ whole → rest.length < lexemes.length → F.Leaves rest (next rest) (next' rest)

section Inside

variable (hin : F.Inside inner inner')
include hin

theorem items {next : List Lexeme → m (List Parsed × List Lexeme)}
    {next' : List Lexeme → Except SyntaxError (List Parsed × List Lexeme)} (hs : lexemes <:+ whole)
    (hnext : F.Behind lexemes next next') :
    F.Leaves lexemes (Body.items stop inner next lexemes)
      (Body.items stop inner' next' lexemes) := by
  unfold Body.items
  split
  · exact .pure (List.suffix_cons _ _)
  · refine .bind (hin 0 lexemes hs) fun found hfound => ?_
    obtain ⟨item, mid⟩ := found
    simp only
    split
    · rename_i offset rest
      have hrest : rest <:+ lexemes := (List.suffix_cons _ _).trans hfound
      have hlength := hfound.length_le
      refine .bind (hnext rest (hrest.trans hs) hlength) fun found hmore => ?_
      exact .pure (hmore.trans hrest)
    · refine .bind (.expect _ (hfound.trans hs)) fun left hleft => ?_
      exact .pure (hleft.trans hfound)

theorem primary {items : List Lexeme → m (List Parsed × List Lexeme)}
    {items' : List Lexeme → Except SyntaxError (List Parsed × List Lexeme)}
    (hs : lexemes <:+ whole) (hitems : F.Behind lexemes items items') :
    F.Leaves lexemes (Body.primary stop inner items lexemes)
      (Body.primary stop inner' items' lexemes) := by
  cases lexemes with
  | nil => exact .fail (.inl rfl)
  | cons lexeme rest =>
    obtain ⟨token, offset⟩ := lexeme
    have hrest : rest <:+ ⟨token, offset⟩ :: rest := List.suffix_cons _ _
    have hoffset : Marks stop whole offset := (marks_head stop _ _ _).mono hs
    unfold Body.primary
    simp only
    split
    · exact .pure hrest
    · exact .pure hrest
    · exact .pure hrest
    · refine .bind (hin 0 rest (hrest.trans hs)) fun found hfound => ?_
      refine .bind (.expect _ (hfound.trans (hrest.trans hs))) fun left hleft => ?_
      exact .pure (hleft.trans (hfound.trans hrest))
    · refine .bind (hitems rest (hrest.trans hs) (Nat.lt_succ_self _)) fun found hfound => ?_
      exact .bind (.deeper _ hoffset) fun _ _ => .pure (hfound.trans hrest)
    · exact .fail hoffset

theorem suffixes {next : Parsed → List Lexeme → m (Parsed × List Lexeme)}
    {next' : Parsed → List Lexeme → Except SyntaxError (Parsed × List Lexeme)} (base : Parsed)
    (hs : lexemes <:+ whole) (hnext : ∀ base, F.Behind lexemes (next base) (next' base)) :
    F.Leaves lexemes (Body.suffixes stop inner next base lexemes)
      (Body.suffixes stop inner' next' base lexemes) := by
  -- The loop goes on behind what it has read.
  have hmore (base : Parsed) {rest : List Lexeme} (hrest : rest <:+ lexemes)
      (hlength : rest.length < lexemes.length) :
      F.Leaves lexemes (next base rest) (next' base rest) :=
    (hnext base rest (hrest.trans hs) hlength).mono fun _ h => h.trans hrest
  unfold Body.suffixes
  split
  · rename_i dot rest
    have hdot : rest <:+ whole := (List.suffix_cons _ _).trans hs
    split
    · exact .fail (.inl rfl)
    · rename_i name offset rest
      refine .bind (.addMember _ _ ((marks_head stop _ _ _).mono hdot)) fun base _ => ?_
      exact hmore base (List.suffix_append [_, _] rest) (by simp only [List.length_cons]; omega)
    · exact .fail ((marks_head stop _ _ _).mono hdot)
  · rename_i offset rest
    have hrest : rest <:+ ⟨.punct .lBracket, offset⟩ :: rest := List.suffix_cons _ _
    refine .bind (hin 0 rest (hrest.trans hs)) fun found hfound => ?_
    refine .bind (.expect _ (hfound.trans (hrest.trans hs))) fun behind hbehind => ?_
    refine .bind (.deeper _ ((marks_head stop _ _ _).mono hs)) fun depth _ => ?_
    have hleft : behind <:+ rest := hbehind.trans hfound
    exact hmore _ (hleft.trans hrest) (Nat.lt_succ_of_le hleft.length_le)
  · exact .fail ((marks_head stop _ _ _).mono hs)
  · exact .pure List.suffix_rfl

theorem operand {primary : List Lexeme → m (Parsed × List Lexeme)}
    {primary' : List Lexeme → Except SyntaxError (Parsed × List Lexeme)}
    {suffixes : Parsed → List Lexeme → m (Parsed × List Lexeme)}
    {suffixes' : Parsed → List Lexeme → Except SyntaxError (Parsed × List Lexeme)}
    (hs : lexemes <:+ whole) (hprimary : F.Leaves lexemes (primary lexemes) (primary' lexemes))
    (hsuffixes : ∀ base rest, rest <:+ lexemes →
      F.Leaves rest (suffixes base rest) (suffixes' base rest)) :
    F.Leaves lexemes (Body.operand inner primary suffixes lexemes)
      (Body.operand inner' primary' suffixes' lexemes) := by
  unfold Body.operand
  split
  · rename_i op offset rest hunary
    obtain ⟨mark, -, rfl⟩ := unary?_eq_some hunary
    have hrest : rest <:+ ⟨.punct mark, offset⟩ :: rest := List.suffix_cons _ _
    refine .bind (hin unaryPower rest (hrest.trans hs)) fun found hfound => ?_
    refine .bind (.deeper _ ((marks_head stop _ _ _).mono hs)) fun _ _ => ?_
    exact .pure (hfound.trans hrest)
  · refine .bind hprimary fun found hfound => ?_
    exact (hsuffixes _ _ hfound).mono fun _ h => h.trans hfound

theorem operators (power : Nat) {next : Parsed → List Lexeme → m (Parsed × List Lexeme)}
    {next' : Parsed → List Lexeme → Except SyntaxError (Parsed × List Lexeme)} (left : Parsed)
    (hs : lexemes <:+ whole) (hnext : ∀ left, F.Behind lexemes (next left) (next' left)) :
    F.Leaves lexemes (Body.operators stop inner power next left lexemes)
      (Body.operators stop inner' power next' left lexemes) := by
  unfold Body.operators
  split
  · rename_i mark offset rest
    have hmark : rest <:+ ⟨.punct mark, offset⟩ :: rest := List.suffix_cons _ _
    have hoffset : Marks stop whole offset := (marks_head stop _ _ _).mono hs
    -- The loop goes on behind the operands.
    have hmore (left : Parsed) {behind : List Lexeme} (hb : behind <:+ rest) :
        F.Leaves (⟨.punct mark, offset⟩ :: rest) (next left behind) (next' left behind) :=
      (hnext left behind (hb.trans (hmark.trans hs)) (Nat.lt_succ_of_le hb.length_le)).mono
        fun _ h => h.trans (hb.trans hmark)
    split
    · split
      · exact .pure List.suffix_rfl
      · refine .bind (hin 0 rest (hmark.trans hs)) fun whenTrue htrue => ?_
        refine .bind (.expect _ (htrue.trans (hmark.trans hs))) fun mid hmid => ?_
        have hleft : mid <:+ rest := hmid.trans htrue
        refine .bind (hin _ mid (hleft.trans (hmark.trans hs))) fun whenFalse hfalse => ?_
        exact .bind (.deeper _ hoffset) fun _ _ => hmore _ (hfalse.trans hleft)
    · split
      · exact .pure List.suffix_rfl
      · rename_i op hop
        split
        · exact .pure List.suffix_rfl
        · refine .bind (hin _ rest (hmark.trans hs)) fun right hright => ?_
          exact .bind (.deeper _ hoffset) fun _ _ => hmore _ hright
  · exact .pure List.suffix_rfl

end Inside

theorem layer {operand : List Lexeme → m (Parsed × List Lexeme)}
    {operand' : List Lexeme → Except SyntaxError (Parsed × List Lexeme)}
    {operators : Parsed → List Lexeme → m (Parsed × List Lexeme)}
    {operators' : Parsed → List Lexeme → Except SyntaxError (Parsed × List Lexeme)}
    (hoperand : F.Leaves lexemes (operand lexemes) (operand' lexemes))
    (hoperators : ∀ left rest, rest <:+ lexemes →
      F.Leaves rest (operators left rest) (operators' left rest)) :
    F.Leaves lexemes (Body.layer operand operators lexemes)
      (Body.layer operand' operators' lexemes) :=
  .bind hoperand fun _ hfound => (hoperators _ _ hfound).mono fun _ h => h.trans hfound

theorem ofLexemes {expression : List Lexeme → m (Parsed × List Lexeme)}
    {expression' : List Lexeme → Except SyntaxError (Parsed × List Lexeme)}
    (hs : lexemes <:+ whole)
    (hexpression : F.Leaves lexemes (expression lexemes) (expression' lexemes)) :
    F.Finds (fun _ => True) (Body.ofLexemes expression lexemes)
      (Body.ofLexemes expression' lexemes) := by
  unfold Body.ofLexemes
  split
  · exact .pure trivial
  · refine .bind hexpression fun found hfound => ?_
    obtain ⟨parsed, rest⟩ := found
    simp only
    split
    · exact .pure trivial
    · exact .fail ((marks_head stop _ _ _).mono (hfound.trans hs))

end Bodies

/-! #### A layer with fuel -/

section Fuel

variable {inner : Nat → List Lexeme → m (Parsed × List Lexeme)}
  {inner' : Nat → List Lexeme → Except SyntaxError (Parsed × List Lexeme)}
  (hin : F.Inside inner inner')
include hin

theorem items_fuel (n : Nat) (hs : lexemes <:+ whole) :
    F.Leaves lexemes (Parser.items stop inner n lexemes) (Parser.items stop inner' n lexemes) := by
  induction n generalizing lexemes with
  | zero => exact .fail ((marks_offsetOf stop lexemes).mono hs)
  | succ n ih => exact F.items hin hs fun _ hrest _ => ih hrest

theorem suffixes_fuel (n : Nat) (base : Parsed) (hs : lexemes <:+ whole) :
    F.Leaves lexemes (Parser.suffixes stop inner n base lexemes)
      (Parser.suffixes stop inner' n base lexemes) := by
  induction n generalizing base lexemes with
  | zero => exact .pure List.suffix_rfl
  | succ n ih => exact F.suffixes hin base hs fun base _ hrest _ => ih base hrest

theorem operators_fuel (power n : Nat) (left : Parsed) (hs : lexemes <:+ whole) :
    F.Leaves lexemes (Parser.operators stop inner power n left lexemes)
      (Parser.operators stop inner' power n left lexemes) := by
  induction n generalizing left lexemes with
  | zero => exact .pure List.suffix_rfl
  | succ n ih => exact F.operators hin power left hs fun left _ hrest _ => ih left hrest

/-- **A layer is the same in every monad**: it goes as in the parser if what is nested in it
does. -/
theorem layer_fuel (fuel power : Nat) (hs : lexemes <:+ whole) :
    F.Leaves lexemes (Parser.layer stop inner fuel power lexemes)
      (Parser.layer stop inner' fuel power lexemes) := by
  refine F.layer ?_ fun left rest hrest => F.operators_fuel hin power fuel left (hrest.trans hs)
  refine F.operand hin hs ?_ fun base rest hrest => F.suffixes_fuel hin fuel base (hrest.trans hs)
  exact F.primary hin hs fun _ hrest _ => F.items_fuel hin fuel hrest

end Fuel

end Follows

end Recalc.Parser
