import Recalc.Expr.Chain
import Recalc.Proofs.Expr.Layer
import Recalc.Proofs.Path
import Mathlib.Data.List.TakeDrop

/-!
# The names of an expression are chains of its text

The references of a text are found in its tokens alone. This loses nothing: every name that the
parsed expression reads starts a chain of the text, unless it is a keyword, and the members read
from it begin with those of the chain (`Expr.exists_chain_of_parse`). They may go on where the chain
ends, as after a name in parentheses.
-/

namespace Recalc

namespace Expr

mutual

/-- The names in an expression, each with the members read from it. -/
def names : Expr → List (String × List String)
  | literal _ => []
  | undefined => []
  | path root members => [(root, members)]
  | member base _ => base.names
  | index base key => base.names ++ key.names
  | array items => namesOfItems items
  | unary _ operand => operand.names
  | binary _ left right => left.names ++ right.names
  | conditional condition whenTrue whenFalse =>
    condition.names ++ whenTrue.names ++ whenFalse.names

/-- The names in a list of expressions. -/
def namesOfItems : List Expr → List (String × List String)
  | [] => []
  | item :: rest => item.names ++ namesOfItems rest

end

theorem mem_namesOfItems {items : List Expr} {x : String × List String} :
    x ∈ namesOfItems items ↔ ∃ item ∈ items, x ∈ item.names := by
  induction items with
  | nil => simp [namesOfItems]
  | cons item items ih => simp [namesOfItems, ih]

end Expr

/-! ### Chains in a list of tokens -/

namespace Chain

/-- The word stands in the list, not right behind a dot, and `names` are the words that follow it
after dots. -/
def Heads (tokens : List Token) (root : String) (names : List String) : Prop :=
  ∃ before rest, tokens = before ++ .word root :: rest ∧
    before.getLast? ≠ some (.punct .dot) ∧ (members rest).1 = names

theorem Heads.append {tokens : List Token} {root : String} {names : List String}
    (h : Heads tokens root names) {taken : List Token}
    (ht : taken.getLast? ≠ some (.punct .dot)) : Heads (taken ++ tokens) root names := by
  obtain ⟨before, rest, rfl, hb, hn⟩ := h
  refine ⟨taken ++ before, rest, by rw [List.append_assoc], ?_, hn⟩
  rw [List.getLast?_append]
  cases hl : before.getLast? with
  | none => exact ht
  | some last => exact fun he => hb (hl.trans he)

theorem members_cons_of_ne_dot {token : Token} (h : token ≠ .punct .dot) (rest : List Token) :
    members (token :: rest) = ([], token :: rest) := by
  rw [members]
  rintro name rest' he
  exact absurd (List.cons.inj he).1 h

theorem members_cons_cons_of_ne_word {next : Token} (h : ∀ name, next ≠ .word name)
    (rest : List Token) :
    members (.punct .dot :: next :: rest) = ([], .punct .dot :: next :: rest) := by
  rw [members]
  rintro name rest' he
  exact absurd (List.cons.inj (List.cons.inj he).2).1 (h name)

/-- The members of a chain end before such a word. -/
theorem exists_snd_members (root : String) (rest : List Token) :
    ∀ before : List Token, before.getLast? ≠ some (.punct .dot) →
      ∃ left, (members (before ++ .word root :: rest)).2 = left ++ .word root :: rest ∧
        left.getLast? ≠ some (.punct .dot) ∧ left.length ≤ before.length
  | [], hb => ⟨[], by rw [List.nil_append, members_cons_of_ne_dot (by simp)], hb, Nat.le_refl _⟩
  | [token], hb => by
    have ht : token ≠ .punct .dot := by simpa using hb
    exact ⟨[token], by rw [List.cons_append, members_cons_of_ne_dot ht], hb, Nat.le_refl _⟩
  | token :: next :: before, hb => by
    by_cases ht : token = .punct .dot
    · subst ht
      by_cases hw : ∃ name, next = .word name
      · obtain ⟨name, rfl⟩ := hw
        have hlast : before.getLast? ≠ some (.punct .dot) := by
          cases before with
          | nil => simp
          | cons other before => rwa [List.getLast?_cons_cons, List.getLast?_cons_cons] at hb
        obtain ⟨left, he, hl, hlen⟩ := exists_snd_members root rest before hlast
        refine ⟨left, ?_, hl, Nat.le_add_right_of_le (Nat.le_add_right_of_le hlen)⟩
        rw [List.cons_append, List.cons_append, members]
        exact he
      · refine ⟨_, ?_, hb, Nat.le_refl _⟩
        exact congrArg Prod.snd (members_cons_cons_of_ne_word (fun name he => hw ⟨name, he⟩) _)
    · refine ⟨token :: next :: before, ?_, hb, Nat.le_refl _⟩
      rw [List.cons_append, members_cons_of_ne_dot ht]

/-- Chains are found at every such word that is no keyword. -/
theorem mem_ofTokens {root : String} (hk : Token.isKeyword root = false) (rest : List Token)
    (fuel : Nat) : ∀ (before : List Token) (afterDot : Bool),
      before.getLast? ≠ some (.punct .dot) → (before = [] → afterDot = false) →
      (before ++ .word root :: rest).length ≤ fuel →
      Path.joinSegments (root :: (members rest).1) ∈
        ofTokens fuel afterDot (before ++ .word root :: rest) := by
  induction fuel with
  | zero =>
    intro before afterDot hb ha hf
    simp at hf
  | succ fuel ih =>
    intro before afterDot hb ha hf
    cases before with
    | nil =>
      rw [List.nil_append, ofTokens, ha rfl, hk]
      exact List.mem_cons_self
    | cons token before =>
      have hlast : before.getLast? ≠ some (.punct .dot) := by
        cases before with
        | nil => simp
        | cons next before => rwa [List.getLast?_cons_cons] at hb
      have hfuel : (before ++ .word root :: rest).length ≤ fuel := by
        simpa using hf
      rw [List.cons_append]
      by_cases hw : ∃ name, token = .word name
      · obtain ⟨name, rfl⟩ := hw
        rw [ofTokens]
        split
        · exact ih before false hlast (fun _ => rfl) hfuel
        · obtain ⟨left, he, hl, hlen⟩ := exists_snd_members root rest before hlast
          refine List.mem_cons_of_mem _ ?_
          simp only [he]
          refine ih left false hl (fun _ => rfl) ?_
          simp at hfuel ⊢
          omega
      · rw [ofTokens]
        · refine ih before _ hlast (fun hnil => ?_) hfuel
          rw [hnil] at hb
          simpa using hb
        · exact fun name he => hw ⟨name, he⟩

end Chain

/-! ### What the parser reads -/

/-- The tokens of lexemes. -/
def tokensOf (lexemes : List Lexeme) : List Token := lexemes.map (·.token)

/-- The names of the expression are chains of the tokens, as far as the chains go, and all their
members are words. -/
def Expr.Backed (tokens : List Token) (expr : Expr) : Prop :=
  ∀ x ∈ expr.names, (∀ m ∈ x.2, Token.word m ∈ tokens) ∧
    ∃ names, Chain.Heads tokens x.1 names ∧ names <+: x.2

/-- As `Expr.Backed`, with the members that follow in the rest of the tokens if the expression is a
name. -/
def Expr.BackedBefore (tokens rest : List Token) (expr : Expr) : Prop :=
  ∀ x ∈ expr.names, (∀ m ∈ x.2, Token.word m ∈ tokens) ∧
    ∃ names, Chain.Heads tokens x.1 names ∧
      (names <+: x.2 ∨ expr = .path x.1 x.2 ∧ names <+: x.2 ++ (Chain.members rest).1)

namespace Expr

theorem Backed.before {tokens : List Token} {expr : Expr} (h : Backed tokens expr)
    (rest : List Token) : BackedBefore tokens rest expr := by
  intro x hx
  obtain ⟨hw, names, hn, hp⟩ := h x hx
  exact ⟨hw, names, hn, .inl hp⟩

/-- Nothing is left open where no member follows. -/
theorem BackedBefore.backed {tokens rest : List Token} {expr : Expr}
    (h : BackedBefore tokens rest expr) (hr : (Chain.members rest).1 = []) :
    Backed tokens expr := by
  intro x hx
  obtain ⟨hw, names, hn, hp | ⟨-, hp⟩⟩ := h x hx
  · exact ⟨hw, names, hn, hp⟩
  · rw [hr, List.append_nil] at hp
    exact ⟨hw, names, hn, hp⟩

theorem Backed.append {tokens taken : List Token} {expr : Expr} (h : Backed tokens expr)
    (ht : taken.getLast? ≠ some (.punct .dot)) : Backed (taken ++ tokens) expr := by
  intro x hx
  obtain ⟨hw, names, hn, hp⟩ := h x hx
  exact ⟨fun m hm => List.mem_append_right _ (hw m hm), names, hn.append ht, hp⟩

/-- What is backed by the lexemes behind a lexeme that is no dot is backed by all. -/
theorem Backed.behind {rest : List Lexeme} {expr : Expr} (h : Backed (tokensOf rest) expr)
    {lexeme : Lexeme} (hl : lexeme.token ≠ .punct .dot) (taken : List Lexeme) :
    Backed (tokensOf (taken ++ lexeme :: rest)) expr := by
  have hlast : (tokensOf (taken ++ [lexeme])).getLast? ≠ some (.punct .dot) := by
    simpa [tokensOf] using hl
  have hb := h.append hlast
  rw [tokensOf, tokensOf, ← List.map_append, List.append_assoc] at hb
  exact hb

theorem Backed.index {tokens : List Token} {base key : Expr} (hb : Backed tokens base)
    (hk : Backed tokens key) : Backed tokens (.index base key) := by
  intro x hx
  rw [names, List.mem_append] at hx
  exact hx.elim (hb x) (hk x)

theorem Backed.binary {tokens : List Token} {left right : Expr} (hl : Backed tokens left)
    (op : BinaryOp) (hr : Backed tokens right) : Backed tokens (.binary op left right) := by
  intro x hx
  rw [names, List.mem_append] at hx
  exact hx.elim (hl x) (hr x)

theorem Backed.conditional {tokens : List Token} {test whenTrue whenFalse : Expr}
    (ht : Backed tokens test) (hw : Backed tokens whenTrue) (hf : Backed tokens whenFalse) :
    Backed tokens (.conditional test whenTrue whenFalse) := by
  intro x hx
  rw [names, List.mem_append, List.mem_append] at hx
  rcases hx with (hx | hx) | hx
  · exact ht x hx
  · exact hw x hx
  · exact hf x hx

theorem backed_of_names_eq_nil {tokens : List Token} {expr : Expr} (h : expr.names = []) :
    Backed tokens expr := by
  intro x hx
  rw [h] at hx
  cases hx

end Expr

namespace Parser

/-- A successful parse takes lexemes from the front, and the names it finds are chains. -/
def Faithful (parse : List Lexeme → Except SyntaxError (Parsed × List Lexeme)) (fuel : Nat) :
    Prop :=
  ∀ lexemes parsed rest, lexemes.length < fuel → parse lexemes = .ok (parsed, rest) →
    rest <:+ lexemes ∧ parsed.expr.Backed (tokensOf lexemes)

theorem names_ofNumber (x : Float) : (ofNumber x).names = [] := by
  rw [ofNumber]
  split <;> rfl

theorem backedBefore_ofWord (name : String) (rest : List Token) :
    (ofWord name).BackedBefore (.word name :: rest) rest := by
  have hword : (ofWord name).names = [] ∨ ofWord name = .path name [] := by
    rw [ofWord]
    repeat' split
    all_goals simp [Expr.names]
  rcases hword with hw | hw
  · exact (Expr.backed_of_names_eq_nil hw).before _
  · rw [hw]
    intro x hx
    obtain rfl := List.mem_singleton.1 hx
    exact ⟨by simp, _, ⟨[], rest, rfl, by simp, rfl⟩, .inr ⟨rfl, by simp⟩⟩

/-- A member that follows a tree completes its names further. -/
theorem backedBefore_addMember {base longer : Parsed} {name : String} {offset : Nat}
    (h : addMember base name offset = .ok longer) {tokens rest : List Token}
    (hw : .word name ∈ tokens)
    (hb : base.expr.BackedBefore tokens (.punct .dot :: .word name :: rest)) :
    longer.expr.BackedBefore tokens rest := by
  rw [addMember] at h
  split at h
  · rename_i root members he
    cases h
    rw [he] at hb
    intro x hx
    obtain rfl := List.mem_singleton.1 hx
    obtain ⟨hws, names, hn, hp⟩ := hb (root, members) (List.mem_singleton_self _)
    refine ⟨fun m hm => ?_, names, hn, ?_⟩
    · rcases List.mem_append.1 hm with hm | hm
      · exact hws m hm
      · exact (List.mem_singleton.1 hm) ▸ hw
    rcases hp with hp | ⟨-, hp⟩
    · exact .inl (hp.trans (List.prefix_append _ _))
    · refine .inr ⟨rfl, ?_⟩
      rw [Chain.members] at hp
      simpa using hp
  · rename_i hpath
    obtain ⟨depth, -, hend⟩ := bind_eq_ok.1 h
    cases hend
    intro x hx
    obtain ⟨hws, names, hn, hp⟩ := hb x hx
    exact ⟨hws, names, hn, .inl (hp.resolve_right fun he => hpath _ _ he.1)⟩

section Layer

variable {stop fuel : Nat} {inner : Nat → List Lexeme → Except SyntaxError (Parsed × List Lexeme)}
  (hin : ∀ power, Faithful (inner power) fuel)
include hin

theorem items_faithful (n : Nat) {lexemes rest : List Lexeme} {found : List Parsed}
    (hl : lexemes.length < fuel) (h : items stop inner n lexemes = .ok (found, rest)) :
    rest <:+ lexemes ∧ ∀ item ∈ found, item.expr.Backed (tokensOf lexemes) := by
  induction n generalizing lexemes found with
  | zero =>
    rw [items] at h
    cases h
  | succ n ih =>
    rcases items_succ_eq_ok h with ⟨offset, rfl, rfl⟩ |
      ⟨item, offset, behind, more, hitem, hmore, rfl⟩ | ⟨item, offset, hitem, rfl⟩
    · exact ⟨List.suffix_cons _ _, by simp⟩
    · obtain ⟨⟨taken, rfl⟩, hb⟩ := hin 0 _ _ _ hl hitem
      obtain ⟨hsuffix, hbs⟩ := ih (by simp at hl; omega) hmore
      refine ⟨(hsuffix.trans (List.suffix_cons _ _)).trans (List.suffix_append _ _), ?_⟩
      exact List.forall_mem_cons.2 ⟨hb, fun i hi => (hbs i hi).behind (by simp) taken⟩
    · obtain ⟨⟨taken, rfl⟩, hb⟩ := hin 0 _ _ _ hl hitem
      exact ⟨(List.suffix_cons _ _).trans (List.suffix_append _ _), by simpa using hb⟩

/-- A primary expression is backed up to the members that follow it. -/
theorem primary_faithful {lexemes rest : List Lexeme} {parsed : Parsed}
    (hl : lexemes.length < fuel) (h : primary stop inner fuel lexemes = .ok (parsed, rest)) :
    rest <:+ lexemes ∧ parsed.expr.BackedBefore (tokensOf lexemes) (tokensOf rest) := by
  rcases primary_eq_ok h with ⟨x, offset, rfl, rfl⟩ | ⟨content, offset, rfl, rfl⟩ |
    ⟨word, offset, rfl, rfl⟩ | ⟨offset, behind, offset', rfl, hinside⟩ |
    ⟨offset, behind, found, depth, rfl, hfound, -, rfl⟩
  · exact ⟨List.suffix_cons _ _, (Expr.backed_of_names_eq_nil (names_ofNumber _)).before _⟩
  · exact ⟨List.suffix_cons _ _, (Expr.backed_of_names_eq_nil rfl).before _⟩
  · exact ⟨List.suffix_cons _ _, backedBefore_ofWord _ _⟩
  · obtain ⟨⟨taken, rfl⟩, hb⟩ := hin 0 _ _ _ (by simp at hl ⊢; omega) hinside
    refine ⟨((List.suffix_cons _ _).trans (List.suffix_append _ _)).trans (List.suffix_cons _ _),
      (hb.behind ?_ []).before _⟩
    simp
  · obtain ⟨hsuffix, hb⟩ := items_faithful hin fuel (by simp at hl; omega) hfound
    refine ⟨hsuffix.trans (List.suffix_cons _ _), Expr.Backed.before (fun x hx => ?_) _⟩
    rw [Expr.names, Expr.mem_namesOfItems] at hx
    obtain ⟨item, hi, hx⟩ := hx
    obtain ⟨p, hp, rfl⟩ := List.mem_map.1 hi
    exact (hb p hp).behind (by simp) [] x hx

omit hin in
/-- No member follows where no dot does. -/
theorem members_eq_nil {lexemes : List Lexeme}
    (h : ∀ mark offset behind, lexemes = ⟨.punct mark, offset⟩ :: behind → mark ≠ .dot) :
    (Chain.members (tokensOf lexemes)).1 = [] := by
  cases lexemes with
  | nil => rfl
  | cons lexeme behind =>
    refine congrArg Prod.fst (Chain.members_cons_of_ne_dot (fun ht => ?_) _)
    obtain ⟨token, offset⟩ := lexeme
    obtain rfl : token = .punct .dot := ht
    exact h _ _ _ rfl rfl

/-- The members and indices that follow a tree complete its names. -/
theorem suffixes_faithful {taken lexemes rest : List Lexeme} {base parsed : Parsed} {n : Nat}
    (hl : (taken ++ lexemes).length < fuel) (hn : lexemes.length < n)
    (hb : base.expr.BackedBefore (tokensOf (taken ++ lexemes)) (tokensOf lexemes))
    (h : suffixes stop inner n base lexemes = .ok (parsed, rest)) :
    rest <:+ lexemes ∧ parsed.expr.Backed (tokensOf (taken ++ lexemes)) := by
  induction n generalizing taken lexemes base with
  | zero => omega
  | succ n ih =>
    rcases suffixes_succ_eq_ok h with ⟨dot, name, offset, behind, longer, rfl, hlonger, hrest⟩ |
      ⟨offset, behind, key, offset', last, depth, rfl, hkey, -, hrest⟩ | ⟨rfl, rfl, hend⟩
    · have hassoc : taken ++ ⟨.punct .dot, dot⟩ :: ⟨.word name, offset⟩ :: behind =
          (taken ++ [⟨.punct .dot, dot⟩, ⟨.word name, offset⟩]) ++ behind := by simp
      rw [hassoc] at hl hb ⊢
      simp only [List.length_cons] at hn
      have hw : .word name ∈ tokensOf
          ((taken ++ [⟨.punct .dot, dot⟩, ⟨.word name, offset⟩]) ++ behind) := by
        simp [tokensOf]
      obtain ⟨hsuffix, hbacked⟩ := ih hl (by omega) (backedBefore_addMember hlonger hw hb) hrest
      exact ⟨(hsuffix.trans (List.suffix_cons _ _)).trans (List.suffix_cons _ _), hbacked⟩
    · obtain ⟨⟨inside, rfl⟩, hbkey⟩ := hin 0 _ _ _ (by simp at hl ⊢; omega) hkey
      have hbase := hb.backed (congrArg Prod.fst (Chain.members_cons_of_ne_dot (by simp) _))
      have hindex := hbase.index (hbkey.behind (by simp) taken)
      have hassoc : taken ++ ⟨.punct .lBracket, offset⟩ :: (inside ++
            ⟨.punct .rBracket, offset'⟩ :: last) =
          (taken ++ ⟨.punct .lBracket, offset⟩ :: (inside ++ [⟨.punct .rBracket, offset'⟩])) ++
            last := by simp
      rw [hassoc] at hl hindex ⊢
      obtain ⟨hsuffix, hbacked⟩ := ih hl (by simp at hn; omega) (hindex.before _) hrest
      refine ⟨((hsuffix.trans (List.suffix_cons _ _)).trans (List.suffix_append _ _)).trans
        (List.suffix_cons _ _), hbacked⟩
    · have hno := members_eq_nil fun mark offset behind he => (hend mark offset behind he).1
      exact ⟨List.suffix_refl _, hb.backed hno⟩

/-- An operand is backed. -/
theorem operand_faithful {lexemes rest : List Lexeme} {parsed : Parsed}
    (hl : lexemes.length < fuel) (h : operand stop inner fuel lexemes = .ok (parsed, rest)) :
    rest <:+ lexemes ∧ parsed.expr.Backed (tokensOf lexemes) := by
  rcases operand_eq_ok h with ⟨mark, op, offset, behind, inside, depth, hop, rfl, hinside, -, rfl⟩ |
    ⟨base, mid, hbase, hsuffixes⟩
  · have hmark : mark ≠ .dot := by
      rintro rfl
      cases hop
    obtain ⟨hsuffix, hb⟩ := hin unaryPower _ _ _ (by simp at hl; omega) hinside
    exact ⟨hsuffix.trans (List.suffix_cons _ _), hb.behind (by simpa using hmark) []⟩
  · obtain ⟨⟨taken, rfl⟩, hb⟩ := primary_faithful hin hl hbase
    obtain ⟨hsuffix, hbacked⟩ := suffixes_faithful hin hl (by simp at hl; omega) hb hsuffixes
    exact ⟨hsuffix.trans (List.suffix_append _ _), hbacked⟩

/-- The operators that follow a tree, with their operands, are backed. -/
theorem operators_faithful {taken lexemes rest : List Lexeme} {left parsed : Parsed}
    {power n : Nat} (hl : (taken ++ lexemes).length < fuel)
    (hb : left.expr.Backed (tokensOf (taken ++ lexemes)))
    (h : operators stop inner power n left lexemes = .ok (parsed, rest)) :
    rest <:+ lexemes ∧ parsed.expr.Backed (tokensOf (taken ++ lexemes)) := by
  induction n generalizing taken lexemes left with
  | zero =>
    rw [operators] at h
    cases h
    exact ⟨List.suffix_refl _, hb⟩
  | succ n ih =>
    rcases operators_succ_eq_ok h with ⟨rfl, rfl, -⟩ |
      ⟨offset, behind, whenTrue, offset', mid, whenFalse, last, depth, -, rfl, htrue, hfalse, -,
        hrest⟩ |
      ⟨mark, offset, behind, op, right, last, depth, hop, -, rfl, hright, -, hrest⟩
    · exact ⟨List.suffix_refl _, hb⟩
    · obtain ⟨⟨first, rfl⟩, hbtrue⟩ := hin 0 _ _ _ (by simp at hl ⊢; omega) htrue
      obtain ⟨⟨second, rfl⟩, hbfalse⟩ :=
        hin conditionalPower _ _ _ (by simp at hl ⊢; omega) hfalse
      have hnode := hb.conditional (hbtrue.behind (by simp) taken)
        ((hbfalse.behind (by simp) first).behind (by simp) taken)
      have hassoc : taken ++ ⟨.punct .question, offset⟩ ::
            (first ++ ⟨.punct .colon, offset'⟩ :: (second ++ last)) =
          (taken ++ ⟨.punct .question, offset⟩ ::
            (first ++ ⟨.punct .colon, offset'⟩ :: second)) ++ last := by simp
      rw [hassoc] at hl hnode ⊢
      obtain ⟨hsuffix, hbacked⟩ := ih hl hnode hrest
      refine ⟨?_, hbacked⟩
      exact (((hsuffix.trans (List.suffix_append _ _)).trans (List.suffix_cons _ _)).trans
        (List.suffix_append _ _)).trans (List.suffix_cons _ _)
    · obtain ⟨⟨first, rfl⟩, hbright⟩ :=
        hin (rightPower op) _ _ _ (by simp at hl ⊢; omega) hright
      have hmark : mark ≠ .dot := by
        rintro rfl
        cases hop
      have hnode := hb.binary op (hbright.behind (by simpa using hmark) taken)
      have hassoc : taken ++ ⟨.punct mark, offset⟩ :: (first ++ last) =
          (taken ++ ⟨.punct mark, offset⟩ :: first) ++ last := by simp
      rw [hassoc] at hl hnode ⊢
      obtain ⟨hsuffix, hbacked⟩ := ih hl hnode hrest
      exact ⟨(hsuffix.trans (List.suffix_append _ _)).trans (List.suffix_cons _ _), hbacked⟩

/-- A layer of the parser is faithful if the one inside is. -/
theorem layer_faithful (power : Nat) : Faithful (layer stop inner fuel power) fuel := by
  intro lexemes parsed rest hl h
  obtain ⟨⟨left, mid⟩, hleft, hoperators⟩ := bind_eq_ok.1 h
  obtain ⟨⟨taken, rfl⟩, hb⟩ := operand_faithful hin hl hleft
  obtain ⟨hsuffix, hbacked⟩ := operators_faithful hin hl hb hoperators
  exact ⟨hsuffix.trans (List.suffix_append _ _), hbacked⟩

end Layer

/-- **Every name that the parser reads is a chain of the tokens.** -/
theorem expression_faithful (stop fuel : Nat) (room power : Nat) :
    Faithful (expression stop fuel room power) fuel := by
  induction room generalizing power with
  | zero =>
    intro lexemes parsed rest hl h
    cases h
  | succ room ih => exact layer_faithful ih power

theorem backed_ofLexemes {stop : Nat} {lexemes : List Lexeme} {expr : Expr}
    (h : ofLexemes stop lexemes = .ok expr) : expr.Backed (tokensOf lexemes) := by
  rcases ofLexemes_eq_ok h with ⟨-, rfl⟩ | ⟨depth, hparsed⟩
  · exact Expr.backed_of_names_eq_nil rfl
  · exact (expression_faithful _ _ _ _ _ _ _ (Nat.lt_succ_self _) hparsed).2

end Parser

/-! ### Names and chains of a text -/

namespace Lexer

/-- A text in which every token can be read has the same tokens for both readings. -/
theorem mapM_id_eq_ok {items : List (Except SyntaxError Lexeme)} {lexemes : List Lexeme}
    (h : items.mapM id = .ok lexemes) : items = lexemes.map .ok := by
  induction items generalizing lexemes with
  | nil =>
    rw [List.mapM_nil] at h
    cases h
    rfl
  | cons item items ih =>
    rw [List.mapM_cons] at h
    obtain ⟨lexeme, hitem, hmore⟩ := bind_eq_ok.1 h
    obtain ⟨rest, hrest, hend⟩ := bind_eq_ok.1 hmore
    cases hend
    rw [ih hrest, show item = .ok lexeme from hitem, List.map_cons]

/-- A text in which every token can be read has the same tokens for both readings. -/
theorem tokenizeLenient_eq {text : String} {lexemes : List Lexeme}
    (h : tokenize text = .ok lexemes) : tokenizeLenient text = lexemes := by
  rw [tokenizeLenient, mapM_id_eq_ok h, List.filterMap_map]
  exact List.filterMap_some

/-- A word is a name. -/
theorem isName_of_token {c : Char} {rest rest' : List Char} {name : String}
    (h : token c rest = (.ok (.word name), rest')) : Text.isName name.toList = true := by
  rw [token] at h
  split at h
  · rw [number] at h
    simp only at h
    split at h <;> cases h
  · split at h
    · rename_i hstart
      rw [List.span_eq_takeWhile_dropWhile] at h
      cases h
      rw [String.toList_ofList, Text.isName, hstart, Bool.true_and]
      exact List.all_takeWhile
    · split at h
      · rw [quoted] at h
        split at h <;> cases h
      · obtain ⟨mark, behind, hp⟩ : ∃ mark behind, punct c rest = (mark, behind) := ⟨_, _, rfl⟩
        simp only [hp] at h
        cases mark <;> cases h

theorem isName_of_mem_scanFrom {total fuel : Nat} {cs : List Char} {name : String} {offset : Nat}
    (h : .ok ⟨.word name, offset⟩ ∈ scanFrom total fuel cs) : Text.isName name.toList = true := by
  induction fuel generalizing cs with
  | zero => cases h
  | succ fuel ih =>
    rw [scanFrom] at h
    split at h
    · cases h
    · rename_i c rest _
      obtain ⟨found, behind, hf⟩ : ∃ found behind, token c rest = (found, behind) := ⟨_, _, rfl⟩
      simp only [hf] at h
      rcases List.mem_cons.1 h with h | h
      · cases found with
        | error fault => cases h
        | ok found =>
          cases h
          exact isName_of_token hf
      · exact ih h

/-- The words of a text are names. -/
theorem isName_of_mem_tokenize {text : String} {lexemes : List Lexeme}
    (h : tokenize text = .ok lexemes) {name : String} (hw : .word name ∈ tokensOf lexemes) :
    Path.isEntityName name = true := by
  obtain ⟨⟨token, offset⟩, hm, he⟩ := List.mem_map.1 hw
  obtain rfl : token = .word name := he
  have hs : .ok ⟨.word name, offset⟩ ∈ scan text := by
    rw [mapM_id_eq_ok h]
    exact List.mem_map_of_mem hm
  exact isName_of_mem_scanFrom hs

end Lexer

/-- **The names of an expression are chains of its text**: each name that is no keyword starts a
chain, whose members are the first ones of the name. -/
theorem Expr.exists_chain_of_parse {text : String} {expr : Expr} (h : parse text = .ok expr) :
    ∀ x ∈ expr.names, Path.Keys (x.1 :: x.2) ∧ (Token.isKeyword x.1 = false →
      ∃ names, names <+: x.2 ∧ Path.joinSegments (x.1 :: names) ∈ Chain.ofText text) := by
  obtain ⟨lexemes, hlexemes, hparse⟩ := bind_eq_ok.1 h
  intro x hx
  obtain ⟨hw, names, ⟨before, rest, he, hb, rfl⟩, hp⟩ := Parser.backed_ofLexemes hparse x hx
  have hkey : ∀ name, .word name ∈ tokensOf lexemes → Path.IsKey name := fun name hn =>
    Path.isKey_of_isEntityName (Lexer.isName_of_mem_tokenize hlexemes hn)
  refine ⟨Path.keys_cons.2 ⟨hkey _ (he ▸ by simp), fun m hm => hkey m (hw m hm)⟩, fun hk =>
    ⟨_, hp, ?_⟩⟩
  rw [Chain.ofText, Lexer.tokenizeLenient_eq hlexemes]
  rw [tokensOf] at he
  rw [he]
  exact Chain.mem_ofTokens hk rest _ before false hb (fun _ => rfl) (Nat.le_refl _)

end Recalc
