import Recalc.Proofs.Expr.Accepted

/-!
# The parser accepts every phrase

Along a derivation, the parser does with a phrase what its production says, or reports too much
nesting; the latter it only does if the phrase does not fit into its room. `Reads` says so of each
kind of phrase in front of any other lexemes, with one lemma for each production. With the converse
(`expression_sound`), the lists of lexemes that the parser accepts are the expressions of the
grammar and the empty list (`ofLexemes_eq_ok_iff`); and since a parse has one result, an expression
has one tree (`eq_of_spells`).
-/

namespace Recalc.Parser

open Grammar

/-- The first result is the second one, or a report of too much nesting where that is possible. -/
def Meets {A : Type} (fits : Prop) (x y : Except SyntaxError A) : Prop :=
  x = y ∨ ¬ fits ∧ ∃ offset, x = .error ⟨.tooDeep, offset⟩

namespace Meets

variable {A B : Type} {fits : Prop} {x y z : Except SyntaxError A}

theorem refl (x : Except SyntaxError A) : Meets fits x x := .inl rfl

theorem trans (hxy : Meets fits x y) (hyz : Meets fits y z) : Meets fits x z := by
  rcases hxy with rfl | hx
  · exact hyz
  · exact .inr hx

theorem mono {more : Prop} (h : Meets fits x y) (hf : more → fits) : Meets more x y :=
  h.imp id fun ⟨hno, hx⟩ => ⟨fun hm => hno (hf hm), hx⟩

theorem bind {a : A} {f : A → Except SyntaxError B} {w : Except SyntaxError B}
    (hx : Meets fits x (.ok a)) (hf : Meets fits (f a) w) : Meets fits (x >>= f) w := by
  rcases hx with rfl | ⟨hno, offset, rfl⟩
  · exact hf
  · exact .inr ⟨hno, offset, rfl⟩

theorem eq (h : Meets fits x y) (hf : fits) : x = y := h.resolve_right fun hx => hx.1 hf

theorem deeper {depth : Nat} (h : fits → depth + 1 ≤ maxDepth) (offset : Nat) :
    Meets fits (Parser.deeper depth offset) (.ok (depth + 1)) := by
  rw [Parser.deeper]
  split
  · rename_i hdepth
    exact .inr ⟨fun hf => absurd (h hf) (Nat.not_le_of_lt (Nat.lt_succ_of_le hdepth)), offset, rfl⟩
  · exact .inl rfl

end Meets

/-- A tree with its depth. -/
def measure (expr : Expr) : Parsed := ⟨expr, expr.depth⟩

theorem measure_eq {expr : Expr} {depth : Nat} (h : expr.depth = depth) :
    measure expr = ⟨expr, depth⟩ := h ▸ rfl

/-- The room suffices for the nesting of the tree, and the tree is not too deep. -/
def Fits (needed room : Nat) (expr : Expr) : Prop := needed ≤ room ∧ expr.depth ≤ maxDepth

theorem Fits.part {needed room : Nat} {expr part : Expr} (h : Fits needed room expr)
    (hd : part.depth ≤ expr.depth) : Fits needed room part :=
  ⟨h.1, Nat.le_trans hd h.2⟩

theorem Fits.inner {needed room : Nat} {expr part : Expr} (h : Fits (needed + 1) (room + 1) expr)
    (hd : part.depth ≤ expr.depth) : Fits needed room part :=
  ⟨Nat.le_of_succ_le_succ h.1, Nat.le_trans hd h.2⟩

/-- What the parser does with the phrase in front of others, with room for `room` expressions inside
of its own. The loops go on behind the part of their phrase that has been read. -/
def Reads (stop fuel needed : Nat) (phrase : Phrase) (tokens : List Token) (expr : Expr) : Prop :=
  ∀ (room : Nat) (taken rest : List Lexeme), tokensOf taken = tokens →
    (taken ++ rest).length < fuel →
      match phrase with
      | .expression => ∀ power, power ≤ conditionalPower → Stops power rest →
          Meets (Fits needed room expr) (expression stop fuel room power (taken ++ rest))
            (.ok (measure expr, rest))
      | .chain level => ∀ power, power ≤ 2 * level → Stops (2 * level + 1) rest →
          ∃ n, rest.length < n ∧ Meets (Fits needed (room + 1) expr)
            (layer stop (expression stop fuel room) fuel power (taken ++ rest))
            (operators stop (expression stop fuel room) power n (measure expr) rest)
      | .operand => Stops unaryPower rest →
          Meets (Fits needed (room + 1) expr)
            (operand stop (expression stop fuel room) fuel (taken ++ rest))
            (.ok (measure expr, rest))
      | .suffixed => ∃ n, rest.length < n ∧ Meets (Fits needed (room + 1) expr)
          (do
            let (base, behind) ← primary stop (expression stop fuel room) fuel (taken ++ rest)
            suffixes stop (expression stop fuel room) fuel base behind)
          (suffixes stop (expression stop fuel room) n (measure expr) rest)
      | .primary => Meets (Fits needed (room + 1) expr)
          (primary stop (expression stop fuel room) fuel (taken ++ rest))
          (.ok (measure expr, rest))
      | .items => ∀ n offset behind, rest = ⟨.punct .rBracket, offset⟩ :: behind →
          (taken ++ rest).length < n → ∃ found : List Expr, expr = .array found ∧
            Meets (Fits needed (room + 1) expr)
              (items stop (expression stop fuel room) n (taken ++ rest))
              (.ok (found.map measure, behind))

section Reads

variable {stop fuel needed : Nat} {tokens : List Token} {expr : Expr}

/-- A chain is read as a whole by a call with a power it has, if the power stops behind it. -/
theorem Reads.call {level : Nat} (h : Reads stop fuel needed (.chain level) tokens expr)
    (hpos : 0 < needed) (room power : Nat) {taken rest : List Lexeme}
    (htokens : tokensOf taken = tokens) (hl : (taken ++ rest).length < fuel)
    (hp : power ≤ 2 * level) (hstop : Stops power rest) :
    Meets (Fits needed room expr) (expression stop fuel room power (taken ++ rest))
      (.ok (measure expr, rest)) := by
  cases room with
  | zero => exact .inr ⟨fun hf => absurd hf.1 (Nat.not_le_of_lt hpos), _, rfl⟩
  | succ room =>
    obtain ⟨n, -, hn⟩ :=
      h room taken rest htokens hl power hp (hstop.mono (Nat.le_succ_of_le hp))
    rwa [operators_of_stops hstop] at hn

theorem Reads.chain (h : Reads stop fuel needed (.chain 1) tokens expr) (hpos : 0 < needed) :
    Reads stop fuel needed .expression tokens expr := by
  intro room taken rest htokens hl power hp hstop
  exact h.call hpos room power htokens hl (Nat.le_trans hp (by decide)) hstop

theorem Reads.operand {level : Nat} (h : Reads stop fuel needed .operand tokens expr) :
    Reads stop fuel needed (.chain level) tokens expr := by
  intro room taken rest htokens hl power hp hstop
  refine ⟨fuel, by simp at hl; omega, ?_⟩
  exact (h room taken rest htokens hl hstop.unary).bind (.refl _)

theorem exists_of_tokensOf_eq_cons {taken : List Lexeme} {token : Token} {second : List Token}
    (h : tokensOf taken = token :: second) :
    ∃ offset behind, taken = ⟨token, offset⟩ :: behind ∧ tokensOf behind = second := by
  obtain ⟨⟨_, offset⟩, behind, rfl, rfl, hbehind⟩ := List.map_eq_cons_iff.1 h
  exact ⟨offset, behind, rfl, hbehind⟩

/-- A token in the middle is that of a lexeme. -/
theorem exists_of_tokensOf_eq {taken : List Lexeme} {token : Token} {first second : List Token}
    (h : tokensOf taken = first ++ token :: second) : ∃ before offset behind,
      taken = before ++ ⟨token, offset⟩ :: behind ∧ tokensOf before = first ∧
        tokensOf behind = second := by
  obtain ⟨before, others, rfl, hb, ho⟩ := List.map_eq_append_iff.1 h
  obtain ⟨offset, behind, rfl, hbehind⟩ := exists_of_tokensOf_eq_cons ho
  exact ⟨before, offset, behind, rfl, hb, hbehind⟩

/-- A choice is read in a call of its own, and nothing follows it there. -/
theorem Reads.conditional {cs ts fs : List Token} {condition whenTrue whenFalse : Expr}
    (hc : Reads stop fuel (needed + 1) (.chain 1) cs condition)
    (ht : Reads stop fuel needed .expression ts whenTrue)
    (hf : Reads stop fuel needed .expression fs whenFalse) :
    Reads stop fuel (needed + 1) .expression
      (cs ++ .punct .question :: (ts ++ .punct .colon :: fs))
      (.conditional condition whenTrue whenFalse) := by
  intro room taken rest htokens hl power hp hstop
  cases room with
  | zero => exact .inr ⟨fun hfits => absurd hfits.1 (Nat.not_succ_le_zero _), _, rfl⟩
  | succ room =>
  obtain ⟨first, offset, others, rfl, hfirst, hothers⟩ := exists_of_tokensOf_eq htokens
  obtain ⟨second, offset', third, rfl, hsecond, hthird⟩ := exists_of_tokensOf_eq hothers
  simp only [List.append_assoc, List.cons_append] at hl ⊢
  have hdepth : (Expr.conditional condition whenTrue whenFalse).depth =
      max (max condition.depth whenTrue.depth) whenFalse.depth + 1 := by rw [Expr.depth]
  have hquestion : Stops (2 * 1 + 1)
      (⟨.punct .question, offset⟩ :: (second ++ ⟨.punct .colon, offset'⟩ :: (third ++ rest))) :=
    stops_of_question (by decide) _ _
  obtain ⟨n, hn, hmeets⟩ := hc room first _ hfirst hl power (Nat.le_trans hp (by decide)) hquestion
  refine (hmeets.mono fun h => h.part (by omega)).trans ?_
  -- The mark is still unread, so the loop has a round left for it.
  obtain ⟨n, rfl⟩ := Nat.exists_eq_add_one.2 (Nat.zero_lt_of_lt hn)
  rw [operators, Body.operators, if_pos rfl, if_neg (Nat.not_lt_of_le hp)]
  refine .bind ((ht room second _ hsecond (by simp at hl ⊢; omega) 0 (Nat.zero_le _)
    (stops_of_closing (.inr (.inl rfl)) _ _ _)).mono fun h => h.inner (by omega)) ?_
  refine .bind (.refl _) ?_
  refine .bind ((hf room third rest hthird (by simp at hl ⊢; omega) conditionalPower
    (Nat.le_refl _) (hstop.mono hp)).mono fun h => h.inner (by omega)) ?_
  refine .bind (.deeper (fun h => hdepth ▸ h.2) offset) ?_
  -- The call stops behind the choice, so the loop ends there.
  rw [operators_of_stops hstop, measure_eq hdepth]
  exact .refl _

/-- An operator of the chain has at least the power, and its right operand ends in front of the next
one. -/
theorem Reads.binary {level : Nat} {mark : Punct} {op : BinaryOp} {ls rs : List Token}
    {left right : Expr} (ho : BinaryOp.ofPunct? mark = some op) (hlevel : level ≤ op.level)
    (hleft : Reads stop fuel (needed + 1) (.chain op.level) ls left)
    (hright : Reads stop fuel needed (.chain (op.level + 1)) rs right) (hpos : 0 < needed) :
    Reads stop fuel (needed + 1) (.chain level) (ls ++ .punct mark :: rs)
      (.binary op left right) := by
  intro room taken rest htokens hl power hp hstop
  obtain ⟨first, offset, second, rfl, hfirst, hsecond⟩ := exists_of_tokensOf_eq htokens
  simp only [List.append_assoc, List.cons_append] at hl ⊢
  have hdepth : (Expr.binary op left right).depth = max left.depth right.depth + 1 := by
    rw [Expr.depth]
  have hpower : power ≤ leftPower op := by
    rw [leftPower]
    omega
  have hquestion : mark ≠ .question := by
    rintro rfl
    cases ho
  obtain ⟨n, hn, hmeets⟩ := hleft room first _ hfirst hl power hpower (stops_of_op ho offset _)
  obtain ⟨n, rfl⟩ := Nat.exists_eq_add_one.2 (Nat.zero_lt_of_lt hn)
  refine ⟨n, by simp at hn; omega, (hmeets.mono fun h => h.part (by omega)).trans ?_⟩
  rw [operators, Body.operators, if_neg hquestion]
  simp only [ho]
  rw [if_neg (Nat.not_lt_of_le hpower)]
  have hcall := hright.call hpos room (rightPower op) hsecond
    (by simp at hl ⊢; omega) (by rw [rightPower]; omega)
    (hstop.mono (by rw [rightPower]; omega))
  refine .bind (hcall.mono fun h => h.inner (by omega)) ?_
  refine .bind (.deeper (fun h => hdepth ▸ h.2) offset) ?_
  rw [measure_eq hdepth]
  exact .refl _

/-- The operand of an operator in front is read by a call that stops in front of every operator. -/
theorem Reads.unary {mark : Punct} {op : UnaryOp} {tokens : List Token}
    (ho : UnaryOp.ofPunct? mark = some op) (h : Reads stop fuel needed .operand tokens expr)
    (hpos : 0 < needed) :
    Reads stop fuel (needed + 1) .operand (.punct mark :: tokens) (.unary op expr) := by
  intro room taken rest htokens hl hstop
  obtain ⟨offset, inside, rfl, hinside⟩ := exists_of_tokensOf_eq_cons htokens
  have hdepth : (Expr.unary op expr).depth = expr.depth + 1 := by rw [Expr.depth]
  have hchain : Reads stop fuel needed (.chain 8) tokens expr := h.operand
  have hcall := hchain.call hpos room unaryPower hinside (by simp at hl ⊢; omega)
    (Nat.le_refl _) hstop
  simp only [List.cons_append, Parser.operand, Body.operand, unary?, ho, Option.map_some]
  refine .bind (hcall.mono fun h => h.inner (by omega)) ?_
  refine .bind (.deeper (fun h => hdepth ▸ h.2) offset) ?_
  rw [measure_eq hdepth]
  exact .refl _

/-- What does not start with an operator in front is a primary phrase with what is behind it. -/
theorem Reads.suffixed {token : Token} {behind : List Token} (ht : tokens = token :: behind)
    (hno : ∀ mark, token = .punct mark → UnaryOp.ofPunct? mark = none)
    (h : Reads stop fuel needed .suffixed tokens expr) :
    Reads stop fuel needed .operand tokens expr := by
  intro room taken rest htokens hl hstop
  obtain ⟨n, -, hn⟩ := h room taken rest htokens hl
  obtain ⟨offset, others, rfl, -⟩ := exists_of_tokensOf_eq_cons (htokens.trans ht)
  have hnone : unary? (⟨token, offset⟩ :: others ++ rest) = none := by
    rw [List.cons_append, unary?.eq_def]
    split
    · rename_i mark _ _ he
      cases he
      rw [hno _ rfl, Option.map_none]
    · rfl
  rw [suffixes_of_stops hstop] at hn
  rw [Parser.operand, Body.operand, hnone]
  exact hn

theorem Reads.primary (h : Reads stop fuel needed .primary tokens expr) :
    Reads stop fuel needed .suffixed tokens expr := by
  intro room taken rest htokens hl
  refine ⟨fuel, by simp at hl; omega, ?_⟩
  exact (h room taken rest htokens hl).bind (.refl _)

theorem meets_addMember {fits : Prop} {base : Expr} {name : String}
    (h : fits → (base.access name).depth ≤ maxDepth) (offset : Nat) :
    Meets fits (addMember (measure base) name offset) (.ok (measure (base.access name))) := by
  rw [addMember]
  split
  · rename_i root members he
    obtain rfl : base = .path root members := he
    exact .inl (by simp only [measure, Expr.access, Expr.depth])
  · rename_i hpath
    have haccess : base.access name = .member base name := by
      rw [Expr.access]
      exact hpath
    have hdepth : (Expr.member base name).depth = base.depth + 1 := by rw [Expr.depth]
    rw [haccess, measure_eq hdepth]
    rw [haccess, hdepth] at h
    exact .bind (.deeper h offset) (.refl _)

theorem Reads.member {base : Expr} (name : String)
    (h : Reads stop fuel needed .suffixed tokens base) :
    Reads stop fuel needed .suffixed (tokens ++ [.punct .dot, .word name]) (base.access name) := by
  intro room taken rest htokens hl
  obtain ⟨first, dot, others, rfl, hfirst, hothers⟩ := exists_of_tokensOf_eq htokens
  obtain ⟨offset, behind, rfl, hbehind⟩ := exists_of_tokensOf_eq_cons hothers
  obtain rfl := List.map_eq_nil_iff.1 hbehind
  simp only [List.append_assoc, List.cons_append, List.nil_append] at hl ⊢
  obtain ⟨n, hn, hmeets⟩ := h room first _ hfirst hl
  obtain ⟨n, rfl⟩ := Nat.exists_eq_add_one.2 (Nat.zero_lt_of_lt hn)
  refine ⟨n, by simp at hn; omega,
    (hmeets.mono fun hf => hf.part (base.depth_le_depth_access name)).trans ?_⟩
  rw [suffixes, Body.suffixes]
  exact .bind (meets_addMember (fun hf => hf.2) offset) (.refl _)

theorem Reads.index {bs ks : List Token} {base key : Expr}
    (hb : Reads stop fuel (needed + 1) .suffixed bs base)
    (hk : Reads stop fuel needed .expression ks key) :
    Reads stop fuel (needed + 1) .suffixed (bs ++ .punct .lBracket :: (ks ++ [.punct .rBracket]))
      (.index base key) := by
  intro room taken rest htokens hl
  obtain ⟨first, offset, others, rfl, hfirst, hothers⟩ := exists_of_tokensOf_eq htokens
  obtain ⟨second, offset', behind, rfl, hsecond, hbehind⟩ := exists_of_tokensOf_eq hothers
  obtain rfl := List.map_eq_nil_iff.1 hbehind
  simp only [List.append_assoc, List.cons_append, List.nil_append] at hl ⊢
  have hdepth : (Expr.index base key).depth = max base.depth key.depth + 1 := by rw [Expr.depth]
  obtain ⟨n, hn, hmeets⟩ := hb room first _ hfirst hl
  obtain ⟨n, rfl⟩ := Nat.exists_eq_add_one.2 (Nat.zero_lt_of_lt hn)
  refine ⟨n, by simp at hn; omega, (hmeets.mono fun h => h.part (by omega)).trans ?_⟩
  rw [suffixes, Body.suffixes]
  refine .bind ((hk room second _ hsecond (by simp at hl ⊢; omega) 0 (Nat.zero_le _)
    (stops_of_closing (.inr (.inr (.inr rfl))) _ _ _)).mono fun h => h.inner (by omega)) ?_
  refine .bind (.refl _) ?_
  refine .bind (.deeper (fun h => hdepth ▸ h.2) offset) ?_
  rw [measure_eq hdepth]
  exact .refl _

/-- A phrase of one token is read for what it stands for. -/
theorem Reads.token {token : Token} {expr : Expr}
    (h : ∀ (inner : Nat → List Lexeme → Except SyntaxError (Parsed × List Lexeme)) offset rest,
      Parser.primary stop inner fuel (⟨token, offset⟩ :: rest) = .ok (measure expr, rest)) :
    Reads stop fuel needed .primary [token] expr := by
  intro room taken rest htokens hl
  obtain ⟨offset, others, rfl, hothers⟩ := exists_of_tokensOf_eq_cons htokens
  obtain rfl := List.map_eq_nil_iff.1 hothers
  exact .inl (h _ offset rest)

theorem Reads.parens (h : Reads stop fuel needed .expression tokens expr) :
    Reads stop fuel (needed + 1) .primary (.punct .lParen :: (tokens ++ [.punct .rParen]))
      expr := by
  intro room taken rest htokens hl
  obtain ⟨offset, others, rfl, hothers⟩ := exists_of_tokensOf_eq_cons htokens
  obtain ⟨second, offset', behind, rfl, hsecond, hbehind⟩ := exists_of_tokensOf_eq hothers
  obtain rfl := List.map_eq_nil_iff.1 hbehind
  simp only [List.append_assoc, List.cons_append, List.nil_append] at hl ⊢
  rw [Parser.primary, Body.primary]
  refine .bind ((h room second _ hsecond (by simp at hl ⊢; omega) 0 (Nat.zero_le _)
    (stops_of_closing (.inr (.inr (.inl rfl))) _ _ _)).mono fun h => h.inner (Nat.le_refl _)) ?_
  exact .bind (.refl _) (.refl _)

theorem Reads.list (h : Reads stop fuel needed .items tokens expr) :
    Reads stop fuel needed .primary (.punct .lBracket :: (tokens ++ [.punct .rBracket])) expr := by
  intro room taken rest htokens hl
  obtain ⟨offset, others, rfl, hothers⟩ := exists_of_tokensOf_eq_cons htokens
  obtain ⟨second, offset', behind, rfl, hsecond, hbehind⟩ := exists_of_tokensOf_eq hothers
  obtain rfl := List.map_eq_nil_iff.1 hbehind
  simp only [List.append_assoc, List.cons_append, List.nil_append] at hl ⊢
  obtain ⟨found, rfl, hmeets⟩ := h room second _ hsecond (by simp at hl ⊢; omega) fuel offset' rest
    rfl (by simp at hl ⊢; omega)
  have hfound : (found.map measure).map (·.expr) = found := by
    rw [List.map_map]
    exact List.map_id found
  have hmeasured : ∀ item ∈ found.map measure, item.depth = item.expr.depth := by
    intro item hi
    obtain ⟨x, -, rfl⟩ := List.mem_map.1 hi
    rfl
  have hfold := foldl_depth hmeasured 0
  rw [hfound, Nat.zero_max] at hfold
  have hdepth : (Expr.array found).depth = Expr.depthOfItems found + 1 := by rw [Expr.depth]
  rw [Parser.primary, Body.primary]
  refine .bind hmeets (.bind (a := Expr.depthOfItems found + 1) ?_ ?_)
  · simp only [hfold]
    exact .deeper (fun h => hdepth ▸ h.2) offset
  · simp only [hfound]
    rw [measure_eq hdepth]
    exact .refl _

theorem Reads.noItems : Reads stop fuel (needed + 1) .items [] (.array []) := by
  intro room taken rest htokens hl n offset behind hrest hn
  obtain rfl := List.map_eq_nil_iff.1 htokens
  subst hrest
  obtain ⟨n, rfl⟩ := Nat.exists_eq_add_one.2 (Nat.zero_lt_of_lt hn)
  exact ⟨[], rfl, .refl _⟩

/-- The lexemes of a phrase that closes no list do not close one. -/
theorem not_closing {token : Token} {behind : List Token} (ht : tokens = token :: behind)
    (hno : token ≠ .punct .rBracket) {taken : List Lexeme} (htokens : tokensOf taken = tokens)
    (rest : List Lexeme) (offset : Nat) (others : List Lexeme) :
    taken ++ rest = ⟨.punct .rBracket, offset⟩ :: others → False := by
  obtain ⟨offset', others', rfl, -⟩ := exists_of_tokensOf_eq_cons (htokens.trans ht)
  intro he
  cases he
  exact hno rfl

theorem Reads.lastItem {token : Token} {behind : List Token} {item : Expr}
    (ht : tokens = token :: behind) (hno : token ≠ .punct .rBracket)
    (h : Reads stop fuel needed .expression tokens item) :
    Reads stop fuel (needed + 1) .items tokens (.array [item]) := by
  intro room taken rest htokens hl n offset others hrest hn
  subst hrest
  obtain ⟨n, rfl⟩ := Nat.exists_eq_add_one.2 (Nat.zero_lt_of_lt hn)
  refine ⟨[item], rfl, ?_⟩
  rw [items, Body.items]
  · refine .bind ((h room taken _ htokens hl 0 (Nat.zero_le _)
      (stops_of_closing (.inr (.inr (.inr rfl))) _ _ _)).mono fun hf => hf.inner ?_) ?_
    · simp only [Expr.depth, Expr.depthOfItems]
      omega
    · exact .bind (.refl _) (.refl _)
  · exact not_closing ht hno htokens _

theorem Reads.nextItem {token : Token} {behind more : List Token} {item : Expr}
    {others : List Expr} (ht : tokens = token :: behind) (hno : token ≠ .punct .rBracket)
    (h : Reads stop fuel needed .expression tokens item)
    (hm : Reads stop fuel (needed + 1) .items more (.array others)) :
    Reads stop fuel (needed + 1) .items (tokens ++ .punct .comma :: more)
      (.array (item :: others)) := by
  intro room taken rest htokens hl n offset last hrest hn
  subst hrest
  obtain ⟨first, comma, second, rfl, hfirst, hsecond⟩ := exists_of_tokensOf_eq htokens
  simp only [List.append_assoc, List.cons_append] at hl hn ⊢
  obtain ⟨n, rfl⟩ := Nat.exists_eq_add_one.2 (Nat.zero_lt_of_lt hn)
  have hdepth : (Expr.array (item :: others)).depth =
      max item.depth (Expr.depthOfItems others) + 1 := by
    rw [Expr.depth, Expr.depthOfItems]
  have hmore : (Expr.array others).depth = Expr.depthOfItems others + 1 := by rw [Expr.depth]
  refine ⟨item :: others, rfl, ?_⟩
  rw [items, Body.items]
  · refine .bind ((h room first _ hfirst hl 0 (Nat.zero_le _)
      (stops_of_closing (.inl rfl) _ _ _)).mono fun hf => hf.inner (by omega)) ?_
    obtain ⟨found, he, hmeets⟩ := hm room second _ hsecond (by simp at hl ⊢; omega) n offset last
      rfl (by simp at hn ⊢; omega)
    cases he
    exact .bind (hmeets.mono fun hf => hf.part (by omega)) (.refl _)
  · exact not_closing ht hno hfirst _

end Reads

/-- **The parser reads every phrase** as the grammar says. -/
theorem reads {stop fuel needed : Nat} {phrase : Phrase} {tokens : List Token} {expr : Expr}
    (h : Spells needed phrase tokens expr) : Reads stop fuel needed phrase tokens expr := by
  induction h with
  | chain h ih => exact ih.chain h.room_pos
  | conditional _ _ _ ihc iht ihf => exact ihc.conditional iht ihf
  | operand _ ih => exact ih.operand
  | binary ho hlevel _ hr ihl ihr => exact .binary ho hlevel ihl ihr hr.room_pos
  | unary ho h ih => exact .unary ho ih h.room_pos
  | suffixed h ih =>
    obtain ⟨token, behind, ht, -, hno⟩ := h.starts (by simp)
    exact ih.suffixed ht (hno (.inl rfl))
  | primary _ ih => exact ih.primary
  | member name _ ih => exact ih.member name
  | index _ _ ihb ihk => exact ihb.index ihk
  | number h =>
    refine .token fun inner offset rest => ?_
    rw [primary, Body.primary, ofNumber, h, measure_eq (by rw [Expr.depth])]
    rfl
  | notFinite h =>
    refine .token fun inner offset rest => ?_
    rw [primary, Body.primary, ofNumber, Json.Number.ofFloat?, dif_neg (by rw [h]; decide),
      measure_eq (by rw [Expr.depth])]
    rfl
  | text content =>
    refine .token fun inner offset rest => ?_
    rw [primary, Body.primary, measure_eq (by rw [Expr.depth])]
    rfl
  | constant h =>
    refine .token fun inner offset rest => ?_
    simp only [constants, List.mem_cons, Prod.mk.injEq, List.not_mem_nil, or_false] at h
    rcases h with ⟨rfl, rfl⟩ | ⟨rfl, rfl⟩ | ⟨rfl, rfl⟩ | ⟨rfl, rfl⟩ <;>
      rw [primary, Body.primary, measure_eq (by rw [Expr.depth])] <;> rfl
  | @name _ word h =>
    refine .token fun inner offset rest => ?_
    have hw := (ofWord_eq_or word).resolve_left fun hc => h (List.mem_map_of_mem hc)
    rw [primary, Body.primary, hw.2, measure_eq (by rw [Expr.depth])]
    rfl
  | parens _ ih => exact ih.parens
  | list _ ih => exact ih.list
  | noItems => exact .noItems
  | lastItem h ih =>
    obtain ⟨token, behind, ht, hno, -⟩ := h.starts (by simp)
    exact ih.lastItem ht hno
  | nextItem h _ ih ihm =>
    obtain ⟨token, behind, ht, hno, -⟩ := h.starts (by simp)
    exact ih.nextItem ht hno ihm

/-- A phrase with nothing behind it is read to its end. -/
theorem meets_expression (stop room : Nat) {needed : Nat} {lexemes : List Lexeme} {expr : Expr}
    (h : Spells needed .expression (tokensOf lexemes) expr) :
    Meets (Fits needed room expr) (expression stop (lexemes.length + 1) room 0 lexemes)
      (.ok (measure expr, [])) := by
  have hreads : Reads stop (lexemes.length + 1) needed .expression (tokensOf lexemes) expr :=
    reads h
  have hmeets := hreads room lexemes [] rfl (by simp) 0 (Nat.zero_le _) (.nil 0)
  rwa [List.append_nil] at hmeets

/-- **The grammar is unambiguous**: tokens have at most one tree that is not too deep for the
parser. -/
theorem eq_of_spells {first second : Nat} {tokens : List Token} {expr other : Expr}
    (h : Spells first .expression tokens expr) (hd : expr.depth ≤ maxDepth)
    (h' : Spells second .expression tokens other) (hd' : other.depth ≤ maxDepth) :
    expr = other := by
  obtain ⟨lexemes, rfl⟩ : ∃ lexemes, tokens = tokensOf lexemes :=
    ⟨tokens.map (⟨·, 0⟩), by rw [tokensOf, List.map_map]; exact (List.map_id tokens).symm⟩
  -- One parse with room for both reads either tree.
  have hexpr := (meets_expression 0 _ h).eq ⟨Nat.le_max_left first second, hd⟩
  have hother := (meets_expression 0 _ h').eq ⟨Nat.le_max_right first second, hd'⟩
  exact congrArg (·.expr) (Prod.mk.inj (Except.ok.inj (hexpr.symm.trans hother))).1

/-- What the parser accepts is nothing, or an expression within the limits. -/
theorem spells_of_ofLexemes {stop : Nat} {lexemes : List Lexeme} {expr : Expr}
    (h : ofLexemes stop lexemes = .ok expr) :
    lexemes = [] ∧ expr = .undefined ∨
      Spells maxDepth .expression (tokensOf lexemes) expr ∧ expr.depth ≤ maxDepth := by
  rcases ofLexemes_eq_ok h with hnone | ⟨depth, hparsed⟩
  · exact .inl hnone
  · obtain ⟨⟨⟨hd, hle⟩, taken, he, hs⟩, -⟩ := expression_sound _ _ _ _ _ _ _ (Nat.zero_le _)
      (Nat.lt_succ_self _) hparsed
    rw [List.append_nil] at he
    exact .inr ⟨he ▸ hs, hd ▸ hle⟩

/-- An expression is accepted, unless its nesting is too much for the limits. -/
theorem meets_ofLexemes {stop needed : Nat} {lexemes : List Lexeme} {expr : Expr}
    (h : Spells needed .expression (tokensOf lexemes) expr) :
    Meets (Fits needed maxDepth expr) (ofLexemes stop lexemes) (.ok expr) := by
  obtain ⟨token, behind, ht, -⟩ := h.starts (by simp)
  have hne : ¬ lexemes.isEmpty := by
    intro hempty
    rw [List.isEmpty_iff.1 hempty] at ht
    cases ht
  rw [ofLexemes, Body.ofLexemes, if_neg hne]
  exact (meets_expression stop maxDepth h).bind (.refl _)

/-- **The parser accepts exactly the expressions of the grammar, and builds their trees.** A list of
lexemes is accepted if it is empty, which is no value, or spells an expression in which no more than
`maxDepth` expressions are nested in one another and whose tree is no deeper. A parse that does not
run into the limits accepts whatever spells an expression at all. -/
theorem ofLexemes_eq_ok_iff (stop : Nat) (lexemes : List Lexeme) (expr : Expr) :
    (ofLexemes stop lexemes = .ok expr ↔ lexemes = [] ∧ expr = .undefined ∨
      Spells maxDepth .expression (tokensOf lexemes) expr ∧ expr.depth ≤ maxDepth) ∧
    ((∀ offset, ofLexemes stop lexemes ≠ .error ⟨.tooDeep, offset⟩) →
      (ofLexemes stop lexemes = .ok expr ↔ lexemes = [] ∧ expr = .undefined ∨
        ∃ needed, Spells needed .expression (tokensOf lexemes) expr)) := by
  refine ⟨⟨spells_of_ofLexemes, ?_⟩, fun hlimits => ⟨fun h => ?_, ?_⟩⟩
  · rintro (⟨rfl, rfl⟩ | ⟨hs, hdepth⟩)
    · rfl
    · exact (meets_ofLexemes hs).eq ⟨Nat.le_refl _, hdepth⟩
  · exact (spells_of_ofLexemes h).imp id fun ⟨hs, _⟩ => ⟨maxDepth, hs⟩
  · rintro (⟨rfl, rfl⟩ | ⟨needed, hs⟩)
    · rfl
    · exact (meets_ofLexemes hs).resolve_right fun ⟨_, offset, ho⟩ => hlimits offset ho

/-- The lexemes of `a - b.c * d ? [e,] : !f`. -/
def mixed : List Lexeme :=
  List.map (⟨·, 0⟩) [.word "a", .punct .minus, .word "b", .punct .dot, .word "c", .punct .star,
    .word "d", .punct .question, .punct .lBracket, .word "e", .punct .comma, .punct .rBracket,
    .punct .colon, .punct .bang, .word "f"]

/-- The tree of `mixed`. -/
def mixedTree : Expr :=
  .conditional
    (.binary .sub (.path "a" []) (.binary .mul (.path "b" ["c"]) (.path "d" [])))
    (.array [.path "e" []]) (.unary .not (.path "f" []))

theorem spells_mixed :
    ofLexemes 0 mixed = .ok mixedTree ∧
      ∃ needed, Spells needed .expression (tokensOf mixed) mixedTree := by
  have hok : ofLexemes 0 mixed = .ok mixedTree := rfl
  refine ⟨hok, (((ofLexemes_eq_ok_iff 0 mixed mixedTree).2 fun offset he => ?_).1 hok).resolve_left
    fun ⟨hnil, _⟩ => ?_⟩
  · rw [hok] at he
    cases he
  · cases hnil

end Recalc.Parser
