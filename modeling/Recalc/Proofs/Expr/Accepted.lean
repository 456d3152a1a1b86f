import Recalc.Proofs.Expr.Grammar

/-!
# What the parser accepts is a phrase

The parser goes by powers where the grammar has levels. A parse of a power ends where no operator
that is as strong follows (`Stops`); then what it took is a phrase of the level that the power
stands for (`phraseOf`), with the tree that it built, and the depth beside the tree is that of the
tree (`expression_sound`). The loop over the operators keeps a level: what it has read is a chain of
that level, and no operator that binds more strongly is next.
-/

namespace Recalc.Parser

open Grammar

/-! ### Where a parse stops -/

/-- A parse of the power goes on at the mark, or fails there. -/
def Continues (power : Nat) (mark : Punct) : Prop :=
  mark = .dot ∨ mark = .lBracket ∨ mark = .lParen ∨ mark = .question ∧ power ≤ conditionalPower ∨
    ∃ op, BinaryOp.ofPunct? mark = some op ∧ power ≤ leftPower op

/-- A parse of the power stops in front of the lexemes. -/
def Stops (power : Nat) (rest : List Lexeme) : Prop :=
  ∀ mark offset behind, rest = ⟨.punct mark, offset⟩ :: behind → ¬ Continues power mark

namespace Stops

theorem nil (power : Nat) : Stops power [] := fun _ _ _ he => by cases he

theorem cons {power : Nat} {mark : Punct} (h : ¬ Continues power mark) (offset : Nat)
    (behind : List Lexeme) : Stops power (⟨.punct mark, offset⟩ :: behind) := by
  intro mark' offset' behind' he
  cases he
  exact h

variable {power : Nat} {rest : List Lexeme}

theorem mono {higher : Nat} (h : Stops power rest) (hp : power ≤ higher) : Stops higher rest := by
  rintro mark offset behind rfl (hc | hc | hc | ⟨hc, hle⟩ | ⟨op, hc, hle⟩)
  · exact h _ _ _ rfl (.inl hc)
  · exact h _ _ _ rfl (.inr (.inl hc))
  · exact h _ _ _ rfl (.inr (.inr (.inl hc)))
  · exact h _ _ _ rfl (.inr (.inr (.inr (.inl ⟨hc, Nat.le_trans hp hle⟩))))
  · exact h _ _ _ rfl (.inr (.inr (.inr (.inr ⟨op, hc, Nat.le_trans hp hle⟩))))

/-- An operand stops wherever some parse stops. -/
theorem unary (h : Stops power rest) : Stops unaryPower rest := by
  rintro mark offset behind rfl (hc | hc | hc | ⟨-, hle⟩ | ⟨op, -, hle⟩)
  · exact h _ _ _ rfl (.inl hc)
  · exact h _ _ _ rfl (.inr (.inl hc))
  · exact h _ _ _ rfl (.inr (.inr (.inl hc)))
  · exact absurd hle (by decide)
  · have hbound := op.level_bounds.2
    rw [unaryPower, leftPower] at hle
    omega

/-- What stops a conditional stops everything, since no power is less. -/
theorem of_conditional (h : Stops conditionalPower rest) (power : Nat) : Stops power rest := by
  rintro mark offset behind rfl (hc | hc | hc | ⟨hc, -⟩ | ⟨op, hc, -⟩)
  · exact h _ _ _ rfl (.inl hc)
  · exact h _ _ _ rfl (.inr (.inl hc))
  · exact h _ _ _ rfl (.inr (.inr (.inl hc)))
  · exact h _ _ _ rfl (.inr (.inr (.inr (.inl ⟨hc, Nat.le_refl _⟩))))
  · have hbound := op.level_bounds.1
    refine h _ _ _ rfl (.inr (.inr (.inr (.inr ⟨op, hc, ?_⟩))))
    rw [leftPower, conditionalPower]
    omega

end Stops

/-- The marks that close something or separate things stop every parse. -/
theorem stops_of_closing {mark : Punct}
    (h : mark = .comma ∨ mark = .colon ∨ mark = .rParen ∨ mark = .rBracket) (power offset : Nat)
    (behind : List Lexeme) : Stops power (⟨.punct mark, offset⟩ :: behind) := by
  refine .cons ?_ offset behind
  rintro (hc | hc | hc | ⟨hc, -⟩ | ⟨op, hc, -⟩) <;>
    rcases h with rfl | rfl | rfl | rfl <;> cases hc

/-- A choice is weaker than every operator. -/
theorem stops_of_question {power : Nat} (h : conditionalPower < power) (offset : Nat)
    (behind : List Lexeme) : Stops power (⟨.punct .question, offset⟩ :: behind) := by
  refine .cons ?_ offset behind
  rintro (hc | hc | hc | ⟨-, hle⟩ | ⟨op, hc, -⟩)
  · cases hc
  · cases hc
  · cases hc
  · exact Nat.not_lt_of_le hle h
  · cases hc

/-- An operator stops the operands of stronger ones. -/
theorem stops_of_op {mark : Punct} {op : BinaryOp} (h : BinaryOp.ofPunct? mark = some op)
    (offset : Nat) (behind : List Lexeme) :
    Stops (rightPower op) (⟨.punct mark, offset⟩ :: behind) := by
  refine .cons ?_ offset behind
  rintro (rfl | rfl | rfl | ⟨rfl, -⟩ | ⟨op', hc, hle⟩)
  · cases h
  · cases h
  · cases h
  · cases h
  · obtain rfl := Option.some.inj (h.symm.trans hc)
    rw [rightPower, leftPower] at hle
    omega

section Layer

variable {stop fuel : Nat} {inner : Nat → List Lexeme → Except SyntaxError (Parsed × List Lexeme)}

/-- The operators stop where a parse of their power does. -/
theorem operators_of_stops {power : Nat} {left : Parsed} {rest : List Lexeme}
    (h : Stops power rest) (n : Nat) :
    operators stop inner power n left rest = .ok (left, rest) := by
  cases n with
  | zero => rfl
  | succ n =>
  rw [operators, Body.operators.eq_def]
  split
  · rename_i mark offset behind
    have hno := h _ _ _ rfl
    split
    · rename_i hquestion
      have hpower : conditionalPower < power :=
        Nat.lt_of_not_le fun hle => hno (.inr (.inr (.inr (.inl ⟨hquestion, hle⟩))))
      rw [if_pos hpower]
      rfl
    · split
      · rfl
      · rename_i op hop
        have hpower : leftPower op < power :=
          Nat.lt_of_not_le fun hle => hno (.inr (.inr (.inr (.inr ⟨op, hop, hle⟩))))
        rw [if_pos hpower]
        rfl
  · rfl

/-- The suffixes stop where an operand does. -/
theorem suffixes_of_stops {base : Parsed} {rest : List Lexeme} (h : Stops unaryPower rest)
    (n : Nat) : suffixes stop inner n base rest = .ok (base, rest) := by
  cases n with
  | zero => rfl
  | succ n =>
  rw [suffixes, Body.suffixes.eq_def]
  split
  · exact absurd (.inl rfl) (h _ _ _ rfl)
  · exact absurd (.inr (.inl rfl)) (h _ _ _ rfl)
  · exact absurd (.inr (.inr (.inl rfl))) (h _ _ _ rfl)
  · rfl

end Layer

/-! ### Trees and their depths -/

/-- The tree is as deep as the parser says, and not too deep. -/
def Measured (parsed : Parsed) : Prop :=
  parsed.depth = parsed.expr.depth ∧ parsed.depth ≤ maxDepth

theorem deeper_eq_ok {depth offset found : Nat} (h : deeper depth offset = .ok found) :
    found = depth + 1 ∧ found ≤ maxDepth := by
  rw [deeper] at h
  split at h
  · cases h
  · rename_i hdepth
    obtain rfl := Except.ok.inj h
    exact ⟨rfl, Nat.lt_of_not_le hdepth⟩

theorem measured_leaf {expr : Expr} (h : expr.depth = 1) : Measured (leaf expr) :=
  ⟨h.symm, show 1 ≤ maxDepth by decide⟩

theorem depth_ofNumber (x : Float) : (ofNumber x).depth = 1 := by
  rw [ofNumber]
  split <;> rw [Expr.depth]

theorem spells_ofNumber (room : Nat) (x : Float) :
    Spells (room + 1) .primary [.number x] (ofNumber x) := by
  rw [ofNumber]
  split
  · rename_i value hvalue
    exact .number hvalue
  · rename_i hnone
    refine .notFinite ?_
    rw [Json.Number.ofFloat?] at hnone
    split at hnone
    · split at hnone <;> cases hnone
    · rename_i hfinite
      exact Bool.eq_false_iff.2 hfinite

/-- A word stands for its constant, or is a name. -/
theorem ofWord_eq_or (word : String) :
    (word, ofWord word) ∈ constants ∨
      word ∉ constants.map Prod.fst ∧ ofWord word = .path word [] := by
  rw [ofWord]
  split
  · rename_i h
    exact .inl (h ▸ by simp [constants])
  split
  · rename_i h
    exact .inl (h ▸ by simp [constants])
  split
  · rename_i h
    exact .inl (h ▸ by simp [constants])
  split
  · rename_i h
    exact .inl (h ▸ by simp [constants])
  · rename_i hundefined hnull hfalse htrue
    refine .inr ⟨?_, rfl⟩
    simp [constants, *]

theorem spells_ofWord (room : Nat) (word : String) :
    Spells (room + 1) .primary [.word word] (ofWord word) := by
  rcases ofWord_eq_or word with h | ⟨h, he⟩
  · exact .constant h
  · rw [he]
    exact .name h

theorem depth_ofWord (word : String) : (ofWord word).depth = 1 := by
  rcases ofWord_eq_or word with h | ⟨-, he⟩
  · generalize ofWord word = expr at h
    simp only [constants, List.mem_cons, Prod.mk.injEq, List.not_mem_nil, or_false] at h
    rcases h with ⟨-, rfl⟩ | ⟨-, rfl⟩ | ⟨-, rfl⟩ | ⟨-, rfl⟩ <;> rw [Expr.depth]
  · rw [he, Expr.depth]

theorem measured_addMember {base longer : Parsed} {name : String} {offset : Nat}
    (hb : Measured base) (h : addMember base name offset = .ok longer) :
    Measured longer ∧ longer.expr = base.expr.access name := by
  obtain ⟨expr, depth⟩ := base
  obtain ⟨hd, hle⟩ := hb
  obtain rfl : depth = expr.depth := hd
  rw [addMember] at h
  split at h
  · rename_i root members he
    cases h
    obtain rfl : expr = .path root members := he
    refine ⟨⟨?_, hle⟩, rfl⟩
    simp only [Expr.depth]
  · rename_i hpath
    obtain ⟨depth, hdepth, hend⟩ := bind_eq_ok.1 h
    cases hend
    obtain ⟨rfl, hle'⟩ := deeper_eq_ok hdepth
    refine ⟨⟨?_, hle'⟩, ?_⟩
    · simp only [Expr.depth]
    · rw [Expr.access]
      exact hpath

/-- The depth of a list is found item by item. -/
theorem foldl_depth {found : List Parsed} (hm : ∀ item ∈ found, item.depth = item.expr.depth)
    (start : Nat) :
    found.foldl (fun depth item => max depth item.depth) start =
      max start (Expr.depthOfItems (found.map (·.expr))) := by
  induction found generalizing start with
  | nil => simp [Expr.depthOfItems]
  | cons item found ih =>
    obtain ⟨hitem, hfound⟩ := List.forall_mem_cons.1 hm
    rw [List.foldl_cons, ih hfound, List.map_cons, Expr.depthOfItems, hitem, Nat.max_assoc]

/-! ### Phrases in front of others -/

/-- The phrases that a parse of a power reads. -/
def phraseOf (power : Nat) : Phrase :=
  if power ≤ conditionalPower then .expression else .chain ((power + 1) / 2)

/-- The parse took a phrase with the tree from the front. -/
def Took (room : Nat) (phrase : Phrase) (parsed : Parsed) (lexemes rest : List Lexeme) : Prop :=
  Measured parsed ∧ ∃ taken, lexemes = taken ++ rest ∧
    Spells room phrase (tokensOf taken) parsed.expr

/-- What the parser accepts is a phrase of the power, and it goes as far as it can. -/
def Sound (room fuel : Nat)
    (parse : Nat → List Lexeme → Except SyntaxError (Parsed × List Lexeme)) : Prop :=
  ∀ power lexemes parsed rest, power ≤ unaryPower → lexemes.length < fuel →
    parse power lexemes = .ok (parsed, rest) →
      Took room (phraseOf power) parsed lexemes rest ∧ Stops power rest

/-- A chain whose operators are no weaker than the power is a phrase of the power. -/
theorem spells_phraseOf {room power level : Nat} {tokens : List Token} {expr : Expr}
    (h : Spells room (.chain level) tokens expr) (hl : 1 ≤ level) (hp : power ≤ 2 * level) :
    Spells room (phraseOf power) tokens expr := by
  rw [phraseOf]
  split
  · exact .chain (h.weaken hl)
  · exact h.weaken (by omega)

/-- There is no operator as strong as the operand of an operator in front. -/
theorem operand_of_spells {room : Nat} {tokens : List Token} {expr : Expr}
    (h : Spells room (phraseOf unaryPower) tokens expr) : Spells room .operand tokens expr := by
  rw [phraseOf, if_neg (by decide)] at h
  cases h with
  | operand h => exact h
  | @binary _ _ _ op _ _ _ _ ho hlevel hl hr =>
    have hbound := op.level_bounds.2
    rw [unaryPower] at hlevel
    omega

section Sound

variable {stop fuel room : Nat}
  {inner : Nat → List Lexeme → Except SyntaxError (Parsed × List Lexeme)}
  (hin : Sound room fuel inner)
include hin

theorem expression_of_sound {power : Nat} {lexemes rest : List Lexeme} {parsed : Parsed}
    (hp : power ≤ conditionalPower) (hl : lexemes.length < fuel)
    (h : inner power lexemes = .ok (parsed, rest)) :
    Took room .expression parsed lexemes rest := by
  have htook := (hin _ _ _ _ (Nat.le_trans hp (by decide)) hl h).1
  rwa [phraseOf, if_pos hp] at htook

theorem items_sound {n : Nat} {lexemes rest : List Lexeme} {found : List Parsed}
    (hl : lexemes.length < fuel) (h : items stop inner n lexemes = .ok (found, rest)) :
    (∀ item ∈ found, Measured item) ∧ ∃ taken offset,
      lexemes = taken ++ ⟨.punct .rBracket, offset⟩ :: rest ∧
      Spells (room + 1) .items (tokensOf taken) (.array (found.map (·.expr))) := by
  induction n generalizing lexemes found with
  | zero =>
    rw [items] at h
    cases h
  | succ n ih =>
    rcases items_succ_eq_ok h with ⟨offset, rfl, rfl⟩ |
      ⟨item, offset, behind, more, hitem, hmore, rfl⟩ | ⟨item, offset, hitem, rfl⟩
    · exact ⟨by simp, [], offset, rfl, .noItems⟩
    · obtain ⟨hm, first, rfl, hs⟩ := expression_of_sound hin (Nat.zero_le _) hl hitem
      obtain ⟨hms, others, offset', rfl, hos⟩ := ih (by simp at hl; omega) hmore
      refine ⟨List.forall_mem_cons.2 ⟨hm, hms⟩,
        first ++ ⟨.punct .comma, offset⟩ :: others, offset', by simp, ?_⟩
      rw [tokensOf, List.map_append, List.map_cons]
      exact .nextItem hs hos
    · obtain ⟨hm, first, rfl, hs⟩ := expression_of_sound hin (Nat.zero_le _) hl hitem
      exact ⟨by simpa using hm, first, offset, rfl, .lastItem hs⟩

theorem primary_sound {lexemes rest : List Lexeme} {parsed : Parsed}
    (hl : lexemes.length < fuel) (h : primary stop inner fuel lexemes = .ok (parsed, rest)) :
    Took (room + 1) .primary parsed lexemes rest := by
  rcases primary_eq_ok h with ⟨x, offset, rfl, rfl⟩ | ⟨content, offset, rfl, rfl⟩ |
    ⟨word, offset, rfl, rfl⟩ | ⟨offset, behind, offset', rfl, hinside⟩ |
    ⟨offset, behind, found, depth, rfl, hfound, hdepth, rfl⟩
  · exact ⟨measured_leaf (depth_ofNumber x), [⟨.number x, offset⟩], rfl, spells_ofNumber room x⟩
  · exact ⟨measured_leaf (by rw [Expr.depth]), [⟨.text content, offset⟩], rfl, .text content⟩
  · exact ⟨measured_leaf (depth_ofWord word), [⟨.word word, offset⟩], rfl, spells_ofWord room word⟩
  · obtain ⟨hm, inside, rfl, hs⟩ :=
      expression_of_sound hin (Nat.zero_le _) (by simp at hl ⊢; omega) hinside
    refine ⟨hm, ⟨.punct .lParen, offset⟩ :: (inside ++ [⟨.punct .rParen, offset'⟩]), by simp, ?_⟩
    rw [tokensOf, List.map_cons, List.map_append]
    exact .parens hs
  · obtain ⟨hm, inside, offset', rfl, hs⟩ := items_sound hin (by simp at hl ⊢; omega) hfound
    obtain ⟨rfl, hle⟩ := deeper_eq_ok hdepth
    refine ⟨⟨?_, hle⟩,
      ⟨.punct .lBracket, offset⟩ :: (inside ++ [⟨.punct .rBracket, offset'⟩]), by simp, ?_⟩
    · simp only [Expr.depth, foldl_depth fun item hi => (hm item hi).1, Nat.zero_max]
    · rw [tokensOf, List.map_cons, List.map_append]
      exact .list hs

theorem suffixes_sound {n : Nat} {taken lexemes rest : List Lexeme} {base parsed : Parsed}
    (hl : (taken ++ lexemes).length < fuel) (hn : lexemes.length < n) (hm : Measured base)
    (hs : Spells (room + 1) .suffixed (tokensOf taken) base.expr)
    (h : suffixes stop inner n base lexemes = .ok (parsed, rest)) :
    Took (room + 1) .suffixed parsed (taken ++ lexemes) rest ∧ Stops unaryPower rest := by
  induction n generalizing taken lexemes base with
  | zero => omega
  | succ n ih =>
    rcases suffixes_succ_eq_ok h with ⟨dot, name, offset, behind, longer, rfl, hlonger, hrest⟩ |
      ⟨offset, behind, key, offset', last, depth, rfl, hkey, hdepth, hrest⟩ | ⟨rfl, rfl, hend⟩
    · obtain ⟨hml, hel⟩ := measured_addMember hm hlonger
      have hassoc : taken ++ ⟨.punct .dot, dot⟩ :: ⟨.word name, offset⟩ :: behind =
          (taken ++ [⟨.punct .dot, dot⟩, ⟨.word name, offset⟩]) ++ behind := by simp
      rw [hassoc] at hl ⊢
      refine ih hl (by simp at hn; omega) hml ?_ hrest
      rw [tokensOf, List.map_append, hel]
      exact .member name hs
    · obtain ⟨hmk, inside, rfl, hks⟩ :=
        expression_of_sound hin (Nat.zero_le _) (by simp at hl ⊢; omega) hkey
      obtain ⟨rfl, hle⟩ := deeper_eq_ok hdepth
      have hassoc : taken ++ ⟨.punct .lBracket, offset⟩ ::
            (inside ++ ⟨.punct .rBracket, offset'⟩ :: last) =
          (taken ++ ⟨.punct .lBracket, offset⟩ :: (inside ++ [⟨.punct .rBracket, offset'⟩])) ++
            last := by simp
      rw [hassoc] at hl ⊢
      refine ih hl (by simp at hn; omega) ⟨?_, hle⟩ ?_ hrest
      · rw [Expr.depth, hm.1, hmk.1]
      · simp only [tokensOf, List.map_append, List.map_cons, List.map_nil]
        exact .index hs hks
    · refine ⟨⟨hm, taken, rfl, hs⟩, ?_⟩
      rintro mark offset behind rfl (hc | hc | hc | ⟨-, hle⟩ | ⟨op, -, hle⟩)
      · exact (hend _ _ _ rfl).1 hc
      · exact (hend _ _ _ rfl).2.1 hc
      · exact (hend _ _ _ rfl).2.2 hc
      · exact absurd hle (by decide)
      · have hbound := op.level_bounds.2
        rw [unaryPower, leftPower] at hle
        omega

theorem operand_sound {lexemes rest : List Lexeme} {parsed : Parsed}
    (hl : lexemes.length < fuel) (h : operand stop inner fuel lexemes = .ok (parsed, rest)) :
    Took (room + 1) .operand parsed lexemes rest ∧ Stops unaryPower rest := by
  rcases operand_eq_ok h with
    ⟨mark, op, offset, behind, inside, depth, hop, rfl, hinside, hdepth, rfl⟩ |
    ⟨base, mid, hbase, hsuffixes⟩
  · obtain ⟨⟨hm, taken, rfl, hs⟩, hstop⟩ :=
      hin unaryPower _ _ _ (Nat.le_refl _) (by simp at hl ⊢; omega) hinside
    obtain ⟨rfl, hle⟩ := deeper_eq_ok hdepth
    refine ⟨⟨⟨?_, hle⟩, ⟨.punct mark, offset⟩ :: taken, rfl, ?_⟩, hstop⟩
    · rw [Expr.depth, hm.1]
    · rw [tokensOf, List.map_cons]
      exact .unary hop (operand_of_spells hs)
  · obtain ⟨hm, taken, rfl, hs⟩ := primary_sound hin hl hbase
    obtain ⟨⟨hm', taken', he, hs'⟩, hstop⟩ :=
      suffixes_sound hin hl (by simp at hl; omega) hm (.primary hs) hsuffixes
    exact ⟨⟨hm', taken', he, .suffixed hs'⟩, hstop⟩

/-- The operators extend a chain as far as they can. What is behind it has none that binds more
strongly than the chain. -/
theorem operators_sound {power n level : Nat} {taken lexemes rest : List Lexeme}
    {left parsed : Parsed} (hl : (taken ++ lexemes).length < fuel) (hn : lexemes.length < n)
    (hp : power ≤ 2 * level) (hlevel : 1 ≤ level) (hstop : Stops (2 * level + 1) lexemes)
    (hm : Measured left) (hs : Spells (room + 1) (.chain level) (tokensOf taken) left.expr)
    (h : operators stop inner power n left lexemes = .ok (parsed, rest)) :
    Took (room + 1) (phraseOf power) parsed (taken ++ lexemes) rest ∧ Stops power rest := by
  induction n generalizing level taken lexemes left with
  | zero => omega
  | succ n ih =>
    rcases operators_succ_eq_ok h with ⟨rfl, rfl, hend⟩ |
      ⟨offset, behind, whenTrue, offset', mid, whenFalse, last, depth, hpower, rfl, htrue, hfalse,
        hdepth, hrest⟩ |
      ⟨mark, offset, behind, op, right, last, depth, hop, hpower, rfl, hright, hdepth, hrest⟩
    · refine ⟨⟨hm, taken, rfl, spells_phraseOf hs hlevel hp⟩, ?_⟩
      rintro mark offset behind rfl (hc | hc | hc | ⟨hc, hle⟩ | ⟨op, hc, hle⟩)
      · exact hstop _ _ _ rfl (.inl hc)
      · exact hstop _ _ _ rfl (.inr (.inl hc))
      · exact hstop _ _ _ rfl (.inr (.inr (.inl hc)))
      · exact Nat.not_lt_of_le hle ((hend _ _ _ rfl).1 hc)
      · exact Nat.not_lt_of_le hle ((hend _ _ _ rfl).2 op hc)
    · obtain ⟨hmt, first, rfl, hts⟩ :=
        expression_of_sound hin (Nat.zero_le _) (by simp at hl ⊢; omega) htrue
      have hlast := (hin _ _ _ _ (by decide) (by simp at hl ⊢; omega) hfalse).2
      obtain ⟨hmf, second, rfl, hfs⟩ :=
        expression_of_sound hin (Nat.le_refl _) (by simp at hl ⊢; omega) hfalse
      obtain ⟨rfl, hle⟩ := deeper_eq_ok hdepth
      -- What is behind a conditional stops everything, so it is the last of the operators.
      rw [operators_of_stops (hlast.of_conditional power)] at hrest
      cases hrest
      refine ⟨⟨⟨?_, hle⟩, taken ++ ⟨.punct .question, offset⟩ ::
        (first ++ ⟨.punct .colon, offset'⟩ :: second), by simp, ?_⟩, hlast.of_conditional power⟩
      · rw [Expr.depth, hm.1, hmt.1, hmf.1]
      · simp only [tokensOf, List.map_append, List.map_cons]
        rw [phraseOf, if_pos hpower]
        exact .conditional (hs.weaken hlevel) hts hfs
    · have hweaker : op.level ≤ level := by
        refine Nat.le_of_not_lt fun hlt => hstop _ _ _ rfl (.inr (.inr (.inr (.inr ⟨op, hop, ?_⟩))))
        rw [leftPower]
        omega
      have hbounds := op.level_bounds
      obtain ⟨⟨hmr, second, rfl, hrs⟩, hlast⟩ := hin (rightPower op) _ _ _
        (by rw [rightPower, unaryPower]; omega) (by simp at hl ⊢; omega) hright
      obtain ⟨rfl, hle⟩ := deeper_eq_ok hdepth
      have hrs' : Spells room (.chain (op.level + 1)) (tokensOf second) right.expr := by
        rwa [phraseOf, rightPower, if_neg (by rw [conditionalPower]; omega),
          show (2 * op.level + 1 + 1) / 2 = op.level + 1 by omega] at hrs
      have hassoc : taken ++ ⟨.punct mark, offset⟩ :: (second ++ last) =
          (taken ++ ⟨.punct mark, offset⟩ :: second) ++ last := by simp
      rw [hassoc] at hl ⊢
      refine ih hl (by simp at hn; omega) hpower hbounds.1 hlast ⟨?_, hle⟩ ?_ hrest
      · rw [Expr.depth, hm.1, hmr.1]
      · simp only [tokensOf, List.map_append, List.map_cons]
        exact .binary hop (Nat.le_refl _) (hs.weaken hweaker) hrs'

theorem layer_sound : Sound (room + 1) fuel (layer stop inner fuel) := by
  intro power lexemes parsed rest hp hl h
  obtain ⟨⟨left, mid⟩, hleft, hoperators⟩ := bind_eq_ok.1 h
  obtain ⟨⟨hm, taken, rfl, hs⟩, hstop⟩ := operand_sound hin hl hleft
  have hp8 : power ≤ 2 * 8 := hp
  exact operators_sound hin hl (by simp at hl; omega) hp8 (by decide) (hstop.mono (by decide)) hm
    (.operand hs) hoperators

end Sound

/-- **What the parser accepts is a phrase**, with the tree that it builds. -/
theorem expression_sound (stop fuel room : Nat) : Sound room fuel (expression stop fuel room) := by
  induction room with
  | zero =>
    intro power lexemes parsed rest hp hl h
    cases h
  | succ room ih => exact layer_sound ih

end Recalc.Parser
