import Recalc.Proofs.Expr.Names

/-!
# The grammar of expressions

The tokens of an expression form a phrase of a grammar that says nothing of powers or of what has
been read so far:

    expression = chain [ ? expression : expression ]
    chain      = operand { binary operator operand }
    operand    = ( ! | - | + ) operand | suffixed
    suffixed   = primary { . word | [ expression ] }
    primary    = number | text | word | ( expression ) | [ items ]
    items      = [ expression { , expression } [ , ] ]

The binary operators associate to the left and bind by their levels. `Grammar.Spells` says which
tree a phrase has, and how deeply expressions, right operands and operands of operators in front are
nested in one another. The parser accepts exactly these phrases, as far as its limits go, and builds
their trees (`Parser.ofLexemes_eq_ok_iff`).
-/

namespace Recalc

/-- A member of a tree. A member of a name makes the name longer. -/
def Expr.access : Expr → String → Expr
  | .path root members, name => .path root (members ++ [name])
  | base, name => .member base name

theorem Expr.depth_le_depth_access (base : Expr) (name : String) :
    base.depth ≤ (base.access name).depth := by
  cases base <;> simp [Expr.access, Expr.depth]

theorem BinaryOp.level_bounds (op : BinaryOp) : 1 ≤ op.level ∧ op.level ≤ 7 := by
  cases op <;> decide

namespace Grammar

/-- The kinds of phrases. A chain of a level has no operator of a lower level outside of its
operands. -/
inductive Phrase where
  /-- A chain, or a choice between two expressions. -/
  | expression
  /-- Operands joined by binary operators of at least this level. -/
  | chain (level : Nat)
  /-- What binary operators join. -/
  | operand
  /-- A primary phrase with members and indices behind it. -/
  | suffixed
  /-- The smallest phrases, and those in brackets. -/
  | primary
  /-- What stands between the brackets of a list. -/
  | items

/-- The words that stand for values. -/
def constants : List (String × Expr) := [
  ("true", .literal (.bool true)), ("false", .literal (.bool false)), ("null", .literal .null),
  ("undefined", .undefined)]

/-- The tokens are a phrase of the kind with the tree, which is the list itself for the items of a
list, and at most `room` expressions are nested in one another, the outermost one included. -/
inductive Spells : Nat → Phrase → List Token → Expr → Prop where
  /-- An expression without a choice. -/
  | chain {room : Nat} {tokens : List Token} {expr : Expr}
      (h : Spells room (.chain 1) tokens expr) : Spells room .expression tokens expr
  /-- A choice. -/
  | conditional {room : Nat} {cs ts fs : List Token} {condition whenTrue whenFalse : Expr}
      (hc : Spells (room + 1) (.chain 1) cs condition) (ht : Spells room .expression ts whenTrue)
      (hf : Spells room .expression fs whenFalse) :
      Spells (room + 1) .expression (cs ++ .punct .question :: (ts ++ .punct .colon :: fs))
        (.conditional condition whenTrue whenFalse)
  /-- A chain of one operand. -/
  | operand {room level : Nat} {tokens : List Token} {expr : Expr}
      (h : Spells room .operand tokens expr) : Spells room (.chain level) tokens expr
  /-- A chain whose last operator is one of the weakest in it, so it takes all on its left. -/
  | binary {room level : Nat} {mark : Punct} {op : BinaryOp} {ls rs : List Token}
      {left right : Expr} (ho : BinaryOp.ofPunct? mark = some op) (hlevel : level ≤ op.level)
      (hl : Spells (room + 1) (.chain op.level) ls left)
      (hr : Spells room (.chain (op.level + 1)) rs right) :
      Spells (room + 1) (.chain level) (ls ++ .punct mark :: rs) (.binary op left right)
  /-- An operator in front of an operand. -/
  | unary {room : Nat} {mark : Punct} {op : UnaryOp} {tokens : List Token} {expr : Expr}
      (ho : UnaryOp.ofPunct? mark = some op) (h : Spells room .operand tokens expr) :
      Spells (room + 1) .operand (.punct mark :: tokens) (.unary op expr)
  /-- An operand without an operator in front. -/
  | suffixed {room : Nat} {tokens : List Token} {expr : Expr}
      (h : Spells room .suffixed tokens expr) : Spells room .operand tokens expr
  /-- Nothing behind. -/
  | primary {room : Nat} {tokens : List Token} {expr : Expr}
      (h : Spells room .primary tokens expr) : Spells room .suffixed tokens expr
  /-- A member. -/
  | member {room : Nat} {tokens : List Token} {base : Expr} (name : String)
      (h : Spells room .suffixed tokens base) :
      Spells room .suffixed (tokens ++ [.punct .dot, .word name]) (base.access name)
  /-- An index. -/
  | index {room : Nat} {bs ks : List Token} {base key : Expr}
      (hb : Spells (room + 1) .suffixed bs base) (hk : Spells room .expression ks key) :
      Spells (room + 1) .suffixed (bs ++ .punct .lBracket :: (ks ++ [.punct .rBracket]))
        (.index base key)
  /-- A number. -/
  | number {room : Nat} {x : Float} {value : Json.Number}
      (h : Json.Number.ofFloat? x = some value) :
      Spells (room + 1) .primary [.number x] (.literal (.number value))
  /-- A number that is not finite. -/
  | notFinite {room : Nat} {x : Float} (h : x.isFinite = false) :
      Spells (room + 1) .primary [.number x] .undefined
  /-- A quoted text. -/
  | text {room : Nat} (content : String) :
      Spells (room + 1) .primary [.text content] (.literal (.string content))
  /-- A word that stands for a value. -/
  | constant {room : Nat} {word : String} {expr : Expr} (h : (word, expr) ∈ constants) :
      Spells (room + 1) .primary [.word word] expr
  /-- A name. -/
  | name {room : Nat} {word : String} (h : word ∉ constants.map Prod.fst) :
      Spells (room + 1) .primary [.word word] (.path word [])
  /-- An expression in parentheses. -/
  | parens {room : Nat} {tokens : List Token} {expr : Expr}
      (h : Spells room .expression tokens expr) :
      Spells (room + 1) .primary (.punct .lParen :: (tokens ++ [.punct .rParen])) expr
  /-- A list. -/
  | list {room : Nat} {tokens : List Token} {expr : Expr}
      (h : Spells (room + 1) .items tokens expr) :
      Spells (room + 1) .primary (.punct .lBracket :: (tokens ++ [.punct .rBracket])) expr
  /-- No items. -/
  | noItems {room : Nat} : Spells (room + 1) .items [] (.array [])
  /-- The last item, with no comma behind it. -/
  | lastItem {room : Nat} {tokens : List Token} {item : Expr}
      (h : Spells room .expression tokens item) : Spells (room + 1) .items tokens (.array [item])
  /-- An item with a comma behind it, which may be all. -/
  | nextItem {room : Nat} {tokens more : List Token} {item : Expr} {rest : List Expr}
      (h : Spells room .expression tokens item) (hm : Spells (room + 1) .items more (.array rest)) :
      Spells (room + 1) .items (tokens ++ .punct .comma :: more) (.array (item :: rest))

namespace Spells

variable {room : Nat} {phrase : Phrase} {tokens : List Token} {expr : Expr}

/-- Every phrase takes room for itself. -/
theorem room_pos (h : Spells room phrase tokens expr) : 0 < room := by
  induction h <;> first | assumption | exact Nat.succ_pos _

/-- A chain has all lower levels. -/
theorem weaken {level lower : Nat} (h : Spells room (.chain level) tokens expr)
    (hl : lower ≤ level) : Spells room (.chain lower) tokens expr := by
  cases h with
  | operand h => exact .operand h
  | binary ho hlevel hl' hr => exact .binary ho (Nat.le_trans hl hlevel) hl' hr

/-- A phrase starts with a token that closes no list, and with no operator in front if it is no
operand of one. -/
theorem starts (h : Spells room phrase tokens expr) (hp : phrase ≠ .items) :
    ∃ token behind, tokens = token :: behind ∧ token ≠ .punct .rBracket ∧
      (phrase = .suffixed ∨ phrase = .primary → ∀ mark, token = .punct mark →
        UnaryOp.ofPunct? mark = none) := by
  induction h with
  | chain _ ih =>
    obtain ⟨token, behind, rfl, hb, -⟩ := ih (by simp)
    exact ⟨token, behind, rfl, hb, by simp⟩
  | conditional _ _ _ ih =>
    obtain ⟨token, behind, rfl, hb, -⟩ := ih (by simp)
    exact ⟨token, _, rfl, hb, by simp⟩
  | operand _ ih =>
    obtain ⟨token, behind, rfl, hb, -⟩ := ih (by simp)
    exact ⟨token, behind, rfl, hb, by simp⟩
  | binary _ _ _ _ ih =>
    obtain ⟨token, behind, rfl, hb, -⟩ := ih (by simp)
    exact ⟨token, _, rfl, hb, by simp⟩
  | unary ho =>
    refine ⟨_, _, rfl, ?_, by simp⟩
    intro he
    cases he
    cases ho
  | suffixed _ ih =>
    obtain ⟨token, behind, rfl, hb, -⟩ := ih (by simp)
    exact ⟨token, behind, rfl, hb, by simp⟩
  | primary _ ih =>
    obtain ⟨token, behind, rfl, hb, hno⟩ := ih (by simp)
    exact ⟨token, behind, rfl, hb, fun _ => hno (.inr rfl)⟩
  | member _ _ ih =>
    obtain ⟨token, behind, rfl, hb, hno⟩ := ih (by simp)
    exact ⟨token, _, rfl, hb, hno⟩
  | index _ _ ih =>
    obtain ⟨token, behind, rfl, hb, hno⟩ := ih (by simp)
    exact ⟨token, _, rfl, hb, hno⟩
  | number | notFinite | text | constant | name => exact ⟨_, _, rfl, by simp, by simp⟩
  | parens | list =>
    refine ⟨_, _, rfl, by simp, fun _ mark he => ?_⟩
    cases he
    rfl
  | noItems | lastItem | nextItem => exact absurd rfl hp

end Spells

end Grammar

end Recalc
