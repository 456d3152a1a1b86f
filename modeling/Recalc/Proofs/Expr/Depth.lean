import Recalc.Proofs.Expr.Accepted

/-!
# The depth that the parser returns

Each parsing function returns a depth beside the tree. Whatever parses the expressions one level
further in, if the depths that it returns are those of its trees and within the bound, then so are
those that the layer returns (`ReturnsDepths.of_inner`); hence all of them are, at every level of
nesting (`returnsDepths`), and no tree of a text is too deep (`Expr.depth_le_of_parse`).
-/

namespace Recalc

namespace Parser

/-- The trees that the function parses are as deep as it says, and not too deep. -/
def Measures (parse : List Lexeme → Except SyntaxError (Parsed × List Lexeme)) : Prop :=
  ∀ lexemes parsed rest, parse lexemes = .ok (parsed, rest) → Measured parsed

/-- The functions of a layer, and the one for what is nested in it, return the depths of their
trees. -/
structure ReturnsDepths (stop fuel : Nat)
    (inner : Nat → List Lexeme → Except SyntaxError (Parsed × List Lexeme)) : Prop where
  /-- What is nested in the layer. -/
  nested : ∀ power, Measures (inner power)
  /-- The items of a list. -/
  items : ∀ n lexemes found rest, Parser.items stop inner n lexemes = .ok (found, rest) →
    ∀ item ∈ found, Measured item
  /-- What stands before the members and behind the operators. -/
  primary : Measures (Parser.primary stop inner fuel)
  /-- The members and indices behind a tree. -/
  suffixes : ∀ n base, Measured base → Measures (Parser.suffixes stop inner n base)
  /-- The operators in front. -/
  operand : Measures (Parser.operand stop inner fuel)
  /-- The operators behind a tree. -/
  operators : ∀ power n left, Measured left → Measures (Parser.operators stop inner power n left)
  /-- The whole layer. -/
  layer : ∀ power, Measures (Parser.layer stop inner fuel power)

section Layer

variable {stop fuel : Nat} {inner : Nat → List Lexeme → Except SyntaxError (Parsed × List Lexeme)}
  (hin : ∀ power, Measures (inner power))
include hin

theorem measured_items {n : Nat} {lexemes rest : List Lexeme} {found : List Parsed}
    (h : items stop inner n lexemes = .ok (found, rest)) : ∀ item ∈ found, Measured item := by
  induction n generalizing lexemes found with
  | zero => cases h
  | succ n ih =>
    rcases items_succ_eq_ok h with ⟨offset, rfl, rfl⟩ |
      ⟨item, offset, behind, more, hitem, hmore, rfl⟩ | ⟨item, offset, hitem, rfl⟩
    · exact List.forall_mem_nil _
    · exact List.forall_mem_cons.2 ⟨hin _ _ _ _ hitem, ih hmore⟩
    · simpa using hin _ _ _ _ hitem

theorem measures_primary : Measures (primary stop inner fuel) := by
  intro lexemes parsed rest h
  rcases primary_eq_ok h with ⟨x, offset, rfl, rfl⟩ | ⟨content, offset, rfl, rfl⟩ |
    ⟨word, offset, rfl, rfl⟩ | ⟨offset, behind, offset', rfl, hinside⟩ |
    ⟨offset, behind, found, depth, rfl, hfound, hdepth, rfl⟩
  · exact measured_leaf (depth_ofNumber x)
  · exact measured_leaf (by rw [Expr.depth])
  · exact measured_leaf (depth_ofWord word)
  · exact hin _ _ _ _ hinside
  · have hm := measured_items hin hfound
    obtain ⟨rfl, hle⟩ := deeper_eq_ok hdepth
    refine ⟨?_, hle⟩
    simp only [Expr.depth, foldl_depth fun item hi => (hm item hi).1, Nat.zero_max]

theorem measures_suffixes (n : Nat) {base : Parsed} (hb : Measured base) :
    Measures (suffixes stop inner n base) := by
  intro lexemes parsed rest h
  induction n generalizing base lexemes with
  | zero =>
    cases h
    exact hb
  | succ n ih =>
    rcases suffixes_succ_eq_ok h with ⟨dot, name, offset, behind, longer, rfl, hlonger, hrest⟩ |
      ⟨offset, behind, key, offset', last, depth, rfl, hkey, hdepth, hrest⟩ | ⟨rfl, -, -⟩
    · exact ih (measured_addMember hb hlonger).1 _ hrest
    · obtain ⟨rfl, hle⟩ := deeper_eq_ok hdepth
      refine ih ⟨?_, hle⟩ _ hrest
      rw [Expr.depth, hb.1, (hin _ _ _ _ hkey).1]
    · exact hb

theorem measures_operand : Measures (operand stop inner fuel) := by
  intro lexemes parsed rest h
  rcases operand_eq_ok h with
    ⟨mark, op, offset, behind, inside, depth, hop, rfl, hinside, hdepth, rfl⟩ |
    ⟨base, mid, hbase, hsuffixes⟩
  · obtain ⟨rfl, hle⟩ := deeper_eq_ok hdepth
    exact ⟨by rw [Expr.depth, (hin _ _ _ _ hinside).1], hle⟩
  · exact measures_suffixes hin fuel (measures_primary hin _ _ _ hbase) _ _ _ hsuffixes

theorem measures_operators (power n : Nat) {left : Parsed} (hl : Measured left) :
    Measures (operators stop inner power n left) := by
  intro lexemes parsed rest h
  induction n generalizing left lexemes with
  | zero =>
    cases h
    exact hl
  | succ n ih =>
    rcases operators_succ_eq_ok h with ⟨rfl, -, -⟩ |
      ⟨offset, behind, whenTrue, offset', mid, whenFalse, last, depth, -, rfl, htrue, hfalse,
        hdepth, hrest⟩ |
      ⟨mark, offset, behind, op, right, last, depth, -, -, rfl, hright, hdepth, hrest⟩
    · exact hl
    · obtain ⟨rfl, hle⟩ := deeper_eq_ok hdepth
      refine ih ⟨?_, hle⟩ _ hrest
      rw [Expr.depth, hl.1, (hin _ _ _ _ htrue).1, (hin _ _ _ _ hfalse).1]
    · obtain ⟨rfl, hle⟩ := deeper_eq_ok hdepth
      refine ih ⟨?_, hle⟩ _ hrest
      rw [Expr.depth, hl.1, (hin _ _ _ _ hright).1]

theorem measures_layer (power : Nat) : Measures (layer stop inner fuel power) := by
  intro lexemes parsed rest h
  obtain ⟨⟨left, mid⟩, hleft, hoperators⟩ := bind_eq_ok.1 h
  exact measures_operators hin power fuel (measures_operand hin _ _ _ hleft) _ _ _ hoperators

/-- A layer returns the depths of its trees if what it calls does. -/
theorem ReturnsDepths.of_inner : ReturnsDepths stop fuel inner where
  nested := hin
  items _ _ _ _ h := measured_items hin h
  primary := measures_primary hin
  suffixes n _ hb := measures_suffixes hin n hb
  operand := measures_operand hin
  operators power n _ hl := measures_operators hin power n hl
  layer := measures_layer hin

end Layer

/-- An expression of any power, with any room left, is as deep as the parser says. -/
theorem measures_expression (stop fuel room power : Nat) :
    Measures (expression stop fuel room power) := by
  induction room generalizing power with
  | zero =>
    intro lexemes parsed rest h
    cases h
  | succ room ih => exact measures_layer ih power

/-- Every function returns the depth of its tree, at every level of nesting. -/
theorem returnsDepths (stop fuel room : Nat) :
    ReturnsDepths stop fuel (expression stop fuel room) :=
  .of_inner (measures_expression stop fuel room)

end Parser

/-- The tree of a text is not too deep. -/
theorem Expr.depth_le_of_parse {text : String} {expr : Expr} (h : parse text = .ok expr) :
    expr.depth ≤ maxDepth := by
  obtain ⟨lexemes, -, hparse⟩ := bind_eq_ok.1 h
  rcases Parser.ofLexemes_eq_ok hparse with ⟨-, rfl⟩ | ⟨depth, hparsed⟩
  · decide
  · have hm := Parser.measures_expression _ _ _ _ _ _ _ hparsed
    exact hm.1 ▸ hm.2

end Recalc
