import Recalc.Proofs.Expr.Names

/-!
# Which names of an expression are found by scanning

Scanning finds the chains of a text without parsing it. It passes over keywords, since in the
scripts of a richer language they are no names; the parser takes all of them but four for names. So
a name of an expression is found, whole or by its first members, exactly if it is no keyword
(`Expr.scanned_iff`), and what is read of an entity named by a keyword goes unnoticed
(`Expr.unscanned_this`).
-/

namespace Recalc

namespace Chain

/-- The members of a chain are words, and what is behind them is an end of the tokens. -/
theorem members_spec (tokens : List Token) :
    (∀ name ∈ (members tokens).1, .word name ∈ tokens) ∧ (members tokens).2 <:+ tokens := by
  fun_induction members tokens with
  | case1 name rest names behind he ih =>
    rw [he] at ih
    obtain ⟨hwords, hsuffix⟩ := ih
    refine ⟨List.forall_mem_cons.2 ⟨by simp, fun other ho => ?_⟩, ?_⟩
    · exact List.mem_cons_of_mem _ (List.mem_cons_of_mem _ (hwords other ho))
    · exact (hsuffix.trans (List.suffix_cons _ _)).trans (List.suffix_cons _ _)
  | case2 rest => exact ⟨by simp, List.suffix_refl _⟩

/-- The chain starts with a word of the tokens that is no keyword and goes on with words of
them. -/
def IsOf (tokens : List Token) (chain : String) : Prop :=
  ∃ root names, chain = Path.joinSegments (root :: names) ∧ Token.isKeyword root = false ∧
    ∀ name ∈ root :: names, .word name ∈ tokens

theorem IsOf.mono {rest tokens : List Token} {chain : String} (h : IsOf rest chain)
    (hs : rest <:+ tokens) : IsOf tokens chain := by
  obtain ⟨root, names, he, hk, hwords⟩ := h
  exact ⟨root, names, he, hk, fun name hn => hs.subset (hwords name hn)⟩

/-- Only such chains are found. -/
theorem isOf_of_mem_ofTokens {chain : String} {fuel : Nat} {afterDot : Bool} {tokens : List Token}
    (h : chain ∈ ofTokens fuel afterDot tokens) : IsOf tokens chain := by
  fun_induction ofTokens fuel afterDot tokens with
  | case1 => cases h
  | case2 => cases h
  | case3 fuel afterDot root rest hskip ih => exact (ih h).mono (List.suffix_cons _ _)
  | case4 fuel afterDot root rest hstart names behind he ih =>
    obtain ⟨hwords, hsuffix⟩ := members_spec rest
    rw [he] at hwords hsuffix
    rw [Bool.or_eq_true, not_or, Bool.not_eq_true, Bool.not_eq_true] at hstart
    rcases List.mem_cons.1 h with rfl | h
    · refine ⟨root, names, rfl, hstart.2, List.forall_mem_cons.2 ⟨List.mem_cons_self, ?_⟩⟩
      exact fun name hn => List.mem_cons_of_mem _ (hwords name hn)
    · exact (ih h).mono (hsuffix.trans (List.suffix_cons _ _))
  | case5 fuel afterDot token rest hword ih => exact (ih h).mono (List.suffix_cons _ _)

end Chain

/-- **A name of an expression is found by scanning its text exactly if it is no keyword**: then the
name, or an initial part of it, is a chain of the text. -/
theorem Expr.scanned_iff {text : String} {expr : Expr} (h : parse text = .ok expr) {root : String}
    {members : List String} (hx : (root, members) ∈ expr.names) :
    (∃ parts, parts ≠ [] ∧ parts <+: root :: members ∧
      Path.joinSegments parts ∈ Chain.ofText text) ↔ Token.isKeyword root = false := by
  obtain ⟨hkeys, hchain⟩ := exists_chain_of_parse h _ hx
  constructor
  · rintro ⟨parts, hne, hp, hm⟩
    obtain ⟨lexemes, hlexemes, -⟩ := bind_eq_ok.1 h
    rw [Chain.ofText, Lexer.tokenizeLenient_eq hlexemes] at hm
    obtain ⟨first, names, he, hk, hwords⟩ := Chain.isOf_of_mem_ofTokens hm
    have hnames : Path.Keys (first :: names) := fun name hn =>
      Path.isKey_of_isEntityName (Lexer.isName_of_mem_tokenize hlexemes (hwords name hn))
    obtain rfl := Path.joinSegments_inj (fun s hs => hkeys s (hp.subset hs)) hnames hne
      (List.cons_ne_nil _ _) he
    rwa [← (List.cons_prefix_cons.1 hp).1]
  · intro hk
    obtain ⟨names, hp, hm⟩ := hchain hk
    exact ⟨root :: names, List.cons_ne_nil _ _, List.cons_prefix_cons.2 ⟨rfl, hp⟩, hm⟩

/-- Of a name in parentheses with a member behind them the part inside is found, of a keyword
nothing. -/
theorem Expr.scanned_table :
    ∃ expr, parse "(Table.rows).length + this.count" = .ok expr ∧
      ("Table", ["rows", "length"]) ∈ expr.names ∧ ("this", ["count"]) ∈ expr.names ∧
      (∃ parts, parts ≠ [] ∧ parts <+: ["Table", "rows", "length"] ∧
        Path.joinSegments parts ∈ Chain.ofText "(Table.rows).length + this.count") ∧
      ¬ ∃ parts, parts ≠ [] ∧ parts <+: ["this", "count"] ∧
        Path.joinSegments parts ∈ Chain.ofText "(Table.rows).length + this.count" := by
  have htokens : Lexer.tokenize "(Table.rows).length + this.count" =
      .ok [⟨.punct .lParen, 0⟩, ⟨.word "Table", 1⟩, ⟨.punct .dot, 6⟩, ⟨.word "rows", 7⟩,
        ⟨.punct .rParen, 11⟩, ⟨.punct .dot, 12⟩, ⟨.word "length", 13⟩, ⟨.punct .plus, 20⟩,
        ⟨.word "this", 22⟩, ⟨.punct .dot, 26⟩, ⟨.word "count", 27⟩] := by decide +kernel
  have hparse : parse "(Table.rows).length + this.count" =
      .ok (.binary .add (.path "Table" ["rows", "length"]) (.path "this" ["count"])) := by
    rw [parse, htokens]
    rfl
  refine ⟨_, hparse, List.mem_cons_self, List.mem_cons_of_mem _ List.mem_cons_self, ?_, ?_⟩
  · exact (scanned_iff hparse List.mem_cons_self).2 (by decide +kernel)
  · rw [scanned_iff hparse (List.mem_cons_of_mem _ List.mem_cons_self)]
    decide +kernel

/-- An entity may be named by the keyword `this`, and the parser takes `this.x` for a name, but no
chain is found in it. -/
theorem Expr.unscanned_this : Path.isEntityName "this" = true ∧
    parse "this.x" = .ok (.path "this" ["x"]) ∧ ¬ ∃ parts, parts ≠ [] ∧ parts <+: ["this", "x"] ∧
      Path.joinSegments parts ∈ Chain.ofText "this.x" := by
  have htokens : Lexer.tokenize "this.x" =
      .ok [⟨.word "this", 0⟩, ⟨.punct .dot, 4⟩, ⟨.word "x", 5⟩] := by decide +kernel
  have hparse : parse "this.x" = .ok (.path "this" ["x"]) := by
    rw [parse, htokens]
    rfl
  have hnone : Chain.ofText "this.x" = [] := by decide +kernel
  refine ⟨by decide +kernel, hparse, fun ⟨parts, _, _, hm⟩ => ?_⟩
  rw [hnone] at hm
  cases hm

end Recalc
