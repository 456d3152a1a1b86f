import Recalc.Expr.Parser

/-!
# Parsing with a counter of open calls

`Parser.expression` is told how many expressions it may nest. One can also keep a counter of the
calls that are open: a call at the bound is refused, any other call raises the counter, parses its
layer, and lowers the counter again whether the layer was parsed or not. The parser of this module
does so. Beside the counter it keeps a log of its calls, from which one can tell how many of them
were open at any moment without believing the counter.
-/

namespace Recalc.Parser

/-- What can happen to a call of the parser of expressions. -/
inductive CallEvent where
  /-- It passes the check of the counter, and is open from now on. -/
  | opened
  /-- It returns a tree or an error, and is open no more. -/
  | closed
  /-- It fails at the check of the counter, and is never open. -/
  | refused
  deriving DecidableEq

/-- The state of the parser: the counter, and what happened to its calls so far. -/
structure Nesting where
  /-- The counter of open calls. -/
  count : Nat
  /-- What happened to calls, in order. -/
  log : List CallEvent
  deriving DecidableEq

/-- A parse that keeps the state, also when it fails. -/
abbrev Counted (α : Type) := ExceptT SyntaxError (StateM Nesting) α

namespace Counted

/-- The end of a call: the counter is lowered, whatever came of the layer. -/
def close {α : Type} (result : Except SyntaxError α × Nesting) : Except SyntaxError α × Nesting :=
  (result.1, ⟨result.2.count - 1, result.2.log ++ [.closed]⟩)

/-- A call of the parser of expressions at an offset, with the layer that it parses. -/
def call {α : Type} (offset : Nat) (layer : Counted α) : Counted α := ExceptT.mk fun s =>
  if s.count = maxDepth then (fail .tooDeep offset, { s with log := s.log ++ [.refused] })
  else close (layer.run.run ⟨s.count + 1, s.log ++ [.opened]⟩)

theorem run_call_of_eq {α : Type} (offset : Nat) (layer : Counted α) {s : Nesting}
    (h : s.count = maxDepth) : (call offset layer).run.run s =
      (fail .tooDeep offset, { s with log := s.log ++ [.refused] }) := if_pos h

theorem run_call_of_ne {α : Type} (offset : Nat) (layer : Counted α) {s : Nesting}
    (h : s.count ≠ maxDepth) : (call offset layer).run.run s =
      close (layer.run.run ⟨s.count + 1, s.log ++ [.opened]⟩) := if_neg h

/-- A call that is opened and not closed. -/
def abandon {α : Type} (offset : Nat) : Counted α := ExceptT.mk fun s =>
  (fail .tooDeep offset, ⟨s.count + 1, s.log ++ [.opened]⟩)

/-- An expression whose operators have at least the given power. The number of rounds bounds the
recursion: a call without a round left is abandoned. -/
def expression (stop fuel : Nat) : Nat → Nat → List Lexeme → Counted (Parsed × List Lexeme)
  | 0, _, lexemes => abandon (offsetOf stop lexemes)
  | rounds + 1, power, lexemes =>
    call (offsetOf stop lexemes) (layer stop (expression stop fuel rounds) fuel power lexemes)

/-- The expression that a list of lexemes spells. The rounds are one more than the calls that can be
open, so that a refused call has one too. -/
def ofLexemes (stop : Nat) (lexemes : List Lexeme) : Counted Expr :=
  Body.ofLexemes (expression stop (lexemes.length + 1) (maxDepth + 1) 0) lexemes

/-- The expression that a text spells. -/
def parse (text : String) : Counted Expr := do
  let lexemes ← Lexer.tokenize text
  ofLexemes (Lexer.byteSize text.toList) lexemes

end Counted

end Recalc.Parser
