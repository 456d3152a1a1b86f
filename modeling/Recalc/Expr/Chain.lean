import Recalc.Expr.Lexer
import Recalc.Path

/-!
# Chains of names

A chain is a word with the words that follow it after dots. The chains of a text are the paths that
its code may read; they are found in the tokens alone, without parsing.
-/

namespace Recalc.Chain

/-- The words that follow after dots, and the tokens behind them. -/
def members : List Token → List String × List Token
  | .punct .dot :: .word name :: rest =>
    let (names, rest) := members rest
    (name :: names, rest)
  | rest => ([], rest)

/-- The chains of a list of tokens, found in at most `fuel` steps. A word after a dot starts no
chain, and neither does a keyword. -/
def ofTokens : Nat → Bool → List Token → List String
  | 0, _, _ => []
  | _, _, [] => []
  | fuel + 1, afterDot, .word name :: rest =>
    if afterDot || Token.isKeyword name then ofTokens fuel false rest
    else
      let (names, rest) := members rest
      Path.joinSegments (name :: names) :: ofTokens fuel false rest
  | fuel + 1, _, token :: rest => ofTokens fuel (token = .punct .dot) rest

/-- The chains of a text, in order. -/
def ofText (text : String) : List String :=
  let tokens := (Lexer.tokenizeLenient text).map (·.token)
  ofTokens tokens.length false tokens

end Recalc.Chain
