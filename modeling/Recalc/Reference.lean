import Recalc.Collection.Distinct
import Recalc.Expr.Chain
import Recalc.KnownPaths
import Recalc.Template

/-!
# References of a property

The code of a dynamic property is scanned for chains of names, and each chain refers to its longest
known initial part. Chains without a known part refer to nothing.
-/

namespace Recalc.Reference

/-- The pieces of code in the raw value of a dynamic property. -/
def fragments (value : Json) (reading : BindingSyntax) : List String :=
  match value with
  | .string text =>
    match reading with
    | .script => [text]
    | .template => Template.codes text
  | _ => []

/-- The chains of names in the code of a dynamic property, in order. -/
def chains (value : Json) (reading : BindingSyntax) : List String :=
  (fragments value reading).flatMap Chain.ofText

/-- Appends the paths that a dynamic property refers to. -/
def collect (value : Json) (reading : BindingSyntax) (known : KnownPaths) (paths : List String) :
    List String :=
  (chains value reading).foldl (fun paths chain =>
    match known.resolve? chain with
    | some path => appendNew paths path
    | none => paths) paths

end Recalc.Reference
