/-!
# Ranges of code points

A character property is tabulated as a list of inclusive ranges of code points.
-/

namespace Recalc.Text

/-- Whether the code point of `c` lies in one of the inclusive ranges. -/
def inRanges (ranges : List (Nat × Nat)) (c : Char) : Bool :=
  ranges.any fun r => decide (r.1 ≤ c.toNat) && decide (c.toNat ≤ r.2)

end Recalc.Text
