import Recalc.Number.Style
import Recalc.Number.Reading

/-!
# JSON numbers

A JSON number is a whole number or a finite float, and the two kinds are kept apart: `1` and `1.0`
are different numbers. Whole numbers lie between -2⁶³ and 2⁶⁴ - 1.
-/

namespace Recalc.Json

/-- A JSON number. -/
inductive Number where
  /-- A whole number. -/
  | int (value : Int)
  /-- A finite float. -/
  | float (value : Float) (finite : value.isFinite = true)
  deriving DecidableEq

namespace Number

/-- Numbers are equal if they are of one kind and have one value; the two zeros are one value. -/
def beq : Number → Number → Bool
  | .int a, .int b => a == b
  | .float a _, .float b _ => a == b
  | _, _ => false

instance : BEq Number := ⟨beq⟩

/-- The float nearest to the number. -/
def toFloat : Number → Float
  | .int value => Float.ofInt value
  | .float value _ => value

/-- Floats are written positionally from 10⁻⁵ up to 10¹⁶, always with a fraction, and with an
exponent that shows its sign elsewhere. -/
def style : Recalc.Number.Style := ⟨.toEven, -5, 16, true⟩

/-- The text of a number. -/
def render : Number → String
  | .int value => toString value
  | .float value _ => style.write value

/-- The least magnitude from which not every whole number is a float. -/
def safeBound : Nat := Nat.pow 2 53

/-- The number that a computed float becomes: a whole number if it is one of safe magnitude, itself
if it is another finite float, and nothing if it is not finite. -/
def ofFloat? (x : Float) : Option Number :=
  if h : x.isFinite = true then
    match Recalc.Number.toInt? x with
    | some value => some (if value.natAbs < safeBound then .int value else .float x h)
    | none => some (.float x h)
  else none

/-- The number that a finite float is as it stands. -/
def ofFiniteFloat? (x : Float) : Option Number :=
  if h : x.isFinite = true then some (.float x h) else none

/-- The number written without point and exponent: a whole number if it is in range, and a float
otherwise. Minus zero is a float. -/
def ofDigits? (negative : Bool) (magnitude : Nat) : Option Number :=
  if !negative && magnitude < Nat.pow 2 64 then some (.int magnitude)
  else if negative && 0 < magnitude && magnitude ≤ Nat.pow 2 63 then
    some (.int (-(magnitude : Int)))
  else ofFiniteFloat? (Recalc.Number.ofDecimal negative magnitude 0)

end Number

end Recalc.Json
