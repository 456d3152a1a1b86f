import Recalc.Number.Parts

/-!
# The remainder of a floating-point division

`remainder x y` is x − n·y for the whole number n next to x/y on the side of zero. For finite
operands it is computed exactly: both are whole multiples of one power of two, and the remainder of
the multiples is the multiple of the remainder.
-/

namespace Recalc.Number

/-- The remainder of finite numbers, of which the second is not zero; it has the sign of the
first. -/
def finiteRemainder (x y : Float) : Float :=
  let p := parts x
  let q := parts y
  let exponent := min p.exponent q.exponent
  let a := p.mantissa * Nat.pow 2 (p.exponent - exponent).toNat
  let b := q.mantissa * Nat.pow 2 (q.exponent - exponent).toNat
  ofParts ⟨p.negative, a % b, exponent⟩

/-- The remainder of a division toward zero. There is none of an infinite dividend or a zero
divisor, and a finite dividend is its own remainder by an infinite divisor. -/
def remainder (x y : Float) : Float :=
  if x.isNaN || y.isNaN || x.isInf || y == 0.0 then 0.0 / 0.0
  else if y.isInf then x
  else finiteRemainder x y

end Recalc.Number
