/-!
# Finite floating-point numbers as fractions

A finite binary64 number is a sign, a mantissa below 2⁵³ and a power of two. `parts` reads the three
off the bits, and everything exact about floating-point numbers in this library (printing,
remainder, whole numbers) is computed from them with natural numbers.
-/

namespace Recalc.Number

/-- The number (-1)^`negative` · `mantissa` · 2^`exponent`. -/
structure Parts where
  /-- Whether the sign bit is set. -/
  negative : Bool
  /-- The mantissa, with the leading bit that the encoding leaves out. -/
  mantissa : Nat
  /-- The power of two by which the mantissa is scaled. -/
  exponent : Int
  deriving DecidableEq

/-- The parts of a finite number. -/
def parts (x : Float) : Parts :=
  let bits := x.toBits.toNat
  let fraction := bits % Nat.pow 2 52
  let biased := bits / Nat.pow 2 52 % Nat.pow 2 11
  { negative := decide (Nat.pow 2 63 ≤ bits)
    mantissa := if biased = 0 then fraction else Nat.pow 2 52 + fraction
    exponent := (max biased 1 : Nat) - 1075 }

/-- The float with the given parts, for a mantissa below 2⁵³ times a power of two that leaves the
number representable. -/
def ofParts (p : Parts) : Float :=
  if p.mantissa = 0 then
    if p.negative then -0.0 else 0.0
  else
    let exponent := max (p.exponent + p.mantissa.log2 - 52) (-1074)
    let mantissa :=
      if exponent ≤ p.exponent then p.mantissa * Nat.pow 2 (p.exponent - exponent).toNat
      else p.mantissa / Nat.pow 2 (exponent - p.exponent).toNat
    let magnitude :=
      if mantissa < Nat.pow 2 52 then mantissa
      else (exponent + 1074).toNat * Nat.pow 2 52 + mantissa
    Float.ofBits (UInt64.ofNat (magnitude + if p.negative then Nat.pow 2 63 else 0))

/-- The whole number that a finite float is, if it is one. -/
def toInt? (x : Float) : Option Int :=
  let p := parts x
  let magnitude : Option Nat :=
    if 0 ≤ p.exponent then some (p.mantissa * Nat.pow 2 p.exponent.toNat)
    else
      let unit := Nat.pow 2 (-p.exponent).toNat
      if p.mantissa % unit = 0 then some (p.mantissa / unit) else none
  magnitude.map fun n => if p.negative then -(n : Int) else n

end Recalc.Number
