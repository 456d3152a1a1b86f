import Recalc.Number.Parts

/-!
# The fewest decimal digits that read back

The reals that round to a given float form an interval around it, ends included exactly if the
mantissa is even. On the grid of decimals with n digits the two neighbours of the float are tested
for n = 1, 2, …; the first grid on which one of them lies in the interval gives the digits. If both
do, the nearer one is taken, and an exact tie goes as `Tie` says.

All arithmetic is exact, on natural numbers: the float, the ends of the interval and the grid points
are fractions over one denominator.
-/

namespace Recalc.Number

/-- The decimal `digits` · 10^`exponent`. -/
structure Decimal where
  /-- The digits, as a whole number. -/
  digits : Nat
  /-- The power of ten by which they are scaled. -/
  exponent : Int
  deriving DecidableEq

/-- Where the midpoint between two decimals goes. -/
inductive Tie where
  /-- To the one with the even last digit. -/
  | toEven
  /-- To the larger one. -/
  | up
  deriving DecidableEq

/-- A float between the ends of its rounding interval, as fractions `low`, `value`, `high` over
`denominator`. -/
structure Interval where
  /-- Numerator of the lower end. -/
  low : Nat
  /-- Numerator of the float. -/
  value : Nat
  /-- Numerator of the upper end. -/
  high : Nat
  /-- The common denominator. -/
  denominator : Nat
  /-- Whether the ends round to the float too. -/
  closed : Bool

/-- The rounding interval of a float that is not zero, without its sign. Below a power of two the
neighbours are half as far apart. -/
def interval (p : Parts) : Interval :=
  let gap := if p.mantissa = Nat.pow 2 52 && decide (-1074 < p.exponent) then 1 else 2
  let scale := Nat.pow 2 (p.exponent - 2).toNat
  { low := (4 * p.mantissa - gap) * scale
    value := 4 * p.mantissa * scale
    high := (4 * p.mantissa + 2) * scale
    denominator := Nat.pow 2 (2 - p.exponent).toNat
    closed := p.mantissa % 2 = 0 }

/-- The number of decimal digits. -/
def digitCount (n : Nat) : Nat := if n = 0 then 0 else (Nat.toDigits 10 n).length

/-- The exponent e with 10^(e-1) ≤ `numerator` / `denominator` < 10^e. -/
def decimalExponent (numerator denominator : Nat) : Int :=
  if denominator ≤ numerator then digitCount (numerator / denominator)
  else 1 - (digitCount ((denominator + numerator - 1) / numerator - 1) : Int)

/-- The decimal with `count` digits that reads back as the float, if there is one. -/
def Interval.onGrid (i : Interval) (tie : Tie) (exponent : Int) (count : Nat) : Option Decimal :=
  let shift := (count : Int) - exponent
  let up := Nat.pow 10 shift.toNat
  let unit := i.denominator * Nat.pow 10 (-shift).toNat
  let reads (candidate : Nat) : Bool :=
    let point := candidate * unit
    if i.closed then i.low * up ≤ point && point ≤ i.high * up
    else i.low * up < point && point < i.high * up
  let below := i.value * up / unit
  let rest := i.value * up % unit
  let nearest :=
    if 2 * rest < unit then below
    else if unit < 2 * rest then below + 1
    else match tie with
      | .toEven => below + below % 2
      | .up => below + 1
  let candidates := [nearest, below, below + 1]
  (candidates.find? reads).map fun digits => ⟨digits, -shift⟩

/-- Moves trailing zeros from the digits into the exponent. -/
def Decimal.strip : Nat → Decimal → Decimal
  | 0, d => d
  | fuel + 1, d =>
    if d.digits ≠ 0 && d.digits % 10 = 0 then strip fuel ⟨d.digits / 10, d.exponent + 1⟩ else d

/-- The decimal with the fewest digits that reads back as the finite float `x`, without its sign.
Seventeen digits are always enough. -/
def shortest (tie : Tie) (x : Float) : Decimal :=
  let p := parts x
  if p.mantissa = 0 then ⟨0, 0⟩
  else
    let i := interval p
    let exponent := decimalExponent i.value i.denominator
    match (List.range 17).findSome? fun n => i.onGrid tie exponent (n + 1) with
    | some d => d.strip 17
    | none => ⟨0, 0⟩

end Recalc.Number
