import Recalc.Number.Shortest

/-!
# Writing floating-point numbers

A `Style` holds every choice in the written form of a finite number: which exponents are written
positionally, the sign of an exponent, and the way of a tie between two shortest decimals.
-/

namespace Recalc.Number

/-- The choices in the written form of a finite number. -/
structure Style where
  /-- The way of a tie between two shortest decimals. -/
  tie : Tie
  /-- The least power of ten of the leading digit that is written positionally. -/
  least : Int
  /-- The first power of ten of the leading digit that is written with an exponent again. -/
  bound : Int
  /-- Whether a positive exponent has a plus sign. -/
  plus : Bool

/-- The digits of a decimal. -/
def Decimal.text (d : Decimal) : List Char := Nat.toDigits 10 d.digits

/-- A decimal with a point and at least one digit on each side of it. -/
def Decimal.positional (d : Decimal) : List Char :=
  let text := d.text
  let whole := (text.length : Int) + d.exponent
  if 0 ≤ d.exponent then text ++ List.replicate d.exponent.toNat '0' ++ ['.', '0']
  else if 0 < whole then text.take whole.toNat ++ '.' :: text.drop whole.toNat
  else '0' :: '.' :: (List.replicate (-whole).toNat '0' ++ text)

/-- A decimal with one digit before the point, no needless point, and an exponent. -/
def Decimal.scientific (d : Decimal) (plus : Bool) : List Char :=
  let text := d.text
  let power := (text.length : Int) + d.exponent - 1
  let fraction := if text.length ≤ 1 then [] else '.' :: text.drop 1
  let sign := if power < 0 then ['-'] else if plus then ['+'] else []
  text.take 1 ++ fraction ++ 'e' :: (sign ++ Nat.toDigits 10 power.natAbs)

/-- A finite number in the given style. -/
def Style.write (style : Style) (x : Float) : String :=
  let d := shortest style.tie x
  let power := (d.text.length : Int) + d.exponent - 1
  let body :=
    if style.least ≤ power && power < style.bound then d.positional else d.scientific style.plus
  String.ofList (if (parts x).negative then '-' :: body else body)

end Recalc.Number
