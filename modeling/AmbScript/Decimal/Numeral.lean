import AmbScript.Decimal.Binary64

/-!
# Reading decimal numerals

The double nearest to `mantissa · 10 ^ exponent`. Exponents far outside the range of the doubles
are answered without raising ten to them.
-/

namespace AmbScript.Decimal

/-- The value of a digit. -/
def digitValue (c : Char) : Nat := c.toNat - '0'.toNat

/-- The number that a row of digits writes. -/
def ofDigits (cs : List Char) : Nat :=
  cs.foldl (fun n c => 10 * n + digitValue c) 0

/-- Powers of ten beyond this one exceed every double, and their inverses are below every one. -/
def farExponent : Nat := 400

/-- The double nearest to `mantissa · 10 ^ exponent`. -/
def toFloat (mantissa : Nat) (exponent : Int) : Float :=
  if mantissa = 0 then Binary64.ofFields false 0
  else if exponent ≥ 0 then
    if exponent > farExponent then Binary64.ofFields false (2047 * Nat.pow 2 52)
    else Binary64.nearest false (mantissa * Nat.pow 10 exponent.toNat) 1
  else if exponent + mantissa.log2 + farExponent < 0 then Binary64.ofFields false 0
  else Binary64.nearest false mantissa (Nat.pow 10 exponent.natAbs)

/-- The parts of a numeral: digits before and after the point, and the exponent. -/
structure Numeral where
  whole : List Char
  fraction : List Char
  exponent : Int
deriving DecidableEq, Inhabited

namespace Numeral

/-- All digits, as one number. -/
def mantissa (n : Numeral) : Nat := ofDigits (n.whole ++ n.fraction)

/-- The power of ten that `mantissa` is multiplied with. -/
def scale (n : Numeral) : Int := n.exponent - n.fraction.length

/-- The double nearest to the numeral. -/
def toFloat (n : Numeral) : Float := Decimal.toFloat n.mantissa n.scale

end Numeral

end AmbScript.Decimal
