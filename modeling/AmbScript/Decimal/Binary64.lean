/-!
# Doubles as exact numbers

A finite double is a whole number times a power of two. `Binary64.decode` reads that off the bit
pattern, and `Binary64.nearest` goes back: it finds the double nearest to a quotient, of two
equally near ones the one with the even last bit. Rounding is exact here, on natural numbers.
-/

namespace AmbScript

/-- The number `(-1) ^ negative · mantissa · 2 ^ exponent`. -/
structure Binary64 where
  negative : Bool
  mantissa : Nat
  exponent : Int
deriving DecidableEq, Inhabited

namespace Binary64

-- Powers are `Nat.pow` by name: what the notation stands for depends on the algebra at hand.

/-- The exponent of the smallest doubles. -/
def minExponent : Int := -1074

/-- The largest exponent of a double with a full mantissa. -/
def maxExponent : Int := 971

/-- The number that a finite double is; a NaN or an infinity is none. -/
def decode (x : Float) : Option Binary64 :=
  let bits : Nat := x.toBits.toNat
  let negative := bits / Nat.pow 2 63 = 1
  let biased : Nat := bits / Nat.pow 2 52 % Nat.pow 2 11
  let fraction : Nat := bits % Nat.pow 2 52
  if biased = Nat.pow 2 11 - 1 then none
  else if biased = 0 then some ⟨negative, fraction, minExponent⟩
  else some ⟨negative, fraction + Nat.pow 2 52, (biased : Int) - 1075⟩

/-- The double with this sign and these bits below it. -/
def ofFields (negative : Bool) (rest : Nat) : Float :=
  Float.ofBits (UInt64.ofNat (rest + if negative then Nat.pow 2 63 else 0))

/-- The quotient of two numbers, rounded to the nearest whole number; a half goes to the even
neighbour. -/
def roundDiv (num den : Nat) : Nat :=
  let q := num / den
  let r := num % den
  if 2 * r > den || (2 * r == den && q % 2 == 1) then q + 1 else q

/-- `num / den` in units of `2 ^ e`, as a fraction. -/
def scaled (num den : Nat) (e : Int) : Nat × Nat :=
  if e < 0 then (num * Nat.pow 2 e.natAbs, den) else (num, den * Nat.pow 2 e.toNat)

/-- The exponent at which `num / den` has a mantissa of 53 bits, or the smallest one. -/
def exponentFor (num den : Nat) : Int :=
  let guess := (num.log2 : Int) - den.log2 - 52
  let (n, d) := scaled num den guess
  max minExponent (if n / d < Nat.pow 2 52 then guess - 1 else guess)

/-- The bits below the sign of the double nearest to `num / den`. -/
def nearestFields (num den : Nat) : Nat :=
  if num = 0 then 0
  else
    let e := exponentFor num den
    let (n, d) := scaled num den e
    let m := roundDiv n d
    -- A mantissa that rounds up to `2 ^ 53` carries into the exponent field by itself.
    let fields := m + (e - minExponent).toNat * Nat.pow 2 52
    min fields (2047 * Nat.pow 2 52)

/-- The double nearest to `± num / den`. -/
def nearest (negative : Bool) (num den : Nat) : Float :=
  ofFields negative (nearestFields num den)

/-- The double nearest to a number. -/
def toFloat (b : Binary64) : Float :=
  if b.exponent < 0 then nearest b.negative b.mantissa (Nat.pow 2 b.exponent.natAbs)
  else nearest b.negative (b.mantissa * Nat.pow 2 b.exponent.toNat) 1

end Binary64

end AmbScript
