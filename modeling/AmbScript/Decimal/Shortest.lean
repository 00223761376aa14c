import AmbScript.Decimal.Binary64

/-!
# Shortest decimals

The fewest decimal digits that read back as a given double, and of those the nearest to it. Two
candidates with as few digits are the neighbours of the double on a decimal grid; where both are
equally near the larger one is taken.
-/

namespace AmbScript.Decimal

/-- The number `digits · 10 ^ exponent`. -/
structure Scaled where
  digits : Nat
  exponent : Int
deriving DecidableEq, Inhabited

/-- A positive number and the interval of the reals that round to it, over one denominator. -/
structure Interval where
  value : Nat
  low : Nat
  high : Nat
  den : Nat
  /-- Whether the ends round to the number too. -/
  closed : Bool

/-- The reals that round to a positive double. Below a power of two the doubles lie twice as
dense. -/
def Interval.ofBinary64 (b : Binary64) : Interval :=
  let m := b.mantissa
  let low := if m = Nat.pow 2 52 ∧ b.exponent ≠ Binary64.minExponent then 4 * m - 1 else 4 * m - 2
  let unit := b.exponent - 2
  let up := if unit < 0 then 1 else Nat.pow 2 unit.toNat
  let den := if unit < 0 then Nat.pow 2 unit.natAbs else 1
  ⟨4 * m * up, low * up, (4 * m + 2) * up, den, m % 2 == 0⟩

/-- How often `num / den` has to be multiplied by ten to reach one. -/
def tensBelow : Nat → Nat → Nat → Nat
  | 0, _, _ => 0
  | fuel + 1, num, den => if num ≥ den then 0 else tensBelow fuel (10 * num) den + 1

/-- The least `p` with `num / den < 10 ^ p`. -/
def magnitude (num den : Nat) : Int :=
  if num ≥ den then (Nat.toDigits 10 (num / den)).length
  else 1 - (tensBelow 400 num den : Int)

/-- The neighbour of the value on the grid of the multiples of `10 ^ k` that rounds to it, if
there is one; of two the nearer. -/
def Interval.onGrid (i : Interval) (k : Int) : Option Nat :=
  let up := if k < 0 then Nat.pow 10 k.natAbs else 1
  let step := if k < 0 then i.den else i.den * Nat.pow 10 k.toNat
  let value := i.value * up
  let below := value / step
  let above := below + 1
  let fitsBelow := if i.closed then i.low * up ≤ below * step else i.low * up < below * step
  let fitsAbove := if i.closed then above * step ≤ i.high * up else above * step < i.high * up
  if fitsBelow ∧ fitsAbove then
    some (if value - below * step < above * step - value then below else above)
  else if fitsBelow then some below
  else if fitsAbove then some above
  else none

/-- The same number without zeros at the end of its digits. -/
def stripZeros : Nat → Scaled → Scaled
  | 0, s => s
  | fuel + 1, s =>
    if s.digits % 10 = 0 ∧ s.digits ≠ 0 then stripZeros fuel ⟨s.digits / 10, s.exponent + 1⟩
    else s

/-- The first grid from `magnitude - n` digits on that holds a neighbour of the value. -/
def Interval.firstGrid (i : Interval) (p : Int) : Nat → Nat → Scaled
  | 0, _ => ⟨0, 0⟩
  | fuel + 1, n =>
    match i.onGrid (p - n) with
    | some d => stripZeros 20 ⟨d, p - n⟩
    | none => i.firstGrid p fuel (n + 1)

/-- The shortest decimal of a positive double; seventeen digits are always enough. -/
def shortest (b : Binary64) : Scaled :=
  let i := Interval.ofBinary64 b
  i.firstGrid (magnitude i.value i.den) 18 1

end AmbScript.Decimal
