import AmbScript.Decimal.Binary64

/-!
# Remainders of doubles

The remainder of a division whose quotient is cut to a whole number. It is exact and has the sign
of the dividend.
-/

namespace AmbScript.Binary64

/-- The mantissa at a smaller or equal exponent. -/
def mantissaAt (b : Binary64) (e : Int) : Nat := b.mantissa * Nat.pow 2 (b.exponent - e).toNat

/-- The remainder of two numbers, the second not zero. -/
def remainder (a b : Binary64) : Binary64 :=
  let e := min a.exponent b.exponent
  ⟨a.negative, a.mantissaAt e % b.mantissaAt e, e⟩

/-- The remainder of two doubles. There is none by zero, nor of an infinity; by an infinity it is
the dividend. -/
def floatRemainder (x y : Float) : Float :=
  let nan := ofFields false (2047 * Nat.pow 2 52 + Nat.pow 2 51)
  match decode x, decode y with
  | some a, some b => if b.mantissa = 0 then nan else (remainder a b).toFloat
  | some _, none => if y.isNaN then nan else x
  | none, _ => nan

end AmbScript.Binary64
