import AmbScript.Decimal.Shortest

/-!
# Decimal texts of doubles

Doubles are written in positional notation only, never with an exponent. What else an output may
choose is a `Style`.
-/

namespace AmbScript.Decimal

/-- The choices of an output that writes doubles. -/
structure Style where
  infinity : String
  nan : String
  /-- Write the sign of a negative zero. -/
  signedZero : Bool
  /-- Write every digit of a whole number, not just the shortest ones and zeros. -/
  exactWholes : Bool

/-- A row of zeros. -/
def zeros (n : Nat) : String := String.ofList (List.replicate n '0')

/-- `digits · 10 ^ exponent` in positional notation. -/
def positional (s : Scaled) : String :=
  let digits := toString s.digits
  if s.exponent ≥ 0 then digits ++ zeros s.exponent.toNat
  else
    let places := s.exponent.natAbs
    if digits.length ≤ places then "0." ++ zeros (places - digits.length) ++ digits
    else
      let cut := digits.length - places
      String.ofList (digits.toList.take cut) ++ "." ++ String.ofList (digits.toList.drop cut)

/-- The whole number that a double is, if it is one. -/
def whole? (b : Binary64) : Option Nat :=
  if b.exponent ≥ 0 then some (b.mantissa * Nat.pow 2 b.exponent.toNat)
  else if b.mantissa % Nat.pow 2 b.exponent.natAbs = 0 then some (b.mantissa / Nat.pow 2 b.exponent.natAbs)
  else none

/-- The text of a double without its sign. -/
def magnitudeText (style : Style) (b : Binary64) : String :=
  if b.mantissa = 0 then "0"
  else
    match whole? b with
    | some n => if style.exactWholes then toString n else positional (shortest b)
    | none => positional (shortest b)

/-- The text of a double. -/
def text (style : Style) (x : Float) : String :=
  match Binary64.decode x with
  | none =>
    if x.isNaN then style.nan
    else if x < 0 then "-" ++ style.infinity
    else style.infinity
  | some b =>
    let signed := b.negative && (style.signedZero || b.mantissa != 0)
    (if signed then "-" else "") ++ magnitudeText style b

end AmbScript.Decimal
