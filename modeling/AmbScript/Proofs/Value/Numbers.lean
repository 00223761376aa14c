import AmbScript.Value.Equality

/-!
# Numbers that are equal

Numbers are compared by the value that they stand for: a NaN stands for none, the two zeros for the
same one, and any other two numbers are equal only if all their bits are.

* `Binary64.beq_iff` — when two numbers are equal.
* `Binary64.isNaN_iff` — the bits of a NaN.

The comparison of the language is defined on what the bits stand for. `Stands` says what that is in
terms of the three fields, so that two numbers which stand for the same can be shown to have the
same fields, and hence the same bits.
-/

namespace AmbScript.Binary64

open Float.Model UnpackedFloat

-- ---------------------------------------------------------------------------
-- Fields
-- ---------------------------------------------------------------------------

/-- The sign bit. -/
def signBit (x : Float) : Nat := x.toBits.toNat / Nat.pow 2 63

/-- The bits of the exponent. -/
def exponentBits (x : Float) : Nat := x.toBits.toNat / Nat.pow 2 52 % Nat.pow 2 11

/-- The bits of the fraction. -/
def fractionBits (x : Float) : Nat := x.toBits.toNat % Nat.pow 2 52

/-- One of the two zeros. -/
def IsZero (x : Float) : Prop := exponentBits x = 0 ∧ fractionBits x = 0

/-- The sign bit, with the power written out for `omega`. -/
theorem signBit_eq_div (x : Float) : signBit x = x.toBits.toNat / 0x8000000000000000 := rfl

theorem exponentBits_eq_mod (x : Float) :
    exponentBits x = x.toBits.toNat / 0x10000000000000 % 0x800 := rfl

theorem fractionBits_eq_mod (x : Float) :
    fractionBits x = x.toBits.toNat % 0x10000000000000 := rfl

/-- Bits are equal if all fields are. -/
theorem bits_eq_iff {x y : Float} : x.toBits = y.toBits ↔
    signBit x = signBit y ∧ exponentBits x = exponentBits y ∧ fractionBits x = fractionBits y := by
  refine ⟨fun h => by simp only [signBit, exponentBits, fractionBits, h, and_self], ?_⟩
  rintro ⟨hSign, hExponent, hFraction⟩
  rw [signBit_eq_div, signBit_eq_div] at hSign
  rw [exponentBits_eq_mod, exponentBits_eq_mod] at hExponent
  rw [fractionBits_eq_mod, fractionBits_eq_mod] at hFraction
  exact UInt64.toNat_inj.mp (by omega)

/-- The bits of a number, as they are taken apart. -/
def bitVec (x : Float) : BitVec Format.binary64.numBits := x.toBits.toBitVec

/-- The first bit that is taken out is the sign bit. -/
theorem toNat_unpackSign (x : Float) : (unpackSign (bitVec x)).toNat = signBit x := by
  have hLess : x.toBits.toNat < 2 ^ 64 := x.toBits.toNat_lt
  have hSign : (unpackSign (bitVec x)).toNat = x.toBits.toNat >>> 63 % 2 ^ 1 := by
    rfl
  rw [hSign, Nat.shiftRight_eq_div_pow, signBit_eq_div]
  omega

/-- The next eleven are those of the exponent. -/
theorem toNat_unpackExponent (x : Float) :
    (unpackExponent (bitVec x)).toNat = exponentBits x := by
  simp [unpackExponent, bitVec, exponentBits, Nat.shiftRight_eq_div_pow]

/-- The last fifty-two are those of the fraction. -/
theorem toNat_unpackMantissa (x : Float) :
    (unpackMantissa (bitVec x)).toNat = fractionBits x := by
  simp [unpackMantissa, bitVec, fractionBits]

/-- The sign of a number. -/
def sign (x : Float) : Sign := Sign.ofBitVec (unpackSign (bitVec x))

/-- The sign tells the sign bit. -/
theorem signBit_eq {x y : Float} (h : sign x = sign y) : signBit x = signBit y := by
  rw [← toNat_unpackSign, ← toNat_unpackSign]
  have hOneBit (b : BitVec 1) : b = 0#1 ∨ b = 1#1 := by
    revert b
    decide
  unfold sign at h
  rcases hOneBit (unpackSign (bitVec x)) with hx | hx <;>
    rcases hOneBit (unpackSign (bitVec y)) with hy | hy <;> rw [hx, hy] at h ⊢ <;> cases h

-- ---------------------------------------------------------------------------
-- Values
-- ---------------------------------------------------------------------------

/-- What the fields of a number say that it stands for. -/
inductive Stands (x : Float) : UnpackedFloat → Prop
  | notANumber (hExponent : exponentBits x = 2047) (hFraction : fractionBits x ≠ 0) :
      Stands x .notANumber
  | infinity (hExponent : exponentBits x = 2047) (hFraction : fractionBits x = 0) :
      Stands x (.infinity (sign x))
  | zero (h : IsZero x) : Stands x (.zero (sign x))
  | subnormal (m : Nat) (e : Int) (hPos : 0 < m) (hExponent : exponentBits x = 0)
      (hLeast : e = -1074) (hFraction : m = fractionBits x) :
      Stands x (.finite (sign x) m e hPos)
  | normal (m : Nat) (e : Int) (hPos : 0 < m) (hNormal : exponentBits x ≠ 0)
      (hFinite : exponentBits x ≠ 2047) (hExponent : e = exponentBits x - 1075)
      (hFraction : m = Nat.pow 2 52 + fractionBits x) : Stands x (.finite (sign x) m e hPos)

/-- What the fields say is what the number is unpacked to: an exponent of ones is for infinities and
NaNs, an exponent of zeros for zeros and subnormal numbers. -/
theorem stands_unpack (x : Float) : Stands x x.toModel.unpack := by
  -- the fields as bit vectors and as numbers
  have hOnes : unpackExponent (bitVec x) = -1#11 ↔ exponentBits x = 2047 := by
    rw [← toNat_unpackExponent, BitVec.toNat_eq]
    rfl
  have hNone : unpackExponent (bitVec x) = 0#11 ↔ exponentBits x = 0 := by
    rw [← toNat_unpackExponent, BitVec.toNat_eq]
    rfl
  have hWhole : unpackMantissa (bitVec x) = 0#52 ↔ fractionBits x = 0 := by
    rw [← toNat_unpackMantissa, BitVec.toNat_eq]
    rfl
  have hLeading : (1#1 ++ unpackMantissa (bitVec x)).toNat = Nat.pow 2 52 + fractionBits x := by
    rw [← toNat_unpackMantissa, BitVec.toNat_append,
      ← Nat.shiftLeft_add_eq_or_of_lt (unpackMantissa (bitVec x)).isLt]
    rfl
  show Stands x (UnpackedFloat.unpack Format.binary64 (bitVec x))
  unfold UnpackedFloat.unpack
  dsimp only
  refine iteInduction (fun hExponent => iteInduction (fun hFraction => ?_) fun hFraction => ?_)
    fun hFinite => iteInduction (fun hExponent => ?_) fun hExponent => ?_
  · exact .infinity (hOnes.mp hExponent) (hWhole.mp hFraction)
  · exact .notANumber (hOnes.mp hExponent) (mt hWhole.mpr hFraction)
  · by_cases hFraction : fractionBits x = 0
    · refine (congrArg (Stands x) (dif_pos (hWhole.mpr hFraction))).mpr ?_
      exact .zero ⟨hNone.mp hExponent, hFraction⟩
    · refine (congrArg (Stands x) (dif_neg (mt hWhole.mp hFraction))).mpr ?_
      refine .subnormal _ _ _ (hNone.mp hExponent) ?_ (toNat_unpackMantissa x)
      rw [toNat_unpackExponent, hNone.mp hExponent]
      rfl
  · refine .normal _ _ _ (mt hNone.mpr hExponent) (mt hOnes.mpr hFinite) ?_ hLeading
    rw [toNat_unpackExponent]
    rfl

/-- A fraction has fifty-two bits. -/
theorem fractionBits_lt (x : Float) : fractionBits x < Nat.pow 2 52 := Nat.mod_lt _ (by decide)

/-- Only a NaN stands for no number. -/
theorem isNaN_iff {x : Float} : x.isNaN = true ↔ exponentBits x = 2047 ∧ fractionBits x ≠ 0 := by
  show x.toModel.unpack.isNaN = true ↔ _
  have hStands := stands_unpack x
  generalize x.toModel.unpack = u at hStands
  cases hStands with
  | notANumber hExponent hFraction => exact iff_of_true rfl ⟨hExponent, hFraction⟩
  | infinity hExponent hFraction => exact iff_of_false Bool.false_ne_true fun h => h.2 hFraction
  | zero h => exact iff_of_false Bool.false_ne_true fun h' => h'.2 h.2
  | subnormal m e hPos hExponent hLeast hFraction =>
    exact iff_of_false Bool.false_ne_true fun h => by omega
  | normal m e hPos hNormal hFinite hExponent hFraction =>
    exact iff_of_false Bool.false_ne_true fun h => hFinite h.1

/-- Two things that numbers stand for are equal if they are the same, or both zeros. -/
theorem compare_eq_iff (u v : UnpackedFloat) : u.compare v = some .eq ↔
    (u ≠ .notANumber ∧ u = v) ∨ ∃ s t, u = .zero s ∧ v = .zero t := by
  -- Of two finite numbers with one sign the exponents are compared first, then the mantissas.
  have hEqual {e e' : Int} {m m' : Nat} :
      (compare e e').then (compare m m') = .eq ↔ e = e' ∧ m = m' := by
    rw [Ordering.then_eq_eq, Std.compare_eq_iff_eq, Std.compare_eq_iff_eq]
  constructor
  · intro h
    cases u with
    | notANumber => cases h
    | infinity s =>
      cases v with
      | infinity t => cases s <;> cases t <;> first | exact .inl ⟨nofun, rfl⟩ | cases h
      | _ => cases s <;> cases h
    | zero s =>
      cases v with
      | zero t => exact .inr ⟨s, t, rfl, rfl⟩
      | notANumber => cases h
      | infinity t | finite t m e hPos => cases t <;> cases h
    | finite s m e hPos =>
      cases v with
      | finite t m' e' hPos' =>
        cases s <;> cases t
        · obtain ⟨rfl, rfl⟩ := hEqual.mp (Ordering.swap_eq_eq.mp (Option.some.inj h))
          exact .inl ⟨nofun, rfl⟩
        · cases h
        · cases h
        · obtain ⟨rfl, rfl⟩ := hEqual.mp (Option.some.inj h)
          exact .inl ⟨nofun, rfl⟩
      | infinity t => cases s <;> cases t <;> cases h
      | _ => cases s <;> cases h
  · rintro (⟨hNumber, rfl⟩ | ⟨s, t, rfl, rfl⟩)
    · cases u with
      | notANumber => exact absurd rfl hNumber
      | infinity s => cases s <;> rfl
      | zero s => rfl
      | finite s m e hPos =>
        cases s
        · exact congrArg some (Ordering.swap_eq_eq.mpr (hEqual.mpr ⟨rfl, rfl⟩))
        · exact congrArg some (hEqual.mpr ⟨rfl, rfl⟩)
    · rfl

/-- All but the NaNs stand for a number. -/
theorem isNaN_eq_false_iff {x : Float} : x.isNaN = false ↔ x.toModel.unpack ≠ .notANumber := by
  show x.toModel.unpack.isNaN = false ↔ _
  cases x.toModel.unpack with
  | notANumber => exact iff_of_false Bool.noConfusion fun h => h rfl
  | _ => exact iff_of_true rfl nofun

/-- What a number stands for tells its bits. -/
theorem bits_eq_of_unpack {x y : Float} (hNaN : x.isNaN = false)
    (h : x.toModel.unpack = y.toModel.unpack) : x.toBits = y.toBits := by
  have hx := stands_unpack x
  have hy := stands_unpack y
  have hNumber := isNaN_eq_false_iff.mp hNaN
  rw [← h] at hy
  -- now both numbers stand for the same `u`, and its form tells the fields of each
  generalize x.toModel.unpack = u at hx hy hNumber
  have hLess := fractionBits_lt x
  have hLess' := fractionBits_lt y
  rw [bits_eq_iff]
  cases hx with
  | notANumber hExponent hFraction => exact absurd rfl hNumber
  | infinity hExponent hFraction =>
    generalize hSign : sign x = s at hy
    cases hy with
    | infinity hExponent' hFraction' => exact ⟨signBit_eq hSign, by omega, by omega⟩
  | zero hZero =>
    generalize hSign : sign x = s at hy
    cases hy with
    | zero hZero' =>
      exact ⟨signBit_eq hSign, hZero.1.trans hZero'.1.symm, hZero.2.trans hZero'.2.symm⟩
  | subnormal m e hPos hExponent hLeast hFraction =>
    generalize hSign : sign x = s at hy
    cases hy with
    | subnormal _ _ _ hExponent' hLeast' hFraction' => exact ⟨signBit_eq hSign, by omega, by omega⟩
    | normal _ _ _ hNormal' hFinite' hExponent' hFraction' => omega
  | normal m e hPos hNormal hFinite hExponent hFraction =>
    generalize hSign : sign x = s at hy
    cases hy with
    | subnormal _ _ _ hExponent' hLeast' hFraction' => omega
    | normal _ _ _ hNormal' hFinite' hExponent' hFraction' =>
      exact ⟨signBit_eq hSign, by omega, by omega⟩

/-- The zeros stand for a zero of either sign. -/
theorem isZero_iff {x : Float} : IsZero x ↔ ∃ s, x.toModel.unpack = .zero s := by
  have hStands := stands_unpack x
  generalize x.toModel.unpack = u at hStands
  refine ⟨fun h => ?_, fun ⟨s, hu⟩ => ?_⟩
  · cases hStands with
    | zero h => exact ⟨_, rfl⟩
    | notANumber hExponent hFraction => exact absurd h.2 hFraction
    | infinity hExponent hFraction => exact absurd (h.1.symm.trans hExponent) (by decide)
    | subnormal m e hPos hExponent hLeast hFraction =>
      exact absurd (hFraction.trans h.2) (Nat.ne_of_gt hPos)
    | normal m e hPos hNormal hFinite hExponent hFraction => exact absurd h.1 hNormal
  · cases hu
    generalize hSign : sign x = t at hStands
    cases hStands with
    | zero h => exact h

/-- Numbers are equal if none is a NaN and their bits are the same, or if both are zeros. -/
theorem beq_iff {x y : Float} : (x == y) = true ↔
    x.isNaN = false ∧ y.isNaN = false ∧ (x.toBits = y.toBits ∨ IsZero x ∧ IsZero y) := by
  show (x.toModel.unpack.compare y.toModel.unpack == some .eq) = true ↔ _
  rw [beq_iff_eq, compare_eq_iff, ← isNaN_eq_false_iff, isZero_iff, isZero_iff]
  constructor
  -- the same number, or two zeros of whatever sign
  · rintro (⟨hx, h⟩ | ⟨s, t, hs, ht⟩)
    · have hy : y.isNaN = false := by
        rw [isNaN_eq_false_iff, ← h, ← isNaN_eq_false_iff]
        exact hx
      exact ⟨hx, hy, .inl (bits_eq_of_unpack hx h)⟩
    · refine ⟨isNaN_eq_false_iff.mpr ?_, isNaN_eq_false_iff.mpr ?_, .inr ⟨⟨s, hs⟩, ⟨t, ht⟩⟩⟩
      · rw [hs]; exact nofun
      · rw [ht]; exact nofun
  · rintro ⟨hx, -, hBits | ⟨⟨s, hs⟩, ⟨t, ht⟩⟩⟩
    · have hUnpacked : x.toModel.unpack = y.toModel.unpack :=
        congrArg (fun b : UInt64 => UnpackedFloat.unpack Format.binary64 b.toBitVec) hBits
      exact .inl ⟨hx, hUnpacked⟩
    · exact .inr ⟨s, t, hs, ht⟩

/-- A number is equal to itself unless it is a NaN. -/
theorem beq_self_iff {x : Float} : (x == x) = true ↔ x.isNaN = false := by
  rw [beq_iff]
  exact ⟨fun h => h.1, fun h => ⟨h, h, .inl rfl⟩⟩

/-- It does not matter which number comes first. -/
theorem beq_comm (x y : Float) : (x == y) = (y == x) := by
  rw [Bool.eq_iff_iff, beq_iff, beq_iff]
  constructor <;> exact fun ⟨hx, hy, h⟩ => ⟨hy, hx, h.imp Eq.symm And.symm⟩

/-- With a zero in between, all three are zeros; otherwise all bits are the same. -/
theorem beq_trans {x y z : Float} (h : (x == y) = true) (h' : (y == z) = true) :
    (x == z) = true := by
  obtain ⟨hx, -, hxy⟩ := beq_iff.mp h
  obtain ⟨-, hz, hyz⟩ := beq_iff.mp h'
  have hZeros {x y : Float} (hBits : x.toBits = y.toBits) : IsZero x ↔ IsZero y := by
    rw [IsZero, IsZero, exponentBits, exponentBits, fractionBits, fractionBits, hBits]
  refine beq_iff.mpr ⟨hx, hz, ?_⟩
  rcases hxy with hxy | ⟨hx, hy⟩
  · rcases hyz with hyz | ⟨hy, hz⟩
    · exact .inl (hxy.trans hyz)
    · exact .inr ⟨(hZeros hxy).mpr hy, hz⟩
  · rcases hyz with hyz | ⟨-, hz⟩
    · exact .inr ⟨hx, (hZeros hyz).mp hy⟩
    · exact .inr ⟨hx, hz⟩

end AmbScript.Binary64
