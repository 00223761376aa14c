import AmbScript.Token.Lexer

/-!
# What a numeral takes from the text

Digits, a fraction and an exponent are each read from the head of a text, and what stands behind
them has no influence on them.

* `Lexer.Scans` — a reader at the head of a text that looks no further than what it takes.
* `Lexer.scans_digits`, `Lexer.scans_either` — digits behind a mark, and a choice by one character.
* `Lexer.numeral_of_isPrefix` — a numeral is the same in every part of the text that holds it.

A numeral is not simply the longest run of certain characters: `1e` is the number `1` and a name
behind it, since the mark of an exponent only belongs to the number if digits follow. `Scans` is
what the readers of such parts have in common, and it holds of their combinations.
-/

namespace AmbScript.Lexer

-- ---------------------------------------------------------------------------
-- Parts of a text
-- ---------------------------------------------------------------------------

section parts

variable {p : Char → Bool} {u cs : List Char} {n : Nat}

/-- A run of characters is the same in a part of the text that holds all of it. -/
theorem takeWhile_of_isPrefix (h : u <+: cs) (hLength : (cs.takeWhile p).length ≤ u.length) :
    u.takeWhile p = cs.takeWhile p := by
  obtain ⟨v, rfl⟩ := h
  rw [List.takeWhile_append] at hLength ⊢
  split
  · rename_i hAll
    rw [if_pos hAll, List.length_append] at hLength
    have hNone : v.takeWhile p = [] := List.length_eq_zero_iff.mp (by omega)
    have hRun : u.takeWhile p = u := (List.takeWhile_prefix p).eq_of_length hAll
    rw [hNone, hRun, List.append_nil]
  · rfl

/-- Behind the same run a start of the text goes on as a start of the rest. -/
theorem dropWhile_of_isPrefix (h : u <+: cs) (hRun : u.takeWhile p = cs.takeWhile p) :
    u.dropWhile p <+: cs.dropWhile p := by
  obtain ⟨v, hText⟩ := h
  have hWhole : u.takeWhile p ++ (u.dropWhile p ++ v) = u.takeWhile p ++ cs.dropWhile p := by
    rw [← List.append_assoc, List.takeWhile_append_dropWhile, hText, hRun,
      List.takeWhile_append_dropWhile]
  exact ⟨v, List.append_cancel_left hWhole⟩

theorem drop_of_isPrefix (h : u <+: cs) (hn : n ≤ u.length) : u.drop n <+: cs.drop n := by
  obtain ⟨v, rfl⟩ := h
  exact ⟨v, (List.drop_append_of_le_length hn).symm⟩

/-- The run of a property is so many characters. -/
theorem takeWhile_eq_take (p : Char → Bool) (cs : List Char) :
    cs.takeWhile p = cs.take (cs.takeWhile p).length :=
  List.prefix_iff_eq_take.mp (List.takeWhile_prefix p)

/-- What comes behind it is the rest. -/
theorem dropWhile_eq_drop (p : Char → Bool) (cs : List Char) :
    cs.dropWhile p = cs.drop (cs.takeWhile p).length := by
  have hText : cs.takeWhile p ++ cs.dropWhile p =
      cs.takeWhile p ++ cs.drop (cs.takeWhile p).length := by
    conv => rhs; lhs; rw [takeWhile_eq_take]
    rw [List.takeWhile_append_dropWhile, List.take_append_drop]
  exact List.append_cancel_left hText

end parts

/-- No character of a class is a blank if no blank is in the class. -/
theorem isBlank_of_class {p : Char → Bool}
    (h : [' ', '\t', '\n', '\r', '\x0c'].any p = false) {c : Char} (hc : p c = true) :
    isBlank c = false := by
  have hNone (b : Char) (hb : b ∈ [' ', '\t', '\n', '\r', '\x0c']) : c ≠ b := by
    rintro rfl
    exact List.any_eq_false.mp h c hb hc
  simp [isBlank, hNone ' ', hNone '\t', hNone '\n', hNone '\r', hNone '\x0c']

/-- Digits are no blanks. -/
theorem isBlank_of_mem_digits {cs : List Char} {c : Char} (h : c ∈ cs.takeWhile Char.isDigit) :
    isBlank c = false := by
  have hDigits : (cs.takeWhile Char.isDigit).all Char.isDigit = true := List.all_takeWhile
  have hc : c.isDigit = true := List.all_eq_true.mp hDigits c h
  exact isBlank_of_class (p := Char.isDigit) (by decide) hc

-- ---------------------------------------------------------------------------
-- Readers at the head of a text
-- ---------------------------------------------------------------------------

/-- A reader of the text behind a mark of `mark` characters, which are counted with those it takes.
Without a character of its own it takes not even the mark, and finds `nothing`. It takes no blanks,
and what it finds is decided by what it takes. -/
structure Scans {α : Type} (nothing : α) (mark : Nat) (f : List Char → α × Nat) : Prop where
  empty : f [] = (nothing, 0)
  some_or_none : ∀ cs, mark < (f cs).2 ∨ f cs = (nothing, 0)
  bound : ∀ cs, (f cs).2 ≤ mark + cs.length
  solid : ∀ cs : List Char, ∀ c ∈ cs.take ((f cs).2 - mark), isBlank c = false
  stable : ∀ u cs : List Char, u <+: cs → (f cs).2 ≤ mark + u.length → f u = f cs

variable {α : Type} {nothing : α} {mark : Nat}

theorem scans_nothing : Scans nothing mark fun _ => (nothing, 0) where
  empty := rfl
  some_or_none _ := .inr rfl
  bound _ := Nat.zero_le _
  solid cs c hc := by
    rw [Nat.zero_sub] at hc
    cases hc
  stable _ _ _ _ := rfl

/-- The value of the digits at the head of a text, if there are any. -/
def digitsBehind (value : List Char → α) (nothing : α) (mark : Nat) (cs : List Char) : α × Nat :=
  let digits := cs.takeWhile Char.isDigit
  if digits.isEmpty then (nothing, 0) else (value digits, mark + digits.length)

/-- Without digits the mark is not read either. -/
theorem digitsBehind_of_nil {value : List Char → α} {cs : List Char}
    (h : cs.takeWhile Char.isDigit = []) : digitsBehind value nothing mark cs = (nothing, 0) := by
  rw [digitsBehind, h]
  rfl

theorem digitsBehind_of_ne_nil {value : List Char → α} {cs : List Char}
    (h : cs.takeWhile Char.isDigit ≠ []) : digitsBehind value nothing mark cs =
      (value (cs.takeWhile Char.isDigit), mark + (cs.takeWhile Char.isDigit).length) := by
  rw [digitsBehind]
  exact if_neg fun hEmpty => h (List.isEmpty_iff.mp hEmpty)

/-- Digits behind a mark. -/
theorem scans_digits (value : List Char → α) :
    Scans nothing mark (digitsBehind value nothing mark) where
  empty := rfl
  some_or_none cs := by
    by_cases h : cs.takeWhile Char.isDigit = []
    · exact .inr (digitsBehind_of_nil h)
    · rw [digitsBehind_of_ne_nil h]
      have hLength := List.length_pos_iff.mpr h
      exact .inl (by simp only; omega)
  bound cs := by
    have hRun := (List.takeWhile_prefix Char.isDigit (l := cs)).length_le
    by_cases h : cs.takeWhile Char.isDigit = []
    · rw [digitsBehind_of_nil h]
      exact Nat.zero_le _
    · rw [digitsBehind_of_ne_nil h]
      exact Nat.add_le_add_left hRun mark
  solid cs c hc := by
    by_cases h : cs.takeWhile Char.isDigit = []
    · rw [digitsBehind_of_nil h, Nat.zero_sub] at hc
      cases hc
    · rw [digitsBehind_of_ne_nil h, Nat.add_sub_cancel_left, ← takeWhile_eq_take] at hc
      exact isBlank_of_mem_digits hc
  stable u cs hPrefix hLength := by
    -- the digits all lie in the first part, so looking at no more than it finds the same ones
    have hRun : u.takeWhile Char.isDigit = cs.takeWhile Char.isDigit := by
      refine takeWhile_of_isPrefix hPrefix ?_
      by_cases h : cs.takeWhile Char.isDigit = []
      · rw [h]
        exact Nat.zero_le _
      · rw [digitsBehind_of_ne_nil h] at hLength
        exact Nat.le_of_add_le_add_left hLength
    rw [digitsBehind, hRun]
    rfl

/-- Reads on behind a character of the class, and otherwise from the same place. -/
def either (p : Char → Bool) (f g : List Char → α × Nat) : List Char → α × Nat
  | [] => g []
  | c :: cs => if p c then f cs else g (c :: cs)

/-- The character is there, and is passed. -/
theorem either_of_pos {p : Char → Bool} {f g : List Char → α × Nat} {c : Char} (h : p c = true)
    (cs : List Char) : either p f g (c :: cs) = f cs := if_pos h

theorem either_of_neg {p : Char → Bool} {f g : List Char → α × Nat} {c : Char} (h : p c = false)
    (cs : List Char) : either p f g (c :: cs) = g (c :: cs) :=
  if_neg (Bool.eq_false_iff.mp h)

/-- A choice by the first character. -/
theorem scans_either {p : Char → Bool} {f g : List Char → α × Nat}
    (hSolid : ∀ c, p c = true → isBlank c = false) (hf : Scans nothing (mark + 1) f)
    (hg : Scans nothing mark g) : Scans nothing mark (either p f g) where
  empty := hg.empty
  some_or_none cs := by
    cases cs with
    | nil => exact .inr hg.empty
    | cons c cs =>
      cases h : p c with
      | false =>
        rw [either_of_neg h]
        exact hg.some_or_none _
      | true =>
        rw [either_of_pos h]
        exact (hf.some_or_none cs).imp_left Nat.lt_of_succ_lt
  bound cs := by
    cases cs with
    | nil => exact hg.bound []
    | cons c cs =>
      have hBound := hf.bound cs
      cases h : p c with
      | false =>
        rw [either_of_neg h]
        exact hg.bound _
      | true =>
        rw [either_of_pos h, List.length_cons]
        omega
  solid cs d hd := by
    cases cs with
    | nil => exact hg.solid [] d hd
    | cons c cs =>
      cases h : p c with
      | false =>
        rw [either_of_neg h] at hd
        exact hg.solid _ d hd
      | true =>
        rw [either_of_pos h] at hd
        rcases hf.some_or_none cs with hSome | hNone
        · have hTaken : (f cs).2 - mark = (f cs).2 - (mark + 1) + 1 := by omega
          rw [hTaken, List.take_succ_cons] at hd
          rcases List.mem_cons.mp hd with rfl | hd
          · exact hSolid _ h
          · exact hf.solid cs d hd
        · rw [hNone, Nat.zero_sub] at hd
          cases hd
  stable u cs hPrefix hLength := by
    cases cs with
    | nil => rw [List.prefix_nil.mp hPrefix]
    | cons c cs =>
      cases h : p c with
      | false =>
        rw [either_of_neg h] at hLength ⊢
        cases u with
        | nil => exact hg.stable [] _ hPrefix hLength
        | cons d u =>
          obtain ⟨rfl, -⟩ := List.cons_prefix_cons.mp hPrefix
          rw [either_of_neg h]
          exact hg.stable _ _ hPrefix hLength
      | true =>
        rw [either_of_pos h] at hLength ⊢
        cases u with
        | nil =>
          -- a character of the text is not enough for `f`
          rcases hf.some_or_none cs with hSome | hNone
          · rw [List.length_nil] at hLength
            omega
          · rw [hNone]
            exact hg.empty
        | cons d u =>
          obtain ⟨rfl, hRest⟩ := List.cons_prefix_cons.mp hPrefix
          rw [either_of_pos h]
          refine hf.stable u cs hRest ?_
          rw [List.length_cons] at hLength
          omega

-- ---------------------------------------------------------------------------
-- Numerals
-- ---------------------------------------------------------------------------

/-- A fraction is there if a point with digits behind it is. -/
theorem fraction_eq_either :
    fraction = either (· == '.') (digitsBehind id [] 1) fun _ => ([], 0) := by
  funext cs
  cases cs with
  | nil => rfl
  | cons c cs =>
    by_cases h : c = '.'
    · subst h
      rw [either_of_pos rfl, digitsBehind, Nat.add_comm]
      rfl
    · rw [either_of_neg (p := (· == '.')) (beq_eq_false_iff_ne.mpr h)]
      unfold fraction
      split
      · rename_i hText
        exact absurd (List.cons.inj hText).1 h
      · rfl

theorem scans_fraction : Scans [] 0 fraction := by
  rw [fraction_eq_either]
  refine scans_either (fun c hc => ?_) (scans_digits id) scans_nothing
  rw [eq_of_beq hc]
  decide

/-- The value of the digits of an exponent. -/
def exponentValue (negative : Bool) (digits : List Char) : Int :=
  if negative then -(Decimal.ofDigits digits : Int) else Decimal.ofDigits digits

/-- The digits of an exponent, with a sign or without. -/
def exponentSigned : List Char → Int × Nat :=
  either (· == '+') (digitsBehind (exponentValue false) 0 2)
    (either (· == '-') (digitsBehind (exponentValue true) 0 2)
      (digitsBehind (exponentValue false) 0 1))

/-- An exponent need not have a sign. -/
theorem exponentSigned_unsigned {c : Char} (hPlus : c ≠ '+') (hMinus : c ≠ '-') (cs : List Char) :
    exponentSigned (c :: cs) = digitsBehind (exponentValue false) 0 1 (c :: cs) := by
  rw [exponentSigned, either_of_neg (p := (· == '+')) (beq_eq_false_iff_ne.mpr hPlus),
    either_of_neg (p := (· == '-')) (beq_eq_false_iff_ne.mpr hMinus)]

/-- Its mark may be of either case. -/
theorem exponent_mark {c : Char} (hc : c = 'e' ∨ c = 'E') (cs : List Char) :
    exponent (c :: cs) = exponentSigned cs := by
  cases cs with
  | nil => rcases hc with rfl | rfl <;> rfl
  | cons sign cs =>
    by_cases hPlus : sign = '+'
    · subst hPlus
      rcases hc with rfl | rfl <;> rfl
    by_cases hMinus : sign = '-'
    · subst hMinus
      rcases hc with rfl | rfl <;> rfl
    rw [exponentSigned_unsigned hPlus hMinus]
    rcases hc with rfl | rfl <;> simp [exponent, digitsBehind, exponentValue, hPlus, hMinus]

/-- An exponent is there if its mark is. -/
theorem exponent_eq_either :
    exponent = either (fun c => c == 'e' || c == 'E') exponentSigned fun _ => (0, 0) := by
  funext cs
  cases cs with
  | nil => rfl
  | cons c cs =>
    cases h : c == 'e' || c == 'E' with
    | true =>
      rw [either_of_pos (p := fun c => c == 'e' || c == 'E') h]
      exact exponent_mark ((Bool.or_eq_true_iff.mp h).imp eq_of_beq eq_of_beq) cs
    | false =>
      rw [either_of_neg (p := fun c => c == 'e' || c == 'E') h]
      unfold exponent
      dsimp only
      split
      · rename_i hText
        rw [(List.cons.inj hText).1] at h
        cases h
      · rename_i hText
        rw [(List.cons.inj hText).1] at h
        cases h
      · rfl

theorem scans_exponent : Scans 0 0 exponent := by
  have hMark (c : Char) (hc : (c == 'e' || c == 'E') = true) : isBlank c = false := by
    rcases Bool.or_eq_true_iff.mp hc with hc | hc <;> rw [eq_of_beq hc] <;> decide
  have hSign (sign : Char) (hs : isBlank sign = false) (c : Char) (hc : (c == sign) = true) :
      isBlank c = false := eq_of_beq hc ▸ hs
  rw [exponent_eq_either]
  exact scans_either hMark
    (scans_either (hSign '+' (by decide)) (scans_digits _)
      (scans_either (hSign '-' (by decide)) (scans_digits _) (scans_digits _)))
    scans_nothing

variable {u cs : List Char}

/-- A numeral has three parts. -/
theorem length_numeral (cs : List Char) : (numeral cs).2 =
    (cs.takeWhile Char.isDigit).length + (fraction (cs.dropWhile Char.isDigit)).2 +
      (exponent ((cs.dropWhile Char.isDigit).drop (fraction (cs.dropWhile Char.isDigit)).2)).2 :=
  rfl

/-- It is no longer than the text. -/
theorem numeral_le (cs : List Char) : (numeral cs).2 ≤ cs.length := by
  have hFraction := scans_fraction.bound (cs.dropWhile Char.isDigit)
  have hExponent := scans_exponent.bound
    ((cs.dropWhile Char.isDigit).drop (fraction (cs.dropWhile Char.isDigit)).2)
  have hRun := (List.takeWhile_prefix Char.isDigit (l := cs)).length_le
  rw [dropWhile_eq_drop, List.length_drop] at hFraction
  rw [List.length_drop, dropWhile_eq_drop, List.length_drop] at hExponent
  rw [length_numeral, dropWhile_eq_drop]
  omega

/-- There is no blank in a numeral. -/
theorem isBlank_of_mem_numeral {c : Char} (h : c ∈ cs.take (numeral cs).2) : isBlank c = false := by
  rw [length_numeral, List.take_add, List.take_add, ← takeWhile_eq_take] at h
  rcases List.mem_append.mp h with h | h
  · rcases List.mem_append.mp h with h | h
    · exact isBlank_of_mem_digits h
    · rw [← dropWhile_eq_drop] at h
      exact scans_fraction.solid _ c h
  · rw [← List.drop_drop, ← dropWhile_eq_drop] at h
    exact scans_exponent.solid _ c h

/-- A numeral is the same in every part of the text that holds it. -/
theorem numeral_of_isPrefix (h : u <+: cs) (hLength : (numeral cs).2 ≤ u.length) :
    numeral u = numeral cs := by
  rw [length_numeral] at hLength
  have hRun : u.takeWhile Char.isDigit = cs.takeWhile Char.isDigit :=
    takeWhile_of_isPrefix h (by omega)
  have hRest := dropWhile_of_isPrefix h hRun
  have hRestLength : (u.dropWhile Char.isDigit).length =
      u.length - (cs.takeWhile Char.isDigit).length := by
    rw [dropWhile_eq_drop, List.length_drop, hRun]
  have hFraction : fraction (u.dropWhile Char.isDigit) = fraction (cs.dropWhile Char.isDigit) :=
    scans_fraction.stable _ _ hRest (by omega)
  have hLast := drop_of_isPrefix hRest
    (show (fraction (cs.dropWhile Char.isDigit)).2 ≤ (u.dropWhile Char.isDigit).length by omega)
  have hExponent := scans_exponent.stable _ _ hLast (by rw [List.length_drop]; omega)
  unfold numeral
  dsimp only
  rw [hRun, hFraction, hExponent]

/-- A digit at the head of a text is a part of its numeral. -/
theorem numeral_pos_of_isDigit {c : Char} (h : c.isDigit = true) : 0 < (numeral (c :: cs)).2 := by
  rw [length_numeral, List.takeWhile_cons_of_pos h, List.length_cons]
  omega

/-- A point with a digit behind it is a part of a numeral, with that digit. -/
theorem numeral_of_point {c : Char} (h : c.isDigit = true) :
    1 < (numeral ('.' :: c :: cs)).2 := by
  have hFraction : 1 < (fraction ('.' :: c :: cs)).2 := by
    have hRun : (c :: cs).takeWhile Char.isDigit ≠ [] := by
      rw [List.takeWhile_cons_of_pos h]
      exact List.cons_ne_nil _ _
    rw [fraction_eq_either, either_of_pos (p := (· == '.')) rfl, digitsBehind_of_ne_nil hRun]
    have hLength := List.length_pos_iff.mpr hRun
    simp only
    omega
  have hPoint : ('.' :: c :: cs).dropWhile Char.isDigit = '.' :: c :: cs := rfl
  rw [length_numeral, hPoint]
  omega

end AmbScript.Lexer
