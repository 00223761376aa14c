import AmbScript.Token.Lexer

/-!
# Texts in bytes

A text is stored as bytes: a character is a first byte, and up to three bytes that continue it. What
is read of a text byte by byte comes to the same as what is read character by character, as long as
all that is asked of a byte is whether it is a given ASCII character, or in a class of them: the
first byte tells that, and no byte that continues a character is mistaken for one.

* `encode` — the bytes of a text; `Encodes` — the bytes of a character.
* `afterBytes_encode` — places can be counted by bytes, if those that continue a character are
  passed over.
* `Tells` — a test of bytes that tells a class of characters; `takeWhile_encode` and
  `dropWhile_encode` — with it a text is cut at the same place.
* `isPrefixOf_encode` — an ASCII text stands at the head of another one just if its bytes do.
-/

namespace AmbScript

-- ---------------------------------------------------------------------------
-- The bytes of a character
-- ---------------------------------------------------------------------------

/-- The bytes of a text. -/
def encode (text : List Char) : List UInt8 := text.flatMap String.utf8EncodeChar

/-- These are the bytes that the text is stored as. -/
theorem toByteArray_encode (s : String) : (encode s.toList).toByteArray = s.toByteArray :=
  String.utf8Encode_toList

/-- The byte continues a character. -/
def Continues (b : UInt8) : Prop := b &&& 0xC0 = 0x80

instance (b : UInt8) : Decidable (Continues b) := inferInstanceAs (Decidable (_ = _))

/-- A character is encoded by a first byte and bytes that continue it. -/
structure Encodes (c : Char) (b : UInt8) (tail : List UInt8) : Prop where
  eq : String.utf8EncodeChar c = b :: tail
  first : ¬ Continues b
  continues : ∀ x ∈ tail, Continues x
  asChar : Char.ofNat b.toNat = Lexer.leadByte c
  wide : Lexer.isWide c = true → tail ≠ [] ∧ 0x80 ≤ b.toNat
  narrow : Lexer.isWide c = false → tail = [] ∧ b = UInt8.ofNat c.toNat

/-- A text begins with the bytes of its first character. -/
theorem encode_cons (c : Char) (cs : List Char) :
    encode (c :: cs) = String.utf8EncodeChar c ++ encode cs := List.flatMap_cons

/-- The bytes of a text are those of its parts, one part after the other. -/
theorem encode_append (a b : List Char) : encode (a ++ b) = encode a ++ encode b :=
  List.flatMap_append

/-- A byte with six bits of a character's number, behind the first byte, continues it. -/
theorem continues_low {n : Nat} : Continues (UInt8.ofNat (n % 64 + 128)) := by
  have hAll : ∀ k < 64, Continues (UInt8.ofNat (k + 128)) := by decide
  exact hAll _ (Nat.mod_lt _ (by decide))

/-- There are no more than that many characters, so four bytes are enough for each. -/
theorem char_lt (c : Char) : c.toNat < 0x110000 := by
  have hValid := c.valid
  simp only [UInt32.isValidChar, Nat.isValidChar] at hValid
  show c.val.toNat < _
  omega

/-- A character of several bytes. The first one is the mark `base` with the highest bits `k` of the
character's number. -/
theorem encodes_of_wide {c : Char} {base k : Nat} {tail : List UInt8} (hWide : 0x80 ≤ c.toNat)
    (hEq : String.utf8EncodeChar c = UInt8.ofNat (k + base) :: tail)
    (hBase : 0xC0 ≤ base) (hSum : k + base < 256) (hLead : Lexer.leadByte c = Char.ofNat (base + k))
    (hSome : tail ≠ []) (hTail : ∀ x ∈ tail, Continues x) :
    Encodes c (UInt8.ofNat (k + base)) tail := by
  have hFirst : ∀ n < 64, ¬ Continues (UInt8.ofNat (n + 0xC0)) := by decide
  have hByte : (UInt8.ofNat (k + base)).toNat = base + k := by
    rw [UInt8.toNat_ofNat', Nat.mod_eq_of_lt hSum, Nat.add_comm]
  refine ⟨hEq, ?_, hTail, by rw [hByte, hLead], fun _ => ⟨hSome, by omega⟩, fun h => ?_⟩
  · have hAbove : k + base = k + base - 0xC0 + 0xC0 := by omega
    rw [hAbove]
    exact hFirst _ (by omega)
  · exact absurd hWide (of_decide_eq_false h)

/-- Every character is encoded so, whether it takes one byte or up to four. -/
theorem exists_encodes (c : Char) : ∃ b tail, Encodes c b tail := by
  have hLimit := char_lt c
  have hTail (n : Nat) : ∀ x ∈ [UInt8.ofNat (n % 64 + 128)], Continues x :=
    List.forall_mem_singleton.mpr continues_low
  -- the four lengths a character can have; only the first byte differs in kind, all others continue
  by_cases h1 : c.toNat ≤ 127
  · have hFirst : ∀ n < 128, ¬ Continues (UInt8.ofNat n) := by decide
    have hByte : (UInt8.ofNat c.toNat).toNat = c.toNat := by
      rw [UInt8.toNat_ofNat', Nat.mod_eq_of_lt (by omega)]
    refine ⟨UInt8.ofNat c.toNat, [], if_pos h1, hFirst _ (by omega),
      fun _ hx => absurd hx List.not_mem_nil, ?_, fun h => ?_, fun _ => ⟨rfl, rfl⟩⟩
    · rw [hByte, Char.ofNat_toNat]
      exact (if_pos (Nat.lt_succ_of_le h1)).symm
    · exact absurd (of_decide_eq_true h) (by omega)
  · by_cases h2 : c.toNat ≤ 2047
    · have hHigh : c.toNat / 64 % 32 = c.toNat / 64 := Nat.mod_eq_of_lt (by omega)
      refine ⟨_, _, encodes_of_wide (by omega) ((if_neg h1).trans (if_pos h2)) (by decide)
        (by omega) ?_ (List.cons_ne_nil _ _) (hTail _)⟩
      rw [Lexer.leadByte, if_neg (by omega), if_pos (by omega)]
      exact congrArg _ (congrArg _ hHigh.symm)
    · by_cases h3 : c.toNat ≤ 65535
      · have hHigh : c.toNat / 4096 % 16 = c.toNat / 4096 := Nat.mod_eq_of_lt (by omega)
        refine ⟨_, _, encodes_of_wide (by omega)
          ((if_neg h1).trans ((if_neg h2).trans (if_pos h3))) (by decide) (by omega) ?_
          (List.cons_ne_nil _ _) (List.forall_mem_cons.mpr ⟨continues_low, hTail _⟩)⟩
        rw [Lexer.leadByte, if_neg (by omega), if_neg (by omega), if_pos (by omega)]
        exact congrArg _ (congrArg _ hHigh.symm)
      · have hHigh : c.toNat / 262144 % 8 = c.toNat / 262144 := Nat.mod_eq_of_lt (by omega)
        refine ⟨_, _, encodes_of_wide (by omega)
          ((if_neg h1).trans ((if_neg h2).trans (if_neg h3))) (by decide) (by omega) ?_
          (List.cons_ne_nil _ _) (List.forall_mem_cons.mpr
            ⟨continues_low, List.forall_mem_cons.mpr ⟨continues_low, hTail _⟩⟩)⟩
        rw [Lexer.leadByte, if_neg (by omega), if_neg (by omega), if_neg (by omega)]
        exact congrArg _ (congrArg _ hHigh.symm)

namespace Encodes

variable {c : Char} {b : UInt8} {tail : List UInt8}

/-- The first byte tells a character from one of a single byte. -/
theorem first_eq_iff (h : Encodes c b tail) {d : Char} (hd : d.toNat < 0x80) :
    b = UInt8.ofNat d.toNat ↔ c = d := by
  have hByte : (UInt8.ofNat d.toNat).toNat = d.toNat := by
    rw [UInt8.toNat_ofNat', Nat.mod_eq_of_lt (by omega)]
  constructor
  · rintro rfl
    have hNarrow : Lexer.isWide c = false := by
      refine Bool.eq_false_iff.mpr fun hWide => ?_
      have hHigh := (h.wide hWide).2
      omega
    have hLead : Lexer.leadByte c = c := if_pos (by simpa [Lexer.isWide] using hNarrow)
    rw [← hLead, ← h.asChar, hByte, Char.ofNat_toNat]
  · rintro rfl
    exact (h.narrow (decide_eq_false (by omega))).2

end Encodes

/-- A byte that is a character by itself continues none. -/
theorem not_continues {n : Nat} (h : n < 0x80) : ¬ Continues (UInt8.ofNat n) := by
  have hAll : ∀ n < 0x80, ¬ Continues (UInt8.ofNat n) := by decide
  exact hAll n h

-- ---------------------------------------------------------------------------
-- Places
-- ---------------------------------------------------------------------------

/-- The place behind a byte. A character takes its column with the first byte. -/
def Position.afterByte (p : Position) (b : UInt8) : Position :=
  if b = 0x0A then ⟨p.line + 1, 1⟩
  else if Continues b then p
  else ⟨p.line, p.column + 1⟩

/-- The place behind a row of bytes. -/
def Position.afterBytes (p : Position) (bytes : List UInt8) : Position :=
  bytes.foldl Position.afterByte p

section places

variable {c : Char} {b : UInt8} {tail : List UInt8}

/-- The first byte of a character takes its column. -/
theorem afterByte_of_encodes (h : Encodes c b tail) (p : Position) : p.afterByte b = p.after c := by
  have hLine : b = 0x0A ↔ c = '\n' := h.first_eq_iff (d := '\n') (by decide)
  simp only [Position.afterByte, Position.after, hLine, if_neg h.first]

/-- The bytes that continue a character take none. -/
theorem afterBytes_of_continues (h : ∀ x ∈ tail, Continues x) (p : Position) :
    p.afterBytes tail = p := by
  induction tail with
  | nil => rfl
  | cons x tail ih =>
    obtain ⟨hx, hTail⟩ := List.forall_mem_cons.mp h
    have hLine : x ≠ 0x0A := by
      rintro rfl
      exact absurd hx (by decide)
    have hStep : p.afterBytes (x :: tail) = (p.afterByte x).afterBytes tail := rfl
    rw [hStep, Position.afterByte, if_neg hLine, if_pos hx, ih hTail]

/-- Places behind rows of bytes add up. -/
theorem afterBytes_append (p : Position) (a b : List UInt8) :
    p.afterBytes (a ++ b) = (p.afterBytes a).afterBytes b := List.foldl_append

/-- Counted by bytes, the place behind a text is the one that is counted by characters. -/
theorem afterBytes_encode (p : Position) (text : List Char) :
    p.afterBytes (encode text) = p.afterText text := by
  induction text generalizing p with
  | nil => rfl
  | cons c cs ih =>
    obtain ⟨b, tail, h⟩ := exists_encodes c
    have hFirst : p.afterBytes (b :: tail) = (p.afterByte b).afterBytes tail := rfl
    rw [encode_cons, h.eq, afterBytes_append, hFirst, afterByte_of_encodes h,
      afterBytes_of_continues h.continues, ih]
    rfl

end places

-- ---------------------------------------------------------------------------
-- Classes of characters
-- ---------------------------------------------------------------------------

/-- A byte read as a character of its own. -/
def asChar (b : UInt8) : Char := Char.ofNat b.toNat

/-- The test `q` of bytes tells the class `p` of characters: it holds of the first byte of a
character just if the character is in the class, and then of the bytes that continue it, too. -/
structure Tells (q : UInt8 → Bool) (p : Char → Bool) : Prop where
  first {c : Char} {b : UInt8} {tail : List UInt8} (h : Encodes c b tail) : q b = p c
  continues {c : Char} {b : UInt8} {tail : List UInt8} (h : Encodes c b tail) (hc : p c = true) :
    ∀ x ∈ tail, q x = true

/-- A byte that is no ASCII character is none when it is read as a character of its own either. -/
theorem toNat_asChar (b : UInt8) : (asChar b).toNat = b.toNat := by
  have hValid : b.toNat.isValidChar := .inl (Nat.lt_trans b.toNat_lt (by decide))
  rw [asChar, Char.ofNat, dif_pos hValid]
  rfl

/-- A character of one byte is that byte. -/
theorem Encodes.asChar_eq {c : Char} {b : UInt8} {tail : List UInt8} (h : Encodes c b tail)
    (hc : c.toNat < 0x80) : AmbScript.asChar b = c := by
  have hLead : Lexer.leadByte c = c := if_pos hc
  exact h.asChar.trans hLead

/-- A class of ASCII characters is told by reading each byte as a character. -/
theorem tells_ascii {p : Char → Bool} (hAscii : ∀ c, p c = true → c.toNat < 0x80) :
    Tells (fun b => p (asChar b)) p where
  first {c b tail} h := by
    cases hWide : Lexer.isWide c with
    | false => rw [h.asChar_eq (Nat.not_le.mp (of_decide_eq_false hWide))]
    | true =>
      -- neither the character nor its first byte is an ASCII character
      have hNot {d : Char} (hd : 0x80 ≤ d.toNat) : p d = false :=
        Bool.eq_false_iff.mpr fun hp => Nat.not_le.mpr (hAscii d hp) hd
      have hByte : 0x80 ≤ (asChar b).toNat := by
        rw [toNat_asChar]
        exact (h.wide hWide).2
      exact (hNot hByte).trans (hNot (of_decide_eq_true hWide)).symm
  continues {c b tail} h hc x hx := by
    have hNarrow : Lexer.isWide c = false := decide_eq_false (Nat.not_le.mpr (hAscii c hc))
    rw [(h.narrow hNarrow).1] at hx
    cases hx

/-- That a character is not a given ASCII character is told by each of its bytes. -/
theorem tells_bne {d : Char} (hd : d.toNat < 0x80) :
    Tells (fun b => b != UInt8.ofNat d.toNat) fun c => c != d where
  first h := by
    rw [Bool.eq_iff_iff, bne_iff_ne, bne_iff_ne, ne_eq, ne_eq, h.first_eq_iff hd]
  continues h _ x hx := by
    rw [bne_iff_ne]
    rintro rfl
    exact not_continues hd (h.continues _ hx)

/-- All characters of the text are ASCII characters. -/
def IsAscii (text : List Char) : Prop := ∀ c ∈ text, c.toNat < 0x80

theorem isAscii_iff {text : List Char} : (text.all fun c => c.toNat < 0x80) = true ↔ IsAscii text := by
  rw [List.all_eq_true]
  exact forall₂_congr fun c _ => decide_eq_true_iff

instance (text : List Char) : Decidable (IsAscii text) := decidable_of_iff _ isAscii_iff

/-- The first character of an ASCII text, and the others. -/
theorem isAscii_cons {c : Char} {text : List Char} :
    IsAscii (c :: text) ↔ c.toNat < 0x80 ∧ IsAscii text := List.forall_mem_cons

section classes

variable {q : UInt8 → Bool} {p : Char → Bool} {c : Char} {cs : List Char}

/-- The bytes of a text, up to a byte that fails the test, are those of the characters of the class
at the head of the text; and behind them is the rest of the text. -/
theorem span_encode (h : Tells q p) (cs : List Char) :
    (encode cs).takeWhile q = encode (cs.takeWhile p) ∧
      (encode cs).dropWhile q = encode (cs.dropWhile p) := by
  induction cs with
  | nil => exact ⟨rfl, rfl⟩
  | cons c cs ih =>
    obtain ⟨b, tail, hc⟩ := exists_encodes c
    rw [encode_cons, hc.eq]
    cases hClass : p c with
    | false =>
      -- the first byte tells that the character is not in the class, and both end here
      have hNot : ¬ q b = true := by rw [h.first hc, hClass]; exact Bool.false_ne_true
      have hNotClass : ¬ p c = true := by rw [hClass]; exact Bool.false_ne_true
      rw [List.cons_append, List.takeWhile_cons_of_neg hNot, List.dropWhile_cons_of_neg hNot,
        List.takeWhile_cons_of_neg hNotClass, List.dropWhile_cons_of_neg hNotClass, encode_cons, hc.eq]
      exact ⟨rfl, rfl⟩
    | true =>
      -- all bytes of a character in the class are passed
      have hAll : ∀ x ∈ b :: tail, q x = true :=
        List.forall_mem_cons.mpr ⟨(h.first hc).trans hClass, h.continues hc hClass⟩
      rw [List.takeWhile_append_of_pos hAll, List.dropWhile_append_of_pos hAll, ih.1, ih.2,
        List.takeWhile_cons_of_pos hClass, List.dropWhile_cons_of_pos hClass, encode_cons, hc.eq]
      exact ⟨rfl, rfl⟩

theorem takeWhile_encode (h : Tells q p) (cs : List Char) :
    (encode cs).takeWhile q = encode (cs.takeWhile p) := (span_encode h cs).1

theorem dropWhile_encode (h : Tells q p) (cs : List Char) :
    (encode cs).dropWhile q = encode (cs.dropWhile p) := (span_encode h cs).2

/-- What the first byte of a text is told to be, its first character is. -/
theorem head?_encode (h : Tells q p) (cs : List Char) : (encode cs).head?.any q = cs.head?.any p := by
  cases cs with
  | nil => rfl
  | cons c cs =>
    obtain ⟨b, tail, hc⟩ := exists_encodes c
    rw [encode_cons, hc.eq]
    exact h.first hc

/-- An ASCII character is one byte. -/
theorem encode_narrow (hc : c.toNat < 0x80) (cs : List Char) :
    encode (c :: cs) = UInt8.ofNat c.toNat :: encode cs := by
  obtain ⟨b, tail, h⟩ := exists_encodes c
  obtain ⟨rfl, rfl⟩ := h.narrow (decide_eq_false (Nat.not_le.mpr hc))
  rw [encode_cons, h.eq]
  rfl

/-- A text has no fewer bytes than characters. -/
theorem length_le_encode (cs : List Char) : cs.length ≤ (encode cs).length := by
  induction cs with
  | nil => exact Nat.le_refl 0
  | cons c cs ih =>
    obtain ⟨b, tail, h⟩ := exists_encodes c
    rw [encode_cons, h.eq, List.cons_append, List.length_cons, List.length_cons, List.length_append]
    omega

/-- An ASCII text has as many bytes as characters. -/
theorem length_encode {text : List Char} (hText : IsAscii text) :
    (encode text).length = text.length := by
  induction text with
  | nil => rfl
  | cons c text ih =>
    obtain ⟨hc, hRest⟩ := isAscii_cons.mp hText
    rw [encode_narrow hc, List.length_cons, List.length_cons, ih hRest]

/-- The ASCII text stands at the head of another one just if its bytes do. -/
theorem isPrefixOf_encode {text : List Char} (hText : IsAscii text) (cs : List Char) :
    (encode text).isPrefixOf (encode cs) = text.isPrefixOf cs := by
  induction text generalizing cs with
  | nil => rfl
  | cons d text ih =>
    obtain ⟨hd, hRest⟩ := isAscii_cons.mp hText
    rw [encode_narrow hd]
    cases cs with
    | nil => rfl
    | cons c cs =>
      obtain ⟨b, tail, hc⟩ := exists_encodes c
      rw [encode_cons, hc.eq, List.cons_append, List.isPrefixOf_cons_cons, List.isPrefixOf_cons_cons]
      by_cases hSame : c = d
      -- an ASCII character is one byte, so the rests are compared next
      · subst hSame
        have hByte : b = UInt8.ofNat c.toNat := (hc.first_eq_iff hd).mpr rfl
        have hNone : tail = [] := (hc.narrow (decide_eq_false (Nat.not_le.mpr hd))).1
        rw [hByte, hNone, List.nil_append, ih hRest cs, beq_self_eq_true, beq_self_eq_true]
      · have hOther : ¬ b = UInt8.ofNat d.toNat := fun hByte => hSame ((hc.first_eq_iff hd).mp hByte)
        rw [beq_eq_false_iff_ne.mpr (Ne.symm hOther), beq_eq_false_iff_ne.mpr (Ne.symm hSame)]
        rfl

end classes

end AmbScript
