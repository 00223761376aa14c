import AmbScript.Json.Reader

/-!
# JSON texts that are read back

A value is written as a row of lexemes without anything between them. Each lexeme is found again in
the text, and together they make up the value.

* `Json.Fits` — a value that its text keeps apart from all others, with a limit to its containers.
* `Json.spelling`, `Json.toList_render` — the lexemes of a value, and its text as made up of them.
* `Json.lexemes_render` — the text is cut into those lexemes.
* `Json.read_render` — reading the text gives the value back.

The reader works in two stages, and so does the proof: the text is cut into lexemes, and a machine
with a stack of open containers assembles them. In both stages the statement has to be made for a
value somewhere in the middle of a text, with anything behind it; only the ends of numbers depend on
what that is, since a number ends where no digit follows.
-/

namespace AmbScript.Json

-- ---------------------------------------------------------------------------
-- The lexemes of a value
-- ---------------------------------------------------------------------------

mutual

/-- Every part of the value is written in a way of its own, with whole numbers that fit a machine
word, and its containers nest at most `room` deep. -/
def Fits (room : Nat) : Json → Prop
  | null | bool _ | string _ => True
  | integer n => ∃ m : Nat, n = m ∧ m ≤ wordMax
  | array items => 0 < room ∧ AllFit (room - 1) items
  | object members => 0 < room ∧ MembersFit (room - 1) members
  | decimal _ _ | unrepresentable => False

/-- Every item fits. -/
def AllFit (room : Nat) : List Json → Prop
  | [] => True
  | v :: vs => Fits room v ∧ AllFit room vs

/-- The value of every member fits. -/
def MembersFit (room : Nat) : List (String × Json) → Prop
  | [] => True
  | (_, v) :: ms => Fits room v ∧ MembersFit room ms

end

mutual

/-- Every part of a value that fits denotes something. -/
theorem Fits.isRepresentable {room : Nat} : (v : Json) → v.Fits room → v.isRepresentable
  | .null, _ | .bool _, _ | .integer _, _ | .string _, _ => rfl
  | .array items, h => h.2.areRepresentable items
  | .object members, h => h.2.membersRepresentable members

/-- Items that fit denote something. -/
theorem AllFit.areRepresentable {room : Nat} :
    (vs : List Json) → AllFit room vs → areRepresentable vs
  | [], _ => rfl
  | v :: vs, h => by
    rw [areRepresentable, h.1.isRepresentable v, h.2.areRepresentable vs]
    rfl

/-- Members that fit denote something. -/
theorem MembersFit.membersRepresentable {room : Nat} :
    (ms : List (String × Json)) → MembersFit room ms → membersRepresentable ms
  | [], _ => rfl
  | (_, v) :: ms, h => by
    rw [membersRepresentable, h.1.isRepresentable v, h.2.membersRepresentable ms]
    rfl

end

namespace Lexeme

/-- The text of a lexeme. -/
def chars : Lexeme → List Char
  | openArray => ['[']
  | closeArray => [']']
  | openObject => ['\x7b']
  | closeObject => ['\x7d']
  | comma => [',']
  | colon => [':']
  | text s => (quoted (s.getD "")).toList
  | atom v => v.render.toList

end Lexeme

mutual

/-- The lexemes that a value is written with. -/
def spelling : Json → List Lexeme
  | array items => .openArray :: (spellItems items ++ [.closeArray])
  | object members => .openObject :: (spellMembers members ++ [.closeObject])
  | string s => [.text (some s)]
  | v => [.atom v]

/-- The lexemes of items, with commas between them. -/
def spellItems : List Json → List Lexeme
  | [] => []
  | [v] => spelling v
  | v :: vs => spelling v ++ .comma :: spellItems vs

/-- The lexemes of members, with commas between them. -/
def spellMembers : List (String × Json) → List Lexeme
  | [] => []
  | [(k, v)] => .text (some k) :: .colon :: spelling v
  | (k, v) :: ms => .text (some k) :: .colon :: (spelling v ++ .comma :: spellMembers ms)

end

theorem spellItems_cons_cons (v w : Json) (vs : List Json) :
    spellItems (v :: w :: vs) = v.spelling ++ .comma :: spellItems (w :: vs) :=
  spellItems.eq_3 v (w :: vs) (by simp)

theorem spellMembers_cons_cons (k : String) (v : Json) (m : String × Json)
    (ms : List (String × Json)) :
    spellMembers ((k, v) :: m :: ms) =
      .text (some k) :: .colon :: (v.spelling ++ .comma :: spellMembers (m :: ms)) :=
  spellMembers.eq_3 k v (m :: ms) (by simp)

/-- The text of a row of lexemes. -/
def spell (ls : List Lexeme) : List Char := ls.flatMap Lexeme.chars

@[simp]
theorem spell_nil : spell [] = [] := rfl

@[simp]
theorem spell_cons (l : Lexeme) (ls : List Lexeme) : spell (l :: ls) = l.chars ++ spell ls :=
  List.flatMap_cons

/-- Two rows of lexemes, one after the other. -/
@[simp]
theorem spell_append (ls ms : List Lexeme) : spell (ls ++ ms) = spell ls ++ spell ms :=
  List.flatMap_append

mutual

/-- Writing adds the text of the lexemes. -/
theorem toList_renderOnto (acc : String) :
    (v : Json) → (renderOnto acc v).toList = acc.toList ++ spell v.spelling
  | null | bool _ | integer _ | decimal _ _ | unrepresentable => by
    simp [renderOnto, spelling, Lexeme.chars, render]
  | string s => by simp [renderOnto, spelling, Lexeme.chars]
  | array items => by
    rw [renderOnto, String.toList_append, toList_renderItems _ items]
    simp [spelling, Lexeme.chars]
  | object members => by
    rw [renderOnto, String.toList_append, toList_renderMembers _ members]
    simp [spelling, Lexeme.chars]

/-- Items are added with commas between them. -/
theorem toList_renderItems (acc : String) :
    (vs : List Json) → (renderItems acc vs).toList = acc.toList ++ spell (spellItems vs)
  | [] => by simp [renderItems, spellItems]
  | [v] => by rw [renderItems, toList_renderOnto, spellItems]
  | v :: w :: vs => by
    have hRest := toList_renderItems (renderOnto acc v ++ ",") (w :: vs)
    rw [renderItems.eq_3 acc v (w :: vs) (by simp), hRest, String.toList_append,
      toList_renderOnto acc v, spellItems_cons_cons]
    simp [Lexeme.chars]

theorem toList_renderMembers (acc : String) :
    (ms : List (String × Json)) →
      (renderMembers acc ms).toList = acc.toList ++ spell (spellMembers ms)
  | [] => by simp [renderMembers, spellMembers]
  | [(k, v)] => by
    rw [renderMembers, toList_renderOnto _ v, spellMembers]
    simp [Lexeme.chars]
  | (k, v) :: m :: ms => by
    have hRest := toList_renderMembers (renderOnto (acc ++ quoted k ++ ":") v ++ ",") (m :: ms)
    rw [renderMembers.eq_3 acc k v (m :: ms) (by simp), hRest, String.toList_append,
      toList_renderOnto _ v, spellMembers_cons_cons]
    simp [Lexeme.chars]

end

/-- The text of a value is that of its lexemes. -/
theorem toList_render (v : Json) : v.render.toList = spell v.spelling := by
  rw [render, toList_renderOnto]
  rfl

-- ---------------------------------------------------------------------------
-- Strings
-- ---------------------------------------------------------------------------

/-- A digit in base sixteen is read as the number it was written for. -/
theorem hexValue?_hexDigit : ∀ n < 16, hexValue? (hexDigit n) = some n := by decide

/-- A character is found again as one code unit. -/
theorem stringUnits_escaped (c : Char) (cs : List Char) (units : List Nat) :
    stringUnits (escaped c ++ cs) units = stringUnits cs (c.toNat :: units) := by
  by_cases hQuote : c = '"'
  · subst hQuote; rfl
  by_cases hSlash : c = '\\'
  · subst hSlash; rfl
  by_cases hLine : c = '\n'
  · subst hLine; rfl
  by_cases hReturn : c = '\r'
  · subst hReturn; rfl
  by_cases hTab : c = '\t'
  · subst hTab; rfl
  by_cases hBack : c = '\x08'
  · subst hBack; rfl
  by_cases hFeed : c = '\x0c'
  · subst hFeed; rfl
  by_cases hControl : c.toNat < 0x20
  -- What is left of the control characters is written by its number; the two leading digits are
  -- zeros.
  · have hEscaped : escaped c =
        ['\\', 'u', '0', '0', hexDigit (c.toNat / 16), hexDigit (c.toNat % 16)] := by
      simp [escaped, hBack, hFeed, hControl]
    have hHigh := hexValue?_hexDigit (c.toNat / 16) (by omega)
    have hLow := hexValue?_hexDigit (c.toNat % 16) (by omega)
    have hZero : hexValue? '0' = some 0 := rfl
    have hHex : hex4? '0' '0' (hexDigit (c.toNat / 16)) (hexDigit (c.toNat % 16)) =
        some c.toNat := by
      simp only [hex4?, hZero, hHigh, hLow, Option.pure_def, Option.bind_eq_bind, Option.bind_some,
        Option.some.injEq]
      omega
    rw [hEscaped]
    simp only [List.cons_append, List.nil_append]
    rw [stringUnits, hHex]
  · have hEscaped : escaped c = [c] := by
      simp [escaped, hBack, hFeed, hControl]
    rw [hEscaped, List.singleton_append, stringUnits]
    · rw [if_neg]
      simp [hControl, hSlash]
    · exact hQuote
    · exact fun _ _ _ _ _ h => absurd h hSlash
    · exact fun _ _ h => absurd h hSlash

/-- The text between the quotes is read character by character. -/
theorem stringUnits_quoted (cs rest : List Char) (units : List Nat) :
    stringUnits (cs.flatMap escaped ++ '"' :: rest) units =
      some ((cs.map Char.toNat).reverse ++ units, rest) := by
  induction cs generalizing units with
  | nil => rfl
  | cons c cs ih =>
    rw [List.flatMap_cons, List.append_assoc, stringUnits_escaped, ih]
    simp

/-- No character is half a surrogate pair. -/
theorem isHigh_toNat (c : Char) : isHigh c.toNat = false ∧ isLow c.toNat = false := by
  have hValid : c.toNat < 0xD800 ∨ 0xDFFF < c.toNat ∧ c.toNat < 0x110000 := c.valid
  simp only [isHigh, isLow, Bool.and_eq_false_iff, decide_eq_false_iff_not]
  omega

/-- Code units that are characters are not joined to pairs. -/
theorem joinUnits_toNat (cs done : List Char) :
    joinUnits (cs.map Char.toNat) done = some (cs.reverse ++ done) := by
  induction cs generalizing done with
  | nil => rfl
  | cons c cs ih =>
    obtain ⟨hHigh, hLow⟩ := isHigh_toNat c
    have hNext := ih (c :: done)
    cases cs with
    | nil => simp [joinUnits, hHigh, hLow, Char.ofNat_toNat]
    | cons d ds =>
      rw [List.map_cons, List.map_cons, joinUnits, if_neg (by simp [hHigh]),
        if_neg (by simp [hLow]), Char.ofNat_toNat, ← List.map_cons, hNext]
      simp

/-- A string is read back from between its quotes. -/
theorem readString_quoted (s : String) (rest : List Char) :
    readString (s.toList.flatMap escaped ++ '"' :: rest) = some (some s, rest) := by
  rw [readString, stringUnits_quoted]
  simp [joinUnits_toNat]

-- ---------------------------------------------------------------------------
-- Numbers
-- ---------------------------------------------------------------------------

/-- The text does not go on with what would belong to a number before it. -/
def EndsNumber (rest : List Char) : Prop :=
  ∀ c ∈ rest.head?, c.isDigit = false ∧ c ≠ '.' ∧ c ≠ 'e' ∧ c ≠ 'E'

/-- The digits of a number are found, and nothing that comes after them. -/
theorem digits_append {ds rest : List Char} (hDigits : ∀ c ∈ ds, c.isDigit = true)
    (hRest : EndsNumber rest) :
    digits (ds ++ rest) = ds ∧ (ds ++ rest).dropWhile Char.isDigit = rest := by
  have hHead : rest.takeWhile Char.isDigit = [] ∧ rest.dropWhile Char.isDigit = rest := by
    cases rest with
    | nil => exact ⟨rfl, rfl⟩
    | cons c cs =>
      have hc := (hRest c rfl).1
      simp [hc]
  rw [digits, List.takeWhile_append_of_pos hDigits, List.dropWhile_append_of_pos hDigits, hHead.1,
    hHead.2, List.append_nil]
  exact ⟨rfl, rfl⟩

/-- A number is written without zeros in front. -/
theorem head?_toDigits {n : Nat} (hn : 0 < n) : (Nat.toDigits 10 n).head? ≠ some '0' := by
  induction n using Nat.strongRecOn with
  | ind n ih =>
    rw [Nat.toDigits_eq_if (by decide)]
    by_cases hSmall : n < 10
    · have hDigits : ∀ m < 10, 0 < m → [Nat.digitChar m].head? ≠ some '0' := by decide
      rw [if_pos hSmall]
      exact hDigits n hSmall hn
    · rw [if_neg hSmall]
      have hFront := ih (n / 10) (by omega) (by omega)
      have hSome : Nat.toDigits 10 (n / 10) ≠ [] := Nat.toDigits_ne_nil
      rwa [List.head?_append, Option.or_of_isSome (List.isSome_head?.mpr hSome)]

/-- The digits of a number make up that number. -/
theorem ofDigits_toDigits (n : Nat) : Decimal.ofDigits (Nat.toDigits 10 n) = n :=
  Nat.ofDigitChars_toDigits (by decide) (by decide)

/-- Digits of a number that fits a machine word are all leading digits. -/
theorem leadingDigits_of_le {cs : List Char} {n : Nat}
    (h : cs.foldl (fun n c => 10 * n + Decimal.digitValue c) n ≤ wordMax) :
    (leadingDigits cs n).2 = 0 := by
  induction cs generalizing n with
  | nil => rfl
  | cons c cs ih =>
    rw [List.foldl_cons] at h
    have hGrows (ds : List Char) (m : Nat) :
        m ≤ ds.foldl (fun n c => 10 * n + Decimal.digitValue c) m := by
      induction ds generalizing m with
      | nil => exact Nat.le_refl m
      | cons d ds ihd =>
        have := ihd (10 * m + Decimal.digitValue d)
        rw [List.foldl_cons]
        omega
    -- Digits only ever make the number larger, so if all of them fit, each beginning does.
    have hFits : 10 * n + Decimal.digitValue c ≤ wordMax := Nat.le_trans (hGrows cs _) h
    rw [leadingDigits]
    simp only [if_pos hFits]
    exact ih h

/-- A machine word is far below the largest double. -/
theorem exceedsDoubles_of_le {ds : List Char} (h : Decimal.ofDigits ds ≤ wordMax) :
    exceedsDoubles ⟨ds, [], 0⟩ = false := by
  have hAll : (leadingDigits ds 0).2 = 0 := leadingDigits_of_le h
  have hScale : Decimal.Numeral.scale ⟨ds, [], 0⟩ + ((leadingDigits ds 0).2 : Int) ≤ 0 := by
    simp [Decimal.Numeral.scale, hAll]
  simp only [exceedsDoubles, List.append_nil]
  rw [if_pos (.inr hScale)]

/-- No fraction follows. -/
theorem readFraction_of_ends {rest : List Char} (h : EndsNumber rest) :
    readFraction rest = some ([], rest) := by
  cases rest with
  | nil => rfl
  | cons c cs =>
    have hc := (h c rfl).2.1
    simp [readFraction, hc]

theorem readExponent_of_ends {rest : List Char} (h : EndsNumber rest) :
    readExponent rest = some (none, rest) := by
  cases rest with
  | nil => rfl
  | cons c cs =>
    have hc := (h c rfl).2.2
    simp [readExponent, hc]

/-- A whole number is read back from its digits. -/
theorem readNumber_toDigits {n : Nat} (hn : n ≤ wordMax) {rest : List Char}
    (hRest : EndsNumber rest) :
    readNumber (Nat.toDigits 10 n ++ rest) = some (integer n, rest) := by
  have hDigit (c : Char) (hc : c ∈ Nat.toDigits 10 n) : c.isDigit = true :=
    Nat.isDigit_of_mem_toDigits (by decide) (by decide) hc
  obtain ⟨hWhole, hBehind⟩ := digits_append hDigit hRest
  have hSome : Nat.toDigits 10 n ≠ [] := Nat.toDigits_ne_nil
  have hPlain : ¬((Nat.toDigits 10 n).isEmpty = true ∨
      (Nat.toDigits 10 n).head? = some '0' ∧ (Nat.toDigits 10 n).length > 1) := by
    rintro (hEmpty | ⟨hZero, hLong⟩)
    · exact hSome (List.isEmpty_iff.mp hEmpty)
    · rcases Nat.eq_zero_or_pos n with rfl | hPos
      · exact absurd hLong (by decide)
      · exact head?_toDigits hPos hZero
  have hDouble : exceedsDoubles ⟨Nat.toDigits 10 n, [], 0⟩ = false :=
    exceedsDoubles_of_le (by rw [ofDigits_toDigits]; exact hn)
  have hMantissa : Decimal.Numeral.mantissa ⟨Nat.toDigits 10 n, [], 0⟩ = n := by
    rw [Decimal.Numeral.mantissa, List.append_nil, ofDigits_toDigits]
  -- The digits do not begin with a sign.
  have hUnsigned (cs : List Char) : Nat.toDigits 10 n ++ rest ≠ '-' :: cs := by
    intro h
    cases hDigits : Nat.toDigits 10 n with
    | nil => exact hSome hDigits
    | cons d ds =>
      have hd := hDigit d (by rw [hDigits]; exact List.mem_cons_self)
      rw [hDigits, List.cons_append, List.cons.injEq] at h
      rw [h.1] at hd
      exact absurd hd (by decide)
  rw [readNumber]
  · simp only [hWhole, hBehind, readFraction_of_ends hRest, Option.bind_eq_bind, Option.bind_some,
      readExponent_of_ends hRest, Option.getD_none, if_neg hPlain, hDouble, hMantissa]
    simp
  · exact fun cs h => hUnsigned cs h

-- ---------------------------------------------------------------------------
-- Lexemes
-- ---------------------------------------------------------------------------

/-- A whole number is written by its digits. -/
theorem spelling_integer (n : Nat) : (integer n).render.toList = Nat.toDigits 10 n := by
  show (renderOnto "" (integer n)).toList = _
  rw [renderOnto, String.toList_append]
  show [] ++ (Nat.repr n).toList = _
  rw [List.nil_append, Nat.repr_eq_ofList_toDigits, String.toList_ofList]

theorem isBlank_of_isDigit {c : Char} (h : c.isDigit = true) : isBlank c = false := by
  have hNone (b : Char) (hb : b.isDigit = false) : c ≠ b := by
    rintro rfl
    rw [h] at hb
    cases hb
  simp [isBlank, hNone ' ' rfl, hNone '\n' rfl, hNone '\r' rfl, hNone '\t' rfl]

/-- A number that starts the text is what is read of it first. -/
theorem readLexeme_toDigits {n : Nat} (hn : n ≤ wordMax) {rest : List Char}
    (hRest : EndsNumber rest) :
    readLexeme (Nat.toDigits 10 n ++ rest) = some (.atom (integer n), rest) := by
  have hNumber := readNumber_toDigits hn hRest
  cases hDigits : Nat.toDigits 10 n with
  | nil => exact absurd hDigits Nat.toDigits_ne_nil
  | cons d ds =>
    have hd : d.isDigit = true :=
      Nat.isDigit_of_mem_toDigits (by decide) (by decide) (hDigits ▸ List.mem_cons_self)
    rw [hDigits] at hNumber
    rw [List.cons_append] at hNumber ⊢
    unfold readLexeme
    split
    -- a digit starts no other lexeme
    case h_11 => rw [hNumber, Option.map_some]
    all_goals
      rename_i h
      rw [(List.cons.inj h).1] at hd
      exact absurd hd (by decide)

/-- The row of lexemes is found at the head of a text that goes on with `rest`. -/
structure Cuts (ls : List Lexeme) (rest : List Char) : Prop where
  /-- Each lexeme takes a round, and the rounds that are left go on behind them. -/
  loop : ∀ fuel done, lexemesLoop (fuel + ls.length) (spell ls ++ rest) done =
    lexemesLoop fuel rest (ls.reverse ++ done)
  length_le : ls.length ≤ (spell ls).length

namespace Cuts

variable {ls ms : List Lexeme} {rest : List Char}

/-- Two rows, each of them found in its place. -/
theorem append (hFirst : Cuts ls (spell ms ++ rest)) (hLast : Cuts ms rest) :
    Cuts (ls ++ ms) rest where
  loop fuel done := by
    have hRounds : fuel + (ls ++ ms).length = fuel + ms.length + ls.length := by
      rw [List.length_append]
      omega
    rw [hRounds, spell_append, List.append_assoc, hFirst.loop, hLast.loop, List.reverse_append,
      List.append_assoc]
  length_le := by
    have := hFirst.length_le
    have := hLast.length_le
    rw [spell_append, List.length_append, List.length_append]
    omega

/-- One lexeme, which is read in one round. -/
theorem one {l : Lexeme} (c : Char) (cs : List Char) (hChars : l.chars = c :: cs)
    (hBlank : isBlank c = false) (hRead : readLexeme (l.chars ++ rest) = some (l, rest)) :
    Cuts [l] rest where
  loop fuel done := by
    rw [hChars, List.cons_append] at hRead
    have hText : (spell [l] ++ rest).dropWhile isBlank = c :: (cs ++ rest) := by
      simp [hChars, hBlank]
    show lexemesLoop (fuel + 1) (spell [l] ++ rest) done = _
    rw [lexemesLoop, hText]
    simp only [hRead]
    rfl
  length_le := by simp [hChars]

/-- One lexeme in front of others. -/
theorem cons {l : Lexeme} (c : Char) (cs : List Char) (hChars : l.chars = c :: cs)
    (hBlank : isBlank c = false)
    (hRead : readLexeme (l.chars ++ (spell ms ++ rest)) = some (l, spell ms ++ rest))
    (hLast : Cuts ms rest) : Cuts (l :: ms) rest :=
  append (one c cs hChars hBlank hRead) hLast

end Cuts

/-- The text behind a value: it is at its end, or a mark comes next. -/
def Closes (rest : List Char) : Prop := ∀ c ∈ rest.head?, c = ',' ∨ c = ']' ∨ c = '\x7d'

/-- What closes a value ends a number. -/
theorem Closes.endsNumber {rest : List Char} (h : Closes rest) : EndsNumber rest := by
  intro c hc
  rcases h c hc with rfl | rfl | rfl <;> decide

/-- A string that starts the text. -/
theorem readLexeme_text (s : String) (rest : List Char) :
    readLexeme ((Lexeme.text (some s)).chars ++ rest) = some (.text (some s), rest) := by
  have hChars : (Lexeme.text (some s)).chars ++ rest =
      '"' :: (s.toList.flatMap escaped ++ '"' :: rest) := by
    simp [Lexeme.chars, quoted]
  rw [hChars, readLexeme, readString_quoted]
  rfl

/-- A string in front of others. -/
theorem cuts_text (s : String) {ms : List Lexeme} {rest : List Char} (h : Cuts ms rest) :
    Cuts (.text (some s) :: ms) rest :=
  .cons '"' (s.toList.flatMap escaped ++ ['"']) (by simp [Lexeme.chars, quoted]) rfl
    (readLexeme_text s _) h

theorem cuts_nil (rest : List Char) : Cuts [] rest := ⟨fun _ _ => rfl, Nat.le_refl 0⟩

mutual

/-- The lexemes of a value are found in its text, whatever may stand behind it. -/
theorem cuts_spelling {room : Nat} {rest : List Char} (hRest : Closes rest) :
    (v : Json) → v.Fits room → Cuts v.spelling rest
  | null, _ => .one 'n' _ rfl rfl rfl
  | bool true, _ => .one 't' _ rfl rfl rfl
  | bool false, _ => .one 'f' _ rfl rfl rfl
  | string s, _ => cuts_text s (cuts_nil rest)
  | integer _, ⟨n, rfl, hn⟩ => by
    -- a number is read as far as its digits go, which is why what follows must not be one
    have hText : (Lexeme.atom (integer n)).chars = Nat.toDigits 10 n := spelling_integer n
    have hRead := readLexeme_toDigits hn hRest.endsNumber
    rw [← hText] at hRead
    cases hDigits : Nat.toDigits 10 n with
    | nil => exact absurd hDigits Nat.toDigits_ne_nil
    | cons d ds =>
      have hd : d.isDigit = true :=
        Nat.isDigit_of_mem_toDigits (by decide) (by decide) (hDigits ▸ List.mem_cons_self)
      exact .one d ds (hText.trans hDigits) (isBlank_of_isDigit hd) hRead
  | array items, ⟨_, hItems⟩ => by
    have hClosing : Cuts [.closeArray] rest := .one ']' _ rfl rfl rfl
    have hAll : Cuts (spellItems items) (spell [.closeArray] ++ rest) :=
      cuts_spellItems (by simp [Closes, Lexeme.chars]) items hItems
    exact .cons '[' _ rfl rfl rfl (hAll.append hClosing)
  | object members, ⟨_, hMembers⟩ => by
    have hClosing : Cuts [.closeObject] rest := .one '\x7d' _ rfl rfl rfl
    have hAll : Cuts (spellMembers members) (spell [.closeObject] ++ rest) :=
      cuts_spellMembers (by simp [Closes, Lexeme.chars]) members hMembers
    exact .cons '\x7b' _ rfl rfl rfl (hAll.append hClosing)

/-- The lexemes of items. -/
theorem cuts_spellItems {room : Nat} {rest : List Char} (hRest : Closes rest) :
    (vs : List Json) → AllFit room vs → Cuts (spellItems vs) rest
  | [], _ => cuts_nil rest
  | [v], ⟨hv, _⟩ => cuts_spelling hRest v hv
  | v :: w :: vs, ⟨hv, hvs⟩ => by
    have hMore : Cuts (.comma :: spellItems (w :: vs)) rest :=
      .cons ',' _ rfl rfl rfl (cuts_spellItems hRest (w :: vs) hvs)
    rw [spellItems_cons_cons]
    exact .append (cuts_spelling (by simp [Closes, Lexeme.chars]) v hv) hMore

/-- The lexemes of members. -/
theorem cuts_spellMembers {room : Nat} {rest : List Char} (hRest : Closes rest) :
    (ms : List (String × Json)) → MembersFit room ms → Cuts (spellMembers ms) rest
  | [], _ => cuts_nil rest
  | [(k, v)], ⟨hv, _⟩ =>
    cuts_text k (.cons ':' _ rfl rfl rfl (cuts_spelling hRest v hv))
  | (k, v) :: m :: ms, ⟨hv, hms⟩ => by
    have hMore : Cuts (.comma :: spellMembers (m :: ms)) rest :=
      .cons ',' _ rfl rfl rfl (cuts_spellMembers hRest (m :: ms) hms)
    have hValue : Cuts v.spelling (spell (.comma :: spellMembers (m :: ms)) ++ rest) :=
      cuts_spelling (by simp [Closes, Lexeme.chars]) v hv
    rw [spellMembers_cons_cons]
    exact cuts_text k (.cons ':' _ rfl rfl rfl (hValue.append hMore))

end

/-- The text of a value is cut into its lexemes. -/
theorem lexemes_render {room : Nat} {v : Json} (h : v.Fits room) :
    lexemes v.render.toList = some v.spelling := by
  have hCuts : Cuts v.spelling [] := cuts_spelling (by simp [Closes]) v h
  obtain ⟨fuel, hFuel⟩ := Nat.exists_eq_add_of_le hCuts.length_le
  have hLoop := hCuts.loop fuel []
  rw [Nat.add_comm, ← hFuel, List.append_nil, List.append_nil] at hLoop
  rw [lexemes, toList_render, hLoop]
  show lexemesLoop fuel [] _ = _
  rw [lexemesLoop]
  simp

-- ---------------------------------------------------------------------------
-- Values
-- ---------------------------------------------------------------------------

/-- A member as it is kept while its object is open. -/
def known (m : String × Json) : Option String × Json := (some m.1, m.2)

/-- All keys are known when an object is closed, and none of its members is lost. -/
theorem closeObject_known (ms : List (String × Json)) :
    closeObject (ms.map known) = object ms.reverse := by
  have hAll : (ms.map known).all (·.1.isSome) = true := by simp [known]
  rw [closeObject, if_pos hAll, ← List.map_reverse, List.map_map]
  simp [known, Function.comp_def]

mutual

/-- The lexemes of a value make up the value, wherever one may stand that has room for it. -/
theorem assemble_spelling {room : Nat} (ls : List Lexeme) (first : Bool) (outer : List Open) :
    (v : Json) → v.Fits room →
      assemble room (v.spelling ++ ls) (.value first) outer = assemble room ls (.after v) outer
  | null, _ | bool _, _ | integer _, _ => by simp [spelling, assemble]
  | string s, _ => by simp [spelling, assemble, ofText]
  | array items, ⟨hRoom, hItems⟩ => by
    have hAgain : room - 1 + 1 = room := by omega
    -- an array takes one level of the room and gives it back when it closes
    show assemble room (.openArray :: (spellItems items ++ [.closeArray] ++ ls)) _ _ = _
    rw [List.append_assoc, assemble, if_neg (by omega)]
    rcases items with _ | ⟨v, vs⟩
    · show assemble (room - 1) (.closeArray :: ls) (.value true) (.array [] :: outer) = _
      rw [assemble, hAgain]
      rfl
    · have hAll := assemble_spellItems ls true [] outer (v :: vs) (by simp) hItems
      rw [hAgain] at hAll
      exact hAll
  | object members, ⟨hRoom, hMembers⟩ => by
    have hAgain : room - 1 + 1 = room := by omega
    show assemble room (.openObject :: (spellMembers members ++ [.closeObject] ++ ls)) _ _ = _
    rw [List.append_assoc, assemble, if_neg (by omega)]
    rcases members with _ | ⟨m, ms⟩
    · show assemble (room - 1) (.closeObject :: ls) (.key true) (.object [] none :: outer) = _
      rw [assemble, hAgain]
      rfl
    · have hAll := assemble_spellMembers ls true [] outer (m :: ms) (by simp) hMembers
      rw [hAgain] at hAll
      exact hAll

/-- The items of an open array are added to those it has. -/
theorem assemble_spellItems {room : Nat} (ls : List Lexeme) (first : Bool) (done : List Json)
    (outer : List Open) :
    (vs : List Json) → vs ≠ [] → AllFit room vs →
      assemble room (spellItems vs ++ .closeArray :: ls) (.value first) (.array done :: outer) =
        assemble (room + 1) ls (.after (array (done.reverse ++ vs))) outer
  | [v], _, ⟨hv, _⟩ => by
    rw [spellItems, assemble_spelling _ first _ v hv, assemble, List.reverse_cons]
  | v :: w :: vs, _, ⟨hv, hvs⟩ => by
    rw [spellItems_cons_cons, List.append_assoc, assemble_spelling _ first _ v hv,
      List.cons_append, assemble, assemble_spellItems ls false (v :: done) outer (w :: vs) (by simp)
        hvs, List.reverse_cons, List.append_assoc]
    rfl

/-- The members of an open object are added to those it has. -/
theorem assemble_spellMembers {room : Nat} (ls : List Lexeme) (first : Bool)
    (done : List (String × Json)) (outer : List Open) :
    (ms : List (String × Json)) → ms ≠ [] → MembersFit room ms →
      assemble room (spellMembers ms ++ .closeObject :: ls) (.key first)
          (.object (done.map known) none :: outer) =
        assemble (room + 1) ls (.after (object (done.reverse ++ ms))) outer
  | [(k, v)], _, ⟨hv, _⟩ => by
    have hClosed : closeObject ((some k, v) :: done.map known) = object ((k, v) :: done).reverse :=
      closeObject_known ((k, v) :: done)
    rw [spellMembers, List.cons_append, List.cons_append, assemble, assemble,
      assemble_spelling _ false _ v hv, assemble, hClosed, List.reverse_cons]
  | (k, v) :: m :: ms, _, ⟨hv, hms⟩ => by
    have hMore := assemble_spellMembers ls false ((k, v) :: done) outer (m :: ms) (by simp) hms
    rw [List.reverse_cons, List.append_assoc] at hMore
    rw [spellMembers_cons_cons, List.cons_append, List.cons_append, List.append_assoc, assemble,
      assemble, assemble_spelling _ false _ v hv, List.cons_append, assemble]
    exact hMore

end

/-- A value is read back from its text, if its containers nest no deeper than the reader goes. -/
theorem read_render {depth : Nat} {v : Json} (h : v.Fits depth) : read depth v.render = some v := by
  have hValue := assemble_spelling [] false [] v h
  rw [List.append_nil] at hValue
  rw [read, lexemes_render h, Option.bind_eq_bind, Option.bind_some, hValue]
  rfl

end AmbScript.Json
