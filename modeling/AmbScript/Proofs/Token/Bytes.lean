import AmbScript.Proofs.Token.Encoded
import AmbScript.Proofs.Token.Gaps
import Mathlib.Data.List.Find

/-!
# Cutting a text byte by byte

A text can be cut into pieces without being decoded first: all that a piece is known by, and all
that ends one, is an ASCII character, which is one byte and stands in no other character. A place is
moved on with each byte, but for those that continue a character, and a part of the text is decoded
only where it is kept: in names, numbers, string literals and messages.

* `ByteCursor` — a place in a text and the bytes from there on.
* `Lexer.Bytes.piece`, `Lexer.Bytes.run` — how a text is cut byte by byte.
* `Lexer.Bytes.piece_encode` — each piece is the one that is cut off by characters.
* `Lexer.Bytes.run_eq` — so all tokens, all places and all reports are the same.

Every test that the lexer makes is made on one character, or on two or three of them in a row, and
each of these tests accepts ASCII characters only. So one lemma for each reader says that from the
encoded text it comes to the encoded rest; where the lexer makes a text of what it has passed, the
bytes between two places that were reached in this way are those of whole characters.
-/

namespace AmbScript

/-- A place in a text, and the bytes from there on. -/
structure ByteCursor where
  place : Position
  rest : List UInt8

/-- The same place, with what is left of the text in bytes. -/
def Cursor.encoded (c : Cursor) : ByteCursor := ⟨c.place, encode c.rest⟩

/-- What is left at a place, in bytes. -/
theorem Cursor.rest_encoded (c : Cursor) : c.encoded.rest = encode c.rest := rfl

namespace ByteCursor

/-- Past the next `n` bytes. -/
def drop (c : ByteCursor) (n : Nat) : ByteCursor :=
  ⟨c.place.afterBytes (c.rest.take n), c.rest.drop n⟩

/-- Past the bytes up to the first that fails `q`. -/
def dropWhile (c : ByteCursor) (q : UInt8 → Bool) : ByteCursor :=
  ⟨c.place.afterBytes (c.rest.takeWhile q), c.rest.dropWhile q⟩

/-- The region from `start` to the character before the cursor. -/
def spanFrom (c : ByteCursor) (start : Position) : Span :=
  ⟨start, ⟨c.place.line, max (c.place.column - 1) 1⟩⟩

/-- The text between two places: none if the bytes there encode none. -/
def textSince (c start : ByteCursor) : List Char :=
  Lexer.chunkText (start.rest.take (start.rest.length - c.rest.length))

end ByteCursor

namespace Lexer.Bytes

open ByteCursor

-- ---------------------------------------------------------------------------
-- The pieces of a text
-- ---------------------------------------------------------------------------

/-- The byte is a blank by itself; bytes beyond ASCII are none. -/
def isBlank (b : UInt8) : Bool := Lexer.isBlank (asChar b)

/-- A decimal digit. -/
def isDigit (b : UInt8) : Bool := (asChar b).isDigit

/-- What a name may start with. -/
def isWordStart (b : UInt8) : Bool := Lexer.isWordStart (asChar b)

/-- What a name may go on with. -/
def isWord (b : UInt8) : Bool := Lexer.isWord (asChar b)

/-- What was read up to `after`. -/
def upTo (after : ByteCursor) (kind : Option Token.Kind) (reports : List Diagnostic) : Scanned :=
  ⟨kind, after.place, after.rest, reports⟩

/-- Behind the mark that closes a block comment, if there is one. -/
def closeComment (p : Position) : List UInt8 → Option ByteCursor
  | [] => none
  | b :: rest =>
    if [0x2A, 0x2F].isPrefixOf (b :: rest) then some (drop ⟨p, b :: rest⟩ 2)
    else closeComment (p.afterByte b) rest

/-- A comment from its opening mark on. If it is not closed it takes all that is left. -/
def blockComment (source : Source) (c : ByteCursor) : Scanned :=
  match closeComment (c.drop 2).place (c.drop 2).rest with
  | some after => upTo after none []
  | none =>
    let after := c.dropWhile fun _ => true
    upTo after none [.quoting source .unclosedDelimiter "Unterminated comment"
      (after.spanFrom c.place)]

/-- Past digits. -/
def pastDigits (c : ByteCursor) : ByteCursor := c.dropWhile isDigit

/-- Past a point with digits behind it, if there is one. -/
def pastFraction (c : ByteCursor) : ByteCursor :=
  if c.rest.head? = some 0x2E ∧ c.rest[1]?.any isDigit then pastDigits (c.drop 1) else c

/-- Past a mark of an exponent with digits behind it, and perhaps a sign in front of them. -/
def pastExponent (c : ByteCursor) : ByteCursor :=
  if c.rest.head? = some 0x65 ∨ c.rest.head? = some 0x45 then
    let sign := if c.rest[1]? = some 0x2B ∨ c.rest[1]? = some 0x2D then 1 else 0
    if c.rest[1 + sign]?.any isDigit then pastDigits (c.drop (1 + sign)) else c
  else c

/-- A number has the value of the numeral that its text is. -/
def number (c : ByteCursor) : Scanned :=
  let after := pastExponent (pastFraction (pastDigits c))
  upTo after (some (.number (numeral (after.textSince c)).1.toFloat)) []

/-- A keyword or a name. -/
def word (c : ByteCursor) : Scanned :=
  let after := c.dropWhile isWord
  upTo after (some (wordKind (after.textSince c))) []

/-- A string literal, read chunk by chunk from behind its opening quote on. -/
def string (source : Source) (quote : UInt8) (c : ByteCursor) : Scanned :=
  let inside := c.drop 1
  scan source quote c.place ⟨inside.rest, inside.place, [], []⟩

/-- The bytes start with this spelling. -/
def startsWith (spelling : String) (bytes : List UInt8) : Bool :=
  (encode spelling.toList).isPrefixOf bytes

/-- Past a spelling. -/
def pastSpelling (spelling : String) (c : ByteCursor) : ByteCursor :=
  c.drop (encode spelling.toList).length

/-- A comparison in its loose spelling, reported and read as the strict one. -/
def looseComparison (source : Source) (loose : String) (strict : Symbol) (c : ByteCursor) :
    Scanned :=
  let spelling := strict.spelling
  let after := pastSpelling loose c
  let report := Diagnostic.quoting source .unsupportedOperator
    s!"Use {spelling} instead of {loose}" (after.spanFrom c.place)
  upTo after (some (.symbol strict))
    [report.withSuggestion s!"Loose comparison is not part of the language; use {spelling}"]

/-- A character that starts no token: its first byte, and those that continue it. -/
def stray (source : Source) (b : UInt8) (c : ByteCursor) : Scanned :=
  let after := (c.drop 1).dropWhile fun x => decide (Continues x)
  let span := after.spanFrom c.place
  let report :=
    if b = 0x26 ∨ b = 0x7C then
      (Diagnostic.quoting source .unsupportedOperator
        s!"Bitwise operator '{asChar b}' is not supported" span).withSuggestion
        s!"Use '{asChar b}{asChar b}' for the logical operator"
    else Diagnostic.quoting source .unexpectedToken
      s!"Unexpected character '{String.ofList (after.textSince c)}'" span
  upTo after none [report]

/-- The longest operator or punctuation mark at the head of a text. -/
def mark (source : Source) (b : UInt8) (c : ByteCursor) : Scanned :=
  if startsWith "==" c.rest && !startsWith "===" c.rest then
    looseComparison source "==" .equal c
  else if startsWith "!=" c.rest && !startsWith "!==" c.rest then
    looseComparison source "!=" .notEqual c
  else
    match Symbol.marks.find? fun s => startsWith s.spelling c.rest with
    | some s => upTo (pastSpelling s.spelling c) (some (.symbol s)) []
    | none => stray source b c

/-- The piece at the head of a text whose first byte is `b`. -/
def piece (source : Source) (b : UInt8) (c : ByteCursor) : Scanned :=
  let next := c.rest[1]?
  if isBlank b then upTo (c.dropWhile isBlank) none []
  else if b = 0x2F ∧ next = some 0x2F then upTo (c.dropWhile (· != 0x0A)) none []
  else if b = 0x2F ∧ next = some 0x2A then blockComment source c
  else if b = 0x22 ∨ b = 0x27 then string source b c
  else if isDigit b ∨ b = 0x2E ∧ next.any isDigit then number c
  else if isWordStart b then word c
  else mark source b c

/-- The end of the text, or the place where the log became full. -/
def finish (c : ByteCursor) (tokens : List Token) (log : DiagnosticLog) : Result :=
  ⟨(Token.eof (.point c.place) :: tokens).reverse, log⟩

/-- Cuts the rest of a text, with the tokens so far in reverse. Every piece takes a byte, so as many
rounds as there are bytes are enough. -/
def loop (source : Source) : Nat → ByteCursor → List Token → DiagnosticLog → Result
  | 0, c, tokens, log => finish c tokens log
  | fuel + 1, c, tokens, log =>
    if log.isFull then finish c tokens log
    else
      match c.rest with
      | [] => finish c tokens log
      | b :: _ =>
        let s := piece source b c
        let after : ByteCursor := ⟨s.place, s.rest⟩
        let tokens := match s.kind with
          | some kind => ⟨kind, after.spanFrom c.place⟩ :: tokens
          | none => tokens
        loop source fuel after tokens (s.reports.foldl DiagnosticLog.push log)

/-- The tokens of a text, the end of the text last, and the faults found in it. -/
def run (source : Source) : Result :=
  let bytes := encode source.text.toList
  loop source bytes.length ⟨⟨1, 1⟩, bytes⟩ [] .empty

-- ---------------------------------------------------------------------------
-- Classes of bytes
-- ---------------------------------------------------------------------------

/-- Digits are ASCII characters. -/
theorem lt_of_isDigit {c : Char} (h : c.isDigit = true) : c.toNat < 0x80 := by
  have hBounds : (decide (c.val ≥ 48) && decide (c.val ≤ 57)) = true := h
  have hUpper := of_decide_eq_true (Bool.and_eq_true_iff.mp hBounds).2
  exact Nat.lt_of_le_of_lt (UInt32.le_iff_toNat_le.mp hUpper) (by decide)

/-- Letters, the underscore and the dollar sign are ASCII characters. -/
theorem lt_of_isWordStart {c : Char} (h : Lexer.isWordStart c = true) : c.toNat < 0x80 := by
  simp only [Lexer.isWordStart, Bool.or_eq_true, decide_eq_true_eq] at h
  rcases h with (hAlpha | rfl) | rfl
  · have hLetter : (c.isUpper || c.isLower) = true := hAlpha
    rcases Bool.or_eq_true_iff.mp hLetter with hUpper | hLower
    · have hBounds : c.val ≥ 65 ∧ c.val ≤ 90 := of_decide_eq_true hUpper
      exact Nat.lt_of_le_of_lt (UInt32.le_iff_toNat_le.mp hBounds.2) (by decide)
    · have hBounds : (decide (c.val ≥ 97) && decide (c.val ≤ 122)) = true := hLower
      have hUpper := of_decide_eq_true (Bool.and_eq_true_iff.mp hBounds).2
      exact Nat.lt_of_le_of_lt (UInt32.le_iff_toNat_le.mp hUpper) (by decide)
  · decide
  · decide

theorem lt_of_isWord {c : Char} (h : Lexer.isWord c = true) : c.toNat < 0x80 := by
  rcases Bool.or_eq_true_iff.mp h with hStart | hDigit
  · exact lt_of_isWordStart hStart
  · exact lt_of_isDigit hDigit

/-- Blanks are ASCII characters. -/
theorem lt_of_isBlank {c : Char} (h : Lexer.isBlank c = true) : c.toNat < 0x80 := by
  simp only [Lexer.isBlank, Bool.or_eq_true, decide_eq_true_eq] at h
  rcases h with (((rfl | rfl) | rfl) | rfl) | rfl <;> decide

/-- To read a byte as a character tells blanks, digits and the characters of words. -/
theorem tells_isBlank : Tells isBlank Lexer.isBlank := tells_ascii fun _ => lt_of_isBlank

/-- Digits are told by their bytes. -/
theorem tells_isDigit : Tells isDigit Char.isDigit := tells_ascii fun _ => lt_of_isDigit

theorem tells_isWordStart : Tells isWordStart Lexer.isWordStart := tells_ascii fun _ => lt_of_isWordStart

theorem tells_isWord : Tells isWord Lexer.isWord := tells_ascii fun _ => lt_of_isWord

end Lexer.Bytes

-- ---------------------------------------------------------------------------
-- Places in bytes
-- ---------------------------------------------------------------------------

namespace ByteCursor

variable {text : List Char}

/-- Past the characters of a class. -/
theorem dropWhile_encoded {q : UInt8 → Bool} {cls : Char → Bool} (h : Tells q cls) (c : Cursor) :
    c.encoded.dropWhile q = (c.dropWhile cls).encoded := by
  unfold dropWhile Cursor.encoded Cursor.dropWhile
  rw [takeWhile_encode h, dropWhile_encode h, afterBytes_encode]

/-- Past all bytes of a text. -/
theorem drop_append (p : Position) (front back : List UInt8) :
    drop ⟨p, front ++ back⟩ front.length = ⟨p.afterBytes front, back⟩ := by
  rw [drop, List.take_left, List.drop_left]

/-- Past as many bytes as an ASCII text has characters. -/
theorem drop_encoded (text : List Char) (hText : IsAscii text) {n : Nat}
    (hn : text.length = n) (p : Position) (rest : List Char) :
    (Cursor.encoded ⟨p, text ++ rest⟩).drop n = (Cursor.drop ⟨p, text ++ rest⟩ n).encoded := by
  subst hn
  rw [Cursor.drop_append, ← length_encode hText]
  show drop ⟨p, encode (text ++ rest)⟩ _ = ⟨_, encode rest⟩
  rw [encode_append, drop_append, afterBytes_encode]

/-- What is decoded between two places is the text there. -/
theorem textSince_encoded {c d : Cursor} (h : c.Takes text d) :
    d.encoded.textSince c.encoded = text := by
  have hBytes : c.encoded.rest = encode text ++ d.encoded.rest := by
    show encode c.rest = encode text ++ encode d.rest
    rw [h.1, encode_append]
  rw [textSince, hBytes, List.length_append, Nat.add_sub_cancel, List.take_left,
    Lexer.chunkText_encode]

end ByteCursor

/-- To pass `n` characters, and then `m` more. -/
theorem Cursor.drop_drop (c : Cursor) (n m : Nat) : (c.drop n).drop m = c.drop (n + m) := by
  unfold Cursor.drop
  rw [List.take_add, Position.afterText_append, List.drop_drop]

namespace Lexer.Bytes

open Cursor ByteCursor

variable {source : Source} {ch : Char} {b : UInt8} {tail : List UInt8} {cs : List Char}
  {p : Position}

/-- An ASCII character comes next in bytes just if it does in the text. -/
theorem head?_encode_eq_iff {d : Char} (hd : d.toNat < 0x80) (cs : List Char) :
    (encode cs).head? = some (UInt8.ofNat d.toNat) ↔ cs.head? = some d := by
  cases cs with
  | nil => exact iff_of_false nofun nofun
  | cons c cs =>
    obtain ⟨b, tail, h⟩ := exists_encodes c
    rw [encode_cons, h.eq]
    show some b = some _ ↔ some c = some d
    rw [Option.some_inj, Option.some_inj, h.first_eq_iff hd]

/-- Behind an ASCII text comes what comes next in the bytes. -/
theorem getElem?_encode (text : List Char) (hText : IsAscii text) {n : Nat}
    (hn : text.length = n) (cs : List Char) : (encode (text ++ cs))[n]? = (encode cs).head? := by
  subst hn
  rw [encode_append, ← length_encode hText, List.getElem?_append_right (Nat.le_refl _),
    Nat.sub_self, List.head?_eq_getElem?]

/-- All marks are ASCII texts. -/
theorem isAscii_spelling : ∀ s ∈ Symbol.marks, IsAscii s.spelling.toList := by
  decide

-- ---------------------------------------------------------------------------
-- Comments
-- ---------------------------------------------------------------------------

/-- The bytes that continue a character close no comment. -/
theorem closeComment_append (hTail : ∀ x ∈ tail, Continues x) (p : Position) (bytes : List UInt8) :
    closeComment p (tail ++ bytes) = closeComment p bytes := by
  induction tail with
  | nil => rfl
  | cons x tail ih =>
    obtain ⟨hx, hRest⟩ := List.forall_mem_cons.mp hTail
    have hStar : ¬ (0x2A == x) = true := by
      rw [beq_iff_eq]
      rintro rfl
      exact absurd hx (by decide)
    have hPlace : p.afterBytes [x] = p :=
      afterBytes_of_continues (List.forall_mem_singleton.mpr hx) p
    change p.afterByte x = p at hPlace
    rw [List.cons_append, closeComment, if_neg, hPlace, ih hRest]
    rw [List.isPrefixOf_cons_cons, Bool.and_eq_true, not_and]
    exact fun h => absurd h hStar

/-- A comment is closed in the bytes where it is closed in the text. -/
theorem closeComment_encode (p : Position) (cs : List Char) (n : Nat) :
    closeComment p (encode cs) =
      (commentLength cs n).map fun m => (Cursor.drop ⟨p, cs⟩ (m - n)).encoded := by
  fun_induction commentLength cs n generalizing p with
  | case1 => rfl
  | case2 cs n =>
    have hBytes : encode ('*' :: '/' :: cs) = 0x2A :: 0x2F :: encode cs := by
      rw [encode_narrow (by decide), encode_narrow (by decide)]
      rfl
    have hOpen : [0x2A, 0x2F].isPrefixOf (0x2A :: 0x2F :: encode cs) = true :=
      List.isPrefixOf_iff_prefix.mpr ⟨encode cs, rfl⟩
    have hTwo : n + 2 - n = 2 := Nat.add_sub_cancel_left n 2
    rw [hBytes, closeComment, if_pos hOpen, ← hBytes, Option.map_some, hTwo]
    exact congrArg some (drop_encoded ['*', '/'] (by decide) rfl p cs)
  | case3 c cs n hNot ih =>
    obtain ⟨b, tail, h⟩ := exists_encodes c
    have hOpen : ¬ [0x2A, 0x2F].isPrefixOf (encode (c :: cs)) = true := by
      have hMark : (encode ['*', '/']).isPrefixOf (encode (c :: cs)) =
          ['*', '/'].isPrefixOf (c :: cs) := isPrefixOf_encode (by decide) _
      have hBytes : encode ['*', '/'] = [0x2A, 0x2F] := rfl
      rw [← hBytes, hMark, List.isPrefixOf_iff_prefix]
      rintro ⟨rest, hRest⟩
      cases hRest
      exact hNot rest rfl rfl
    rw [encode_cons, h.eq, List.cons_append] at hOpen ⊢
    rw [closeComment, if_neg hOpen, closeComment_append h.continues, afterByte_of_encodes h, ih]
    refine Option.map_congr fun m hLength => ?_
    -- the character is passed, and then what is counted from the next one on
    have hLater := commentLength_lt hLength
    have hOnce : m - n = m - (n + 1) + 1 := by omega
    rw [hOnce]
    rfl

/-- A block comment ends in the bytes where it ends in the text, or takes all of them. -/
theorem blockComment_encode (source : Source) (p : Position) (cs : List Char) :
    blockComment source (Cursor.encoded ⟨p, '/' :: '*' :: cs⟩) =
      (Lexer.blockComment source ⟨p, '/' :: '*' :: cs⟩).encoded := by
  have hInside : (Cursor.encoded ⟨p, '/' :: '*' :: cs⟩).drop 2 =
      Cursor.encoded ⟨(p.after '/').after '*', cs⟩ :=
    drop_encoded ['/', '*'] (by decide) rfl p cs
  have hClose := closeComment_encode ((p.after '/').after '*') cs 2
  have hBehind : ('/' :: '*' :: cs).drop 2 = cs := rfl
  have hAll : Tells (fun _ => true) fun _ => true := ⟨fun _ => rfl, fun _ _ _ _ => rfl⟩
  unfold blockComment Lexer.blockComment
  rw [hInside, hBehind, dropWhile_encoded hAll]
  dsimp only [Cursor.encoded] at hClose ⊢
  rw [hClose]
  cases hLength : commentLength cs 2 with
  | none => rfl
  | some m =>
    have hTwo := commentLength_lt hLength
    obtain ⟨m, rfl⟩ : ∃ k, m = k + 1 + 1 := ⟨m - 2, by omega⟩
    rfl

-- ---------------------------------------------------------------------------
-- Numbers
-- ---------------------------------------------------------------------------

/-- Digits are passed in bytes as they are in the text. -/
theorem pastDigits_encode (c : Cursor) :
    pastDigits c.encoded = (c.dropWhile Char.isDigit).encoded := dropWhile_encoded tells_isDigit c

/-- Digits behind an ASCII text are passed together with it, and if there are none it is not passed
either. -/
theorem pastDigitsBehind_encode {α : Type} (nothing : α) (value : List Char → α) (text : List Char)
    (hText : IsAscii text) {n : Nat} (hn : text.length = n) (p : Position)
    (cs : List Char) :
    (if (encode (text ++ cs))[n]?.any isDigit then
        pastDigits ((Cursor.encoded ⟨p, text ++ cs⟩).drop n) else Cursor.encoded ⟨p, text ++ cs⟩) =
      (Cursor.drop ⟨p, text ++ cs⟩ (digitsBehind value nothing n cs).2).encoded := by
  rw [getElem?_encode text hText hn, head?_encode tells_isDigit, drop_encoded text hText hn, pastDigits_encode,
    Cursor.dropWhile_eq_drop, Cursor.drop_drop]
  -- the digits looked for stand behind the mark, which is plain and so as long in bytes
  have hRest : (Cursor.drop ⟨p, text ++ cs⟩ n).rest = cs := by
    rw [← hn, Cursor.drop_append]
  rw [hRest]
  by_cases hDigits : cs.takeWhile Char.isDigit = []
  · rw [digitsBehind_of_nil hDigits, if_neg]
    · rfl
    · cases cs with
      | nil => exact Bool.false_ne_true
      | cons d cs =>
        intro hd
        rw [List.takeWhile_cons_of_pos (show d.isDigit = true from hd)] at hDigits
        cases hDigits
  · rw [digitsBehind_of_ne_nil hDigits, if_pos]
    cases cs with
    | nil => exact absurd rfl hDigits
    | cons d cs =>
      by_cases hd : d.isDigit = true
      · exact hd
      · exact absurd (List.takeWhile_cons_of_neg hd) hDigits

/-- So is the fraction of a numeral, point and digits, or nothing if one of them is missing. -/
theorem pastFraction_encode (c : Cursor) :
    pastFraction c.encoded = (c.drop (fraction c.rest).2).encoded := by
  obtain ⟨p, cs⟩ := c
  have hPoint := head?_encode_eq_iff (d := '.') (by decide) cs
  unfold pastFraction
  cases cs with
  | nil => rfl
  | cons d cs =>
    by_cases hd : d = '.'
    · subst hd
      have hBehind := pastDigitsBehind_encode [] id ['.'] (by decide) rfl p cs
      have hBoth := and_iff_right (b := (encode ('.' :: cs))[1]?.any isDigit = true) (hPoint.mpr rfl)
      rw [fraction_eq_either, either_of_pos (p := (· == '.')) rfl]
      exact (ite_congr (propext hBoth) (fun _ => rfl) fun _ => rfl).trans hBehind
    · rw [fraction_eq_either, either_of_neg (p := (· == '.')) (beq_eq_false_iff_ne.mpr hd), if_neg]
      · rfl
      · rintro ⟨hHead, -⟩
        exact hd (Option.some_inj.mp (hPoint.mp hHead))

theorem pastExponent_encode (c : Cursor) :
    pastExponent c.encoded = (c.drop (exponent c.rest).2).encoded := by
  obtain ⟨p, cs⟩ := c
  have hSmall := head?_encode_eq_iff (d := 'e') (by decide) cs
  have hLarge := head?_encode_eq_iff (d := 'E') (by decide) cs
  unfold pastExponent
  cases cs with
  | nil => rfl
  | cons c cs =>
    by_cases hc : c = 'e' ∨ c = 'E'
    · have hNarrow : IsAscii [c] := by
        rcases hc with rfl | rfl <;> decide
      have hHead : (encode (c :: cs)).head? = some 0x65 ∨ (encode (c :: cs)).head? = some 0x45 :=
        hc.imp (fun h => hSmall.mpr (congrArg some h)) fun h => hLarge.mpr (congrArg some h)
      -- The mark is one byte, so the byte behind it is the first one of the next character.
      have hNext : (encode (c :: cs))[1]? = (encode cs).head? := getElem?_encode [c] hNarrow rfl cs
      have hPlus := head?_encode_eq_iff (d := '+') (by decide) cs
      have hMinus := head?_encode_eq_iff (d := '-') (by decide) cs
      have hSign : (encode (c :: cs))[1]? = some 0x2B ∨ (encode (c :: cs))[1]? = some 0x2D ↔
          cs.head? = some '+' ∨ cs.head? = some '-' := by
        rw [hNext]
        exact or_congr hPlus hMinus
      dsimp only
      rw [exponent_mark hc, rest_encoded, if_pos hHead]
      by_cases hSigned : cs.head? = some '+' ∨ cs.head? = some '-'
      · obtain ⟨sign, cs, rfl⟩ : ∃ sign cs', cs = sign :: cs' := by
          cases cs with
          | nil => rcases hSigned with h | h <;> cases h
          | cons sign cs' => exact ⟨sign, cs', rfl⟩
        have hBoth : IsAscii [c, sign] := by
          refine isAscii_cons.mpr ⟨hNarrow c List.mem_cons_self, ?_⟩
          rcases hSigned with h | h <;> cases h <;> decide
        rw [if_pos (hSign.mpr hSigned)]
        rcases hSigned with h | h
        · cases h
          exact pastDigitsBehind_encode 0 _ [c, '+'] hBoth rfl p cs
        · cases h
          exact pastDigitsBehind_encode 0 _ [c, '-'] hBoth rfl p cs
      -- Without a sign the digits would have to come at once.
      · rw [if_neg fun h => hSigned (hSign.mp h)]
        have hBehind := pastDigitsBehind_encode 0 (exponentValue false) [c] hNarrow rfl p cs
        have hUnsigned : exponentSigned cs = digitsBehind (exponentValue false) 0 1 cs := by
          cases cs with
          | nil => rfl
          | cons d cs =>
            exact exponentSigned_unsigned (fun h => hSigned (.inl (congrArg some h)))
              (fun h => hSigned (.inr (congrArg some h))) cs
        rw [hUnsigned]
        exact hBehind
    · have hMark : (c == 'e' || c == 'E') = false := by
        simpa using hc
      rw [exponent_eq_either, either_of_neg (p := fun c => c == 'e' || c == 'E') hMark, if_neg]
      · rfl
      · exact fun h => hc (h.imp (fun h => Option.some_inj.mp (hSmall.mp h))
          fun h => Option.some_inj.mp (hLarge.mp h))

/-- A number is read in bytes as it is in the text, and its value is decided by its own text. -/
theorem number_encode (c : Cursor) : number c.encoded = (Lexer.number c).encoded := by
  have hAfter : pastExponent (pastFraction (pastDigits c.encoded)) =
      (c.drop (numeral c.rest).2).encoded := by
    rw [pastDigits_encode, pastFraction_encode, pastExponent_encode, Cursor.dropWhile_eq_drop,
      length_numeral]
    have hDigits : (c.drop (c.rest.takeWhile Char.isDigit).length).rest =
        c.rest.dropWhile Char.isDigit := by
      rw [← Cursor.dropWhile_eq_drop]
      rfl
    have hFraction (n : Nat) : ((c.drop (c.rest.takeWhile Char.isDigit).length).drop n).rest =
        (c.rest.dropWhile Char.isDigit).drop n := by
      rw [← hDigits]
      rfl
    rw [hDigits, hFraction, Cursor.drop_drop, Cursor.drop_drop, Nat.add_assoc]
  have hText : (c.drop (numeral c.rest).2).encoded.textSince c.encoded =
      c.rest.take (numeral c.rest).2 := textSince_encoded (c.takes_drop _)
  -- The value is computed from the text of the number alone, which does not depend on what follows.
  have hSame : numeral (c.rest.take (numeral c.rest).2) = numeral c.rest := by
    refine numeral_of_isPrefix (List.take_prefix _ _) ?_
    rw [List.length_take]
    exact Nat.le_min.mpr ⟨Nat.le_refl _, numeral_le c.rest⟩
  unfold number
  rw [hAfter]
  dsimp only
  rw [hText, hSame]
  rfl

-- ---------------------------------------------------------------------------
-- Words and string literals
-- ---------------------------------------------------------------------------

/-- A word is decoded once it has been passed. -/
theorem word_encode (c : Cursor) : word c.encoded = (Lexer.word c).encoded := by
  unfold word
  rw [dropWhile_encoded tells_isWord]
  dsimp only
  rw [textSince_encoded (c.takes_dropWhile Lexer.isWord)]
  rfl

/-- A string literal is read chunk by chunk from behind its quote on. -/
theorem string_encode (source : Source) {quote : Char} (hQuote : quote = '"' ∨ quote = '\'')
    (p : Position) (cs : List Char) :
    string source (quoteByte quote) (Cursor.encoded ⟨p, quote :: cs⟩) =
      (Lexer.string source quote ⟨p, quote :: cs⟩).encoded := by
  have hInside : (Cursor.encoded ⟨p, quote :: cs⟩).drop 1 = Cursor.encoded ⟨p.after quote, cs⟩ := by
    refine drop_encoded [quote] ?_ rfl p cs
    rcases hQuote with rfl | rfl <;> decide
  unfold string
  rw [hInside]
  exact scan_encode hQuote [] cs (p.after quote) [] [] fun _ hx => absurd hx List.not_mem_nil

-- ---------------------------------------------------------------------------
-- Marks
-- ---------------------------------------------------------------------------

/-- The bytes start with a spelling just if the text does. -/
theorem startsWith_encode {spelling : String} (h : IsAscii spelling.toList)
    (cs : List Char) : startsWith spelling (encode cs) = Lexer.startsWith spelling cs :=
  isPrefixOf_encode h cs

/-- A spelling that the text starts with is passed in bytes. -/
theorem pastSpelling_encode {spelling : String} {c : Cursor}
    (h : Lexer.startsWith spelling c.rest = true) :
    pastSpelling spelling c.encoded = (c.drop spelling.length).encoded := by
  obtain ⟨p, cs⟩ := c
  obtain ⟨rest, rfl⟩ := startsWith_iff.mp h
  have hLength : spelling.length = spelling.toList.length := String.length_toList.symm
  rw [hLength, Cursor.drop_append]
  show drop ⟨p, encode (spelling.toList ++ rest)⟩ _ = ⟨_, encode rest⟩
  rw [encode_append, ByteCursor.drop_append, afterBytes_encode]

/-- A loose comparison is passed in bytes, and reported, as it is in the text. -/
theorem looseComparison_encode {loose : String} (source : Source) (strict : Symbol) {c : Cursor}
    (h : Lexer.startsWith loose c.rest = true) :
    looseComparison source loose strict c.encoded =
      (Lexer.looseComparison source loose strict c).encoded := by
  unfold looseComparison
  rw [pastSpelling_encode h]
  rfl

/-- A character that starts no token is passed with all its bytes, and quoted as it is. -/
theorem stray_encode (source : Source) (h : Encodes ch b tail) (p : Position) (cs : List Char) :
    stray source b (Cursor.encoded ⟨p, ch :: cs⟩) = (Lexer.stray source ch ⟨p, ch :: cs⟩).encoded := by
  have hAfter : ((Cursor.encoded ⟨p, ch :: cs⟩).drop 1).dropWhile (fun x => decide (Continues x)) =
      Cursor.encoded (Cursor.drop ⟨p, ch :: cs⟩ 1) := by
    -- The rest of the stray character is passed, and the next one is where that ends.
    have hAll : ∀ x ∈ tail, decide (Continues x) = true := fun x hx =>
      decide_eq_true (h.continues x hx)
    have hEnd : (encode cs).takeWhile (fun x => decide (Continues x)) = [] ∧
        (encode cs).dropWhile (fun x => decide (Continues x)) = encode cs := by
      cases cs with
      | nil => exact ⟨rfl, rfl⟩
      | cons c cs =>
        obtain ⟨b', tail', h'⟩ := exists_encodes c
        rw [encode_cons, h'.eq, List.cons_append]
        have hFirst : ¬ decide (Continues b') = true := by simpa using h'.first
        exact ⟨List.takeWhile_cons_of_neg hFirst, List.dropWhile_cons_of_neg hFirst⟩
    have hDrop : (Cursor.encoded ⟨p, ch :: cs⟩).drop 1 = ⟨p.after ch, tail ++ encode cs⟩ := by
      show drop ⟨p, encode (ch :: cs)⟩ 1 = _
      rw [encode_cons, h.eq, ← afterByte_of_encodes h]
      rfl
    rw [hDrop, ByteCursor.dropWhile, List.takeWhile_append_of_pos hAll, List.dropWhile_append_of_pos hAll,
      hEnd.1, hEnd.2, List.append_nil, afterBytes_of_continues h.continues]
    rfl
  have hText : (Cursor.encoded (Cursor.drop ⟨p, ch :: cs⟩ 1)).textSince
      (Cursor.encoded ⟨p, ch :: cs⟩) = [ch] := textSince_encoded (Cursor.takes_char p ch cs)
  have hBitwise : b = 0x26 ∨ b = 0x7C ↔ ch = '&' ∨ ch = '|' :=
    or_congr (h.first_eq_iff (d := '&') (by decide)) (h.first_eq_iff (d := '|') (by decide))
  unfold stray Lexer.stray
  dsimp only
  rw [hAfter, hText]
  by_cases hOperator : ch = '&' ∨ ch = '|'
  · have hChar : asChar b = ch := h.asChar_eq (by rcases hOperator with rfl | rfl <;> decide)
    rw [if_pos (hBitwise.mpr hOperator), if_pos hOperator, hChar]
    rfl
  · rw [if_neg fun hb => hOperator (hBitwise.mp hb), if_neg hOperator]
    rfl

/-- The longest mark that the bytes start with is the longest one that the text starts with. -/
theorem mark_encode (source : Source) (h : Encodes ch b tail) (p : Position) (cs : List Char) :
    mark source b (Cursor.encoded ⟨p, ch :: cs⟩) = (Lexer.mark source ch ⟨p, ch :: cs⟩).encoded := by
  have hStarts (spelling : String) (hAscii : IsAscii spelling.toList) :
      startsWith spelling (Cursor.encoded ⟨p, ch :: cs⟩).rest =
        Lexer.startsWith spelling (ch :: cs) := startsWith_encode hAscii (ch :: cs)
  -- the spellings of all marks are plain, so both find the same one
  have hFind : Symbol.marks.find? (fun s => startsWith s.spelling (Cursor.encoded ⟨p, ch :: cs⟩).rest) =
      Symbol.marks.find? fun s => Lexer.startsWith s.spelling (ch :: cs) :=
    List.find?_congr fun s hs => hStarts s.spelling (isAscii_spelling s hs)
  unfold mark Lexer.mark
  rw [hFind, hStarts "==" (by decide), hStarts "===" (by decide), hStarts "!=" (by decide),
    hStarts "!==" (by decide)]
  dsimp only
  split
  · rename_i hLoose
    exact looseComparison_encode source .equal (Bool.and_eq_true_iff.mp hLoose).1
  · split
    · rename_i hLoose
      exact looseComparison_encode source .notEqual (Bool.and_eq_true_iff.mp hLoose).1
    · cases hMark : Symbol.marks.find? fun s => Lexer.startsWith s.spelling (ch :: cs) with
      | some s =>
        have hStart := List.find?_some hMark
        dsimp only
        rw [pastSpelling_encode (c := ⟨p, ch :: cs⟩) hStart]
        rfl
      | none => exact stray_encode source h p cs

-- ---------------------------------------------------------------------------
-- The whole text
-- ---------------------------------------------------------------------------

/-- By its first byte and the one behind it, a piece is known in bytes for what it is in the
text. -/
theorem piece_encode (source : Source) (h : Encodes ch b tail) (p : Position) (cs : List Char) :
    piece source b (Cursor.encoded ⟨p, ch :: cs⟩) =
      (Lexer.piece source ch ⟨p, ch :: cs⟩).encoded := by
  have hSlash : b = 0x2F ↔ ch = '/' := h.first_eq_iff (d := '/') (by decide)
  have hPoint : b = 0x2E ↔ ch = '.' := h.first_eq_iff (d := '.') (by decide)
  have hDouble : b = 0x22 ↔ ch = '"' := h.first_eq_iff (d := '"') (by decide)
  have hSingle : b = 0x27 ↔ ch = '\'' := h.first_eq_iff (d := '\'') (by decide)
  have hSecond : (ch :: cs)[1]? = cs.head? := by
    rw [List.getElem?_cons_succ, List.head?_eq_getElem?]
  -- behind an ASCII character the next byte is the first one of the next character
  have hNext (hch : ch.toNat < 0x80) :
      (Cursor.encoded ⟨p, ch :: cs⟩).rest[1]? = (encode cs).head? :=
    getElem?_encode [ch] (List.forall_mem_singleton.mpr hch) rfl cs
  have hMarks {d : Char} (hd : d.toNat < 0x80) :
      b = 0x2F ∧ (Cursor.encoded ⟨p, ch :: cs⟩).rest[1]? = some (UInt8.ofNat d.toNat) ↔
        ch = '/' ∧ (ch :: cs)[1]? = some d := by
    rw [hSlash, hSecond]
    refine and_congr_right fun hch => ?_
    rw [hNext (by rw [hch]; decide), head?_encode_eq_iff hd]
  have hLineMark : b = 0x2F ∧ (Cursor.encoded ⟨p, ch :: cs⟩).rest[1]? = some 0x2F ↔
      ch = '/' ∧ (ch :: cs)[1]? = some '/' := hMarks (d := '/') (by decide)
  have hBlockMark : b = 0x2F ∧ (Cursor.encoded ⟨p, ch :: cs⟩).rest[1]? = some 0x2A ↔
      ch = '/' ∧ (ch :: cs)[1]? = some '*' := hMarks (d := '*') (by decide)
  have hNumber : (isDigit b = true ∨
        b = 0x2E ∧ (Cursor.encoded ⟨p, ch :: cs⟩).rest[1]?.any isDigit = true) ↔
      (ch.isDigit = true ∨ ch = '.' ∧ (ch :: cs)[1]?.any Char.isDigit = true) := by
    rw [tells_isDigit.first h, hPoint, hSecond]
    refine or_congr Iff.rfl (and_congr_right fun hch => ?_)
    rw [hNext (by rw [hch]; decide), head?_encode tells_isDigit]
  unfold piece Lexer.piece
  dsimp only
  by_cases hBlank : Lexer.isBlank ch = true
  · rw [if_pos ((tells_isBlank.first h).trans hBlank), if_pos hBlank, dropWhile_encoded tells_isBlank]
    rfl
  rw [if_neg fun hb => hBlank ((tells_isBlank.first h).symm.trans hb), if_neg hBlank]
  by_cases hLine : ch = '/' ∧ (ch :: cs)[1]? = some '/'
  · have hTells : Tells (· != 0x0A) (· != '\n') := tells_bne (d := '\n') (by decide)
    rw [if_pos (hLineMark.mpr hLine), if_pos hLine, dropWhile_encoded hTells]
    rfl
  rw [if_neg fun hb => hLine (hLineMark.mp hb), if_neg hLine]
  by_cases hBlock : ch = '/' ∧ (ch :: cs)[1]? = some '*'
  · rw [if_pos (hBlockMark.mpr hBlock), if_pos hBlock]
    obtain ⟨rfl, hStar⟩ := hBlock
    obtain ⟨rest, rfl⟩ := List.head?_eq_some_iff.mp (hSecond.symm.trans hStar)
    exact blockComment_encode source p rest
  rw [if_neg fun hb => hBlock (hBlockMark.mp hb), if_neg hBlock]
  by_cases hQuote : ch = '"' ∨ ch = '\''
  · have hByte : b = quoteByte ch := by
      rcases hQuote with rfl | rfl
      · exact hDouble.mpr rfl
      · exact hSingle.mpr rfl
    rw [if_pos ((or_congr hDouble hSingle).mpr hQuote), if_pos hQuote, hByte]
    exact string_encode source hQuote p cs
  rw [if_neg fun hb => hQuote ((or_congr hDouble hSingle).mp hb), if_neg hQuote]
  by_cases hDigits : ch.isDigit = true ∨ ch = '.' ∧ (ch :: cs)[1]?.any Char.isDigit = true
  · rw [if_pos (hNumber.mpr hDigits), if_pos hDigits]
    exact number_encode _
  rw [if_neg fun hb => hDigits (hNumber.mp hb), if_neg hDigits]
  by_cases hWord : Lexer.isWordStart ch = true
  · rw [if_pos ((tells_isWordStart.first h).trans hWord), if_pos hWord]
    exact word_encode _
  rw [if_neg fun hb => hWord ((tells_isWordStart.first h).symm.trans hb), if_neg hWord]
  exact mark_encode source h p cs

/-- From every place on the text is cut in the same way, given rounds enough for all its
characters. -/
theorem loop_encode (source : Source) {rounds fuel : Nat} {c : Cursor}
    (hRounds : c.rest.length ≤ rounds) (hFuel : c.rest.length ≤ fuel) (tokens : List Token)
    (log : DiagnosticLog) :
    loop source rounds c.encoded tokens log = Lexer.loop source fuel c tokens log := by
  induction rounds generalizing fuel c tokens log with
  | zero =>
    have hNone : c.rest = [] := List.eq_nil_of_length_eq_zero (Nat.le_zero.mp hRounds)
    cases fuel with
    | zero => rfl
    | succ fuel =>
      rw [Lexer.loop, hNone]
      cases log.isFull <;> rfl
  | succ rounds ih =>
    obtain ⟨p, cs⟩ := c
    cases cs with
    | nil =>
      have hEmpty : loop source (rounds + 1) (Cursor.encoded ⟨p, []⟩) tokens log =
          Lexer.finish ⟨p, []⟩ tokens log := by
        rw [loop]
        cases log.isFull <;> rfl
      rw [hEmpty]
      cases fuel with
      | zero => rfl
      | succ fuel =>
        rw [Lexer.loop]
        cases log.isFull <;> rfl
    | cons ch cs =>
      cases fuel with
      | zero => cases hFuel
      | succ fuel =>
        obtain ⟨b, tail, h⟩ := exists_encodes ch
        have hBytes : (Cursor.encoded ⟨p, ch :: cs⟩).rest = b :: (tail ++ encode cs) := by
          rw [rest_encoded, encode_cons, h.eq, List.cons_append]
        -- what is left behind the piece is shorter by a character at least
        obtain ⟨text, hSome, hTakes⟩ := takes_piece source (c := ⟨p, ch :: cs⟩) rfl
        have hShorter : (Lexer.piece source ch ⟨p, ch :: cs⟩).after.rest.length < cs.length + 1 := by
          have hLength := congrArg List.length hTakes.1
          have hPart := List.length_pos_iff.mpr hSome
          rw [List.length_append, List.length_cons] at hLength
          omega
        rw [loop, Lexer.loop, hBytes]
        dsimp only
        rw [piece_encode source h]
        cases log.isFull with
        | true => rfl
        | false =>
          refine ih ?_ ?_ _ _
          · exact Nat.le_of_lt_succ (Nat.lt_of_lt_of_le hShorter hRounds)
          · exact Nat.le_of_lt_succ (Nat.lt_of_lt_of_le hShorter hFuel)

/-- A text that is cut byte by byte has the tokens, the places and the reports that it has when it
is cut character by character. -/
theorem run_eq (source : Source) : run source = Lexer.run source := by
  exact loop_encode source (c := Cursor.ofText source.text) (length_le_encode _) (Nat.le_refl _) []
    .empty

end Lexer.Bytes

end AmbScript
