import AmbScript.Proofs.Source.Encoding
import AmbScript.Proofs.Token.Heads

/-!
# String literals in bytes

A string literal can be read byte by byte. All bytes up to the next quote, backslash or line feed
make a chunk, and what the chunk encodes is added to the contents: nothing, if it encodes no text.
This comes to the same as reading characters. A chunk that starts at a character encodes a text; one
that starts within a character does not, and it starts there only behind an unknown escape.

* `Lexer.scan` — how a literal is read byte by byte.
* `Lexer.chunkText_encode` — the chunk that encodes a text adds that text.
* `Lexer.pastEscape_encode` — an escape passes two bytes, and leaves the rest of a wide character.
* `Lexer.scan_encode` — this is how a literal is read character by character.
-/

namespace AmbScript

-- ---------------------------------------------------------------------------
-- Reading by chunks
-- ---------------------------------------------------------------------------

namespace Lexer

/-- What was read of a row of bytes. -/
structure Scanned where
  kind : Option Token.Kind
  place : Position
  rest : List UInt8
  reports : List Diagnostic

/-- A piece of a text in bytes. -/
def Piece.encoded (p : Piece) : Scanned := ⟨p.kind, p.after.place, encode p.after.rest, p.reports⟩

/-- The text of a chunk: none if the bytes encode none. -/
def chunkText (bytes : List UInt8) : List Char :=
  ((String.fromUTF8? bytes.toByteArray).map String.toList).getD []

/-- Such a byte belongs to a chunk. -/
def isChunk (quote b : UInt8) : Bool := b != quote && b != 0x5C && b != 0x0A

/-- The bytes that are left of a text, and what was read of a literal before them. -/
structure Reading where
  bytes : List UInt8
  place : Position
  contents : List Char
  reports : List Diagnostic

/-- No character is written as a backslash and `c`. -/
def unknownEscape (source : Source) (c : Char) (span : Span) : Diagnostic :=
  .quoting source .unexpectedToken s!"Invalid escape sequence '\\{c}'" span

namespace Reading

/-- Past a chunk, the text of which is added to the contents. -/
def pastChunk (quote : UInt8) (r : Reading) : Reading :=
  let chunk := r.bytes.takeWhile (isChunk quote)
  { r with
    bytes := r.bytes.dropWhile (isChunk quote)
    place := r.place.afterBytes chunk
    contents := r.contents ++ chunkText chunk }

/-- Past a backslash and the byte behind it. An unknown escape stands for that byte. -/
def pastEscape (source : Source) (r : Reading) : Reading :=
  match r.bytes with
  | [] => r
  | [b] =>
    let after := r.place.afterByte b
    let report := Diagnostic.quoting source .unclosedDelimiter
      "Unexpected end of file in escape sequence" (Cursor.spanFrom ⟨after, []⟩ r.place)
    ⟨[], after, r.contents, r.reports ++ [report]⟩
  | b :: e :: rest =>
    let after := (r.place.afterByte b).afterByte e
    let c := Char.ofNat e.toNat
    match unescaped? c with
    | some d => ⟨rest, after, r.contents ++ [d], r.reports⟩
    | none =>
      let report := unknownEscape source c (Cursor.spanFrom ⟨after, []⟩ r.place)
      ⟨rest, after, r.contents ++ [c], r.reports ++ [report]⟩

/-- A chunk may be empty. -/
theorem length_pastChunk (quote : UInt8) (r : Reading) :
    (r.pastChunk quote).bytes.length ≤ r.bytes.length :=
  (List.dropWhile_suffix (isChunk quote)).length_le

/-- An escape passes at least one byte. -/
theorem length_pastEscape (source : Source) {r : Reading} (h : r.bytes ≠ []) :
    (r.pastEscape source).bytes.length < r.bytes.length := by
  unfold pastEscape
  split
  · next hNone => exact absurd hNone h
  · next hOne =>
    rw [hOne]
    exact Nat.zero_lt_one
  · next b e rest hMore =>
    rw [hMore]
    dsimp only
    split <;> simp only [List.length_cons] <;> omega

/-- The literal ends here although its quote is missing. -/
def unclosed (source : Source) (start : Position) (r : Reading) : Scanned :=
  let report := Diagnostic.quoting source .unclosedDelimiter "Unterminated string literal"
    (Cursor.spanFrom ⟨r.place, []⟩ start)
  ⟨some (.string (String.ofList r.contents)), r.place, r.bytes, r.reports ++ [report]⟩

end Reading

/-- Reads a string literal from behind its opening quote at `start` on, chunk by chunk. -/
def scan (source : Source) (quote : UInt8) (start : Position) (r : Reading) : Scanned :=
  match _ : (r.pastChunk quote).bytes with
  | [] => (r.pastChunk quote).unclosed source start
  | b :: rest =>
    let here := r.pastChunk quote
    if b = quote then
      ⟨some (.string (String.ofList here.contents)), here.place.afterByte b, rest, here.reports⟩
    else if b = 0x5C then scan source quote start (here.pastEscape source)
    else here.unclosed source start
termination_by r.bytes.length
decreasing_by
  rename_i hSome _ _
  refine Nat.lt_of_lt_of_le (Reading.length_pastEscape source ?_) (r.length_pastChunk quote)
  rw [hSome]
  exact List.cons_ne_nil _ _

-- ---------------------------------------------------------------------------
-- Rounds of the reading
-- ---------------------------------------------------------------------------

section rounds

variable {source : Source} {quote b : UInt8} {start p : Position} {chunk rest : List UInt8}
  {contents : List Char} {reports : List Diagnostic} {r : Reading}

/-- Of no bytes there is no text. -/
theorem chunkText_nil : chunkText [] = [] := by decide

/-- A chunk ends where the next byte is none of its. -/
theorem pastChunk_append (hChunk : ∀ b ∈ chunk, isChunk quote b = true)
    (hRest : ∀ b ∈ rest.head?, isChunk quote b = false) :
    Reading.pastChunk quote ⟨chunk ++ rest, p, contents, reports⟩ =
      ⟨rest, p.afterBytes chunk, contents ++ chunkText chunk, reports⟩ := by
  have hTake : (chunk ++ rest).takeWhile (isChunk quote) = chunk := by
    rw [List.takeWhile_append_of_pos hChunk]
    cases rest with
    | nil => exact List.append_nil chunk
    | cons b rest =>
      rw [List.takeWhile_cons_of_neg (Bool.eq_false_iff.mp (hRest b rfl)), List.append_nil]
  have hDrop : (chunk ++ rest).dropWhile (isChunk quote) = rest := by
    rw [List.dropWhile_append_of_pos hChunk]
    cases rest with
    | nil => rfl
    | cons b rest => exact List.dropWhile_cons_of_neg (Bool.eq_false_iff.mp (hRest b rfl))
  simp only [Reading.pastChunk, hTake, hDrop]

/-- Where no chunk is ahead, nothing is passed. -/
theorem pastChunk_eq_self (h : ∀ b ∈ r.bytes.head?, isChunk quote b = false) :
    r.pastChunk quote = r := by
  obtain ⟨bytes, place, contents, reports⟩ := r
  have hPast : Reading.pastChunk quote ⟨[] ++ bytes, place, contents, reports⟩ =
      ⟨bytes, place.afterBytes [], contents ++ chunkText [], reports⟩ :=
    pastChunk_append (fun _ hb => absurd hb List.not_mem_nil) h
  rwa [chunkText_nil, List.append_nil] at hPast

/-- Reading goes on behind the chunk. -/
theorem scan_chunk (hChunk : ∀ b ∈ chunk, isChunk quote b = true)
    (hRest : ∀ b ∈ rest.head?, isChunk quote b = false) :
    scan source quote start ⟨chunk ++ rest, p, contents, reports⟩ =
      scan source quote start
        ⟨rest, p.afterBytes chunk, contents ++ chunkText chunk, reports⟩ := by
  rw [scan, scan, pastChunk_append hChunk hRest]
  rw [pastChunk_eq_self (r := ⟨rest, _, _, _⟩) hRest]

/-- At the end of the text the literal is not closed. -/
theorem scan_end : scan source quote start ⟨[], p, contents, reports⟩ =
    Reading.unclosed source start ⟨[], p, contents, reports⟩ := by
  rw [scan, pastChunk_eq_self (fun _ hb => by cases hb)]

/-- Between two chunks there is a quote, a backslash or a line feed. -/
theorem scan_stop (h : isChunk quote b = false) :
    scan source quote start ⟨b :: rest, p, contents, reports⟩ =
      if b = quote then ⟨some (.string (String.ofList contents)), p.afterByte b, rest, reports⟩
      else if b = 0x5C then
        scan source quote start (Reading.pastEscape source ⟨b :: rest, p, contents, reports⟩)
      else Reading.unclosed source start ⟨b :: rest, p, contents, reports⟩ := by
  rw [scan, pastChunk_eq_self (fun _ hb => by cases hb; exact h)]

end rounds

-- ---------------------------------------------------------------------------
-- Chunks of a text
-- ---------------------------------------------------------------------------

/-- A quote is one byte. -/
def quoteByte (quote : Char) : UInt8 := UInt8.ofNat quote.toNat

/-- Such a character belongs to a chunk. -/
def isPlain (quote c : Char) : Bool := c != quote && c != '\\' && c != '\n'

section chunks

variable {quote c : Char} {b x : UInt8} {tail : List UInt8} {text : List Char} {p : Position}

/-- The first byte of a character belongs to a chunk just if the character stands for itself. -/
theorem isChunk_of_encodes (h : Encodes c b tail) (hQuote : quote.toNat < 0x80) :
    isChunk (quoteByte quote) b = isPlain quote c := by
  have hOne {d : Char} (hd : d.toNat < 0x80) : (b != UInt8.ofNat d.toNat) = (c != d) :=
    (tells_bne hd).first h
  have hEscape : (b != 0x5C) = (c != '\\') := hOne (d := '\\') (by decide)
  have hLine : (b != 0x0A) = (c != '\n') := hOne (d := '\n') (by decide)
  rw [isChunk, quoteByte, hOne hQuote, hEscape, hLine]
  rfl

/-- All later bytes of a character do. -/
theorem isChunk_of_continues (h : Continues x) (hQuote : quote.toNat < 0x80) :
    isChunk (quoteByte quote) x = true := by
  have hOne {n : Nat} (hn : n < 0x80) : x ≠ UInt8.ofNat n := by
    rintro rfl
    exact not_continues hn h
  rw [isChunk, Bool.and_eq_true, Bool.and_eq_true, bne_iff_ne, bne_iff_ne, bne_iff_ne]
  exact ⟨⟨hOne hQuote, hOne (n := 0x5C) (by decide)⟩, hOne (n := 0x0A) (by decide)⟩

/-- So a text of such characters is a chunk. -/
theorem isChunk_encode (hText : ∀ c ∈ text, isPlain quote c = true) (hQuote : quote.toNat < 0x80) :
    ∀ x ∈ encode text, isChunk (quoteByte quote) x = true := by
  intro x hx
  obtain ⟨c, hc, hxc⟩ := List.mem_flatMap.mp hx
  obtain ⟨b, tail, h⟩ := exists_encodes c
  rw [h.eq] at hxc
  rcases List.mem_cons.mp hxc with rfl | hTail
  · rw [isChunk_of_encodes h hQuote]
    exact hText c hc
  · exact isChunk_of_continues (h.continues x hTail) hQuote

/-- What encodes a text adds that text. -/
theorem chunkText_encode (text : List Char) : chunkText (encode text) = text := by
  have hDecoded : String.fromUTF8? (encode text).toByteArray = some (String.ofList text) :=
    dif_pos ⟨text, rfl⟩
  rw [chunkText, hDecoded]
  exact String.toList_ofList

/-- Bytes that start within a character encode no text. -/
theorem chunkText_within (hSome : tail ≠ []) (hTail : ∀ x ∈ tail, Continues x)
    (more : List UInt8) : chunkText (tail ++ more) = [] := by
  have hInvalid : ¬ (tail ++ more).toByteArray.IsValidUTF8 := by
    rintro ⟨text, hText⟩
    have hBytes : tail ++ more = encode text := List.toByteArray_inj.mp hText
    obtain ⟨x, tail, rfl⟩ := List.exists_cons_of_ne_nil hSome
    cases text with
    | nil => cases hBytes
    | cons c cs =>
      obtain ⟨b, tail', h⟩ := exists_encodes c
      rw [encode_cons, h.eq] at hBytes
      have hHead : x = b := (List.cons.inj hBytes).1
      exact h.first (hHead ▸ hTail x List.mem_cons_self)
  rw [chunkText, String.fromUTF8?, dif_neg hInvalid]
  rfl

end chunks

-- ---------------------------------------------------------------------------
-- The same by characters
-- ---------------------------------------------------------------------------

section characters

variable {source : Source} {quote e : Char} {start p : Position} {cs text : List Char}
  {muted : Bool} {contents : List Char} {reports : List Diagnostic}

/-- No escape is written with a wide character. -/
theorem unescaped?_of_wide {c : Char} (h : 0x80 ≤ c.toNat) : unescaped? c = none := by
  unfold unescaped?
  split <;> first | rfl | exact absurd h (by decide)

/-- The first byte of a character is an escape if the character is. -/
theorem unescaped?_leadByte (e : Char) : unescaped? (leadByte e) = unescaped? e := by
  obtain ⟨b, tail, h⟩ := exists_encodes e
  by_cases hWide : isWide e = true
  · rw [unescaped?_of_wide (of_decide_eq_true hWide), ← h.asChar, unescaped?_of_wide]
    exact Nat.le_trans (h.wide hWide).2 (Nat.le_of_eq (toNat_asChar b).symm)
  · have hLead : leadByte e = e := if_pos (by simpa [isWide] using hWide)
    rw [hLead]

/-- An escape is written with a narrow one. -/
theorem isWide_of_unescaped? {d : Char} (h : unescaped? e = some d) : isWide e = false := by
  refine Bool.eq_false_iff.mpr fun hWide => ?_
  rw [unescaped?_of_wide (of_decide_eq_true hWide)] at h
  cases h

/-- Characters that stand for themselves are added one by one, unless they are muted. -/
theorem stringLoop_text (hText : ∀ c ∈ text, isPlain quote c = true) :
    stringLoop source quote start (text ++ cs) p muted contents reports =
      stringLoop source quote start cs (p.afterText text) muted
        (if muted then contents else text.reverse ++ contents) reports := by
  induction text generalizing p contents with
  | nil =>
    rw [List.reverse_nil, List.nil_append, List.nil_append, ite_self]
    rfl
  | cons c text ih =>
    obtain ⟨hc, hRest⟩ := List.forall_mem_cons.mp hText
    simp only [isPlain, Bool.and_eq_true, bne_iff_ne] at hc
    have hNext : p.afterText (c :: text) = (p.after c).afterText text := rfl
    rw [List.cons_append, stringLoop_plain hc.1.1 hc.2 hc.1.2, ih hRest, hNext]
    cases muted
    · simp
    · rfl

/-- Of every text a part is in one chunk, up to a character that is in none. -/
theorem exists_plain (quote : Char) (cs : List Char) : ∃ text rest, cs = text ++ rest ∧
    (∀ c ∈ text, isPlain quote c = true) ∧ ∀ c ∈ rest.head?, isPlain quote c = false := by
  refine ⟨cs.takeWhile (isPlain quote), cs.dropWhile (isPlain quote),
    List.takeWhile_append_dropWhile.symm, List.all_eq_true.mp List.all_takeWhile, fun c hc => ?_⟩
  have hNot := List.head?_dropWhile_not (isPlain quote) cs
  rw [hc] at hNot
  exact hNot

/-- Past the chunk at the head of a text, or past the rest of one that began within a character. -/
theorem scan_text (hQuote : quote.toNat < 0x80) {tail : List UInt8}
    (hTail : ∀ x ∈ tail, Continues x) (hText : ∀ c ∈ text, isPlain quote c = true)
    (hStop : ∀ c ∈ cs.head?, isPlain quote c = false) :
    scan source (quoteByte quote) start ⟨tail ++ encode (text ++ cs), p, contents, reports⟩ =
      scan source (quoteByte quote) start
        ⟨encode cs, p.afterText text, if tail.isEmpty then contents ++ text else contents,
          reports⟩ := by
  have hChunk : ∀ b ∈ tail ++ encode text, isChunk (quoteByte quote) b = true :=
    List.forall_mem_append.mpr
      ⟨fun x hx => isChunk_of_continues (hTail x hx) hQuote, isChunk_encode hText hQuote⟩
  have hRest : ∀ b ∈ (encode cs).head?, isChunk (quoteByte quote) b = false := by
    cases cs with
    | nil => exact fun _ hb => by cases hb
    | cons c cs =>
      obtain ⟨b, tail, h⟩ := exists_encodes c
      rw [encode_cons, h.eq]
      rintro _ ⟨⟩
      rw [isChunk_of_encodes h hQuote]
      exact hStop c rfl
  -- the chunk begins within a character, whose end is passed without a change of place
  rw [encode_append, ← List.append_assoc, scan_chunk hChunk hRest, afterBytes_append,
    afterBytes_of_continues hTail, afterBytes_encode]
  by_cases hSome : tail = []
  · rw [hSome, List.nil_append, chunkText_encode]
    rfl
  · rw [chunkText_within hSome hTail, List.append_nil, if_neg (by simpa using hSome)]

/-- A literal that is not closed has what was read until then. -/
theorem unclosed_encode (source : Source) (start p : Position) (cs contents : List Char)
    (reports : List Diagnostic) :
    Reading.unclosed source start ⟨encode cs, p, contents, reports⟩ =
      (stringLoop.unterminated source start ⟨p, cs⟩ contents.reverse reports.reverse).encoded := by
  simp [Reading.unclosed, stringLoop.unterminated, Piece.encoded, Cursor.spanFrom]

/-- At the end of the text both say that the literal is not closed. -/
theorem scan_end_encode (source : Source) (quote : UInt8) (start p : Position)
    (contents : List Char) (reports : List Diagnostic) :
    scan source quote start ⟨encode [], p, contents, reports⟩ =
      (stringLoop.unterminated source start ⟨p, []⟩ contents.reverse reports.reverse).encoded :=
  scan_end.trans (unclosed_encode source start p [] contents reports)

/-- An escape stands for the same in bytes, and leaves the rest of a character if it is unknown. -/
theorem pastEscape_encode (source : Source) (quote : Char) (start p : Position) (e : Char)
    (cs contents : List Char) (reports : List Diagnostic) :
    ∃ tail contents' reports', (∀ x ∈ tail, Continues x) ∧
      Reading.pastEscape source ⟨encode ('\\' :: e :: cs), p, contents, reports⟩ =
        ⟨tail ++ encode cs, (p.after '\\').after e, contents', reports'⟩ ∧
      ∀ muted, stringLoop source quote start ('\\' :: e :: cs) p muted contents.reverse
          reports.reverse =
        stringLoop source quote start cs ((p.after '\\').after e) (!tail.isEmpty)
          contents'.reverse reports'.reverse := by
  obtain ⟨b, tail, h⟩ := exists_encodes e
  have hBytes : encode ('\\' :: e :: cs) = 0x5C :: b :: (tail ++ encode cs) := by
    rw [encode_cons, encode_cons, h.eq]
    rfl
  have hPlace : (p.afterByte 0x5C).afterByte b = (p.after '\\').after e :=
    afterByte_of_encodes h (p.after '\\')
  cases hEscape : unescaped? e with
  | some d =>
    have hNarrow := h.narrow (isWide_of_unescaped? hEscape)
    refine ⟨tail, contents ++ [d], reports, h.continues, ?_, fun muted => ?_⟩
    · simp only [hBytes, Reading.pastEscape, hPlace, h.asChar, unescaped?_leadByte, hEscape]
    · rw [stringLoop_escape hEscape, hNarrow.1, List.reverse_append]
      rfl
  | none =>
    -- Bytes are left over just if the character has more than one.
    have hMuted : isWide e = !tail.isEmpty := by
      cases hWide : isWide e with
      | true => simp [(h.wide hWide).1]
      | false => simp [(h.narrow hWide).1]
    have hReverse {α : Type} (xs : List α) (x : α) : (xs ++ [x]).reverse = x :: xs.reverse :=
      List.reverse_append
    let report := unknownEscape source (leadByte e)
      (Cursor.spanFrom ⟨(p.after '\\').after e, cs⟩ p)
    refine ⟨tail, contents ++ [leadByte e], reports ++ [report], h.continues, ?_, fun muted => ?_⟩
    · simp only [hBytes, Reading.pastEscape, hPlace, h.asChar, unescaped?_leadByte, hEscape]
      rfl
    · rw [hReverse, hReverse, stringLoop, hEscape, hMuted]
      rfl

/-- At a character that is in no chunk. -/
theorem scan_stop_encode (hQuote : quote.toNat < 0x80) {c : Char}
    (hStop : isPlain quote c = false) :
    scan source (quoteByte quote) start ⟨encode (c :: cs), p, contents, reports⟩ =
      if c = quote then ⟨some (.string (String.ofList contents)), p.after c, encode cs, reports⟩
      else if c = '\\' then
        scan source (quoteByte quote) start
          (Reading.pastEscape source ⟨encode (c :: cs), p, contents, reports⟩)
      else Reading.unclosed source start ⟨encode (c :: cs), p, contents, reports⟩ := by
  obtain ⟨b, tail, h⟩ := exists_encodes c
  have hStops : isChunk (quoteByte quote) b = false := by rw [isChunk_of_encodes h hQuote, hStop]
  have hBytes : encode (c :: cs) = b :: (tail ++ encode cs) := by
    rw [encode_cons, h.eq, List.cons_append]
  have hCloses : b = quoteByte quote ↔ c = quote := h.first_eq_iff hQuote
  have hEscapes : b = 0x5C ↔ c = '\\' := h.first_eq_iff (d := '\\') (by decide)
  rw [hBytes, scan_stop hStops]
  simp only [hCloses, hEscapes]
  refine ite_congr rfl (fun hClose => ?_) fun _ => rfl
  -- a quote is one byte, so nothing of it is left
  have hNone : tail = [] :=
    (h.narrow (decide_eq_false (hClose ▸ Nat.not_le.mpr hQuote))).1
  rw [hNone, afterByte_of_encodes h]
  rfl

/-- Behind the last character of a text there is nothing to escape. -/
theorem scan_loneEscape (hQuote : '\\' ≠ quote) :
    scan source (quoteByte quote) start
        (Reading.pastEscape source ⟨encode ['\\'], p, contents, reports⟩) =
      (stringLoop source quote start ['\\'] p muted contents.reverse reports.reverse).encoded := by
  let after := p.after '\\'
  let report := Diagnostic.quoting source .unclosedDelimiter
    "Unexpected end of file in escape sequence" (Cursor.spanFrom ⟨after, []⟩ p)
  have hPast : Reading.pastEscape source ⟨encode ['\\'], p, contents, reports⟩ =
      ⟨encode [], after, contents, reports ++ [report]⟩ := rfl
  rw [hPast, scan_end_encode, List.reverse_append, stringLoop, if_neg hQuote,
    if_neg (by decide), if_pos rfl]
  · rfl
  · exact fun _ _ _ hText => by cases hText

/-- Read byte by byte a literal comes to the same as by characters, also from within a character on,
whose rest is then muted. -/
theorem scan_encode (hQuote : quote = '"' ∨ quote = '\'') (tail : List UInt8) (cs : List Char)
    (p : Position) (contents : List Char) (reports : List Diagnostic)
    (hTail : ∀ x ∈ tail, Continues x) :
    scan source (quoteByte quote) start ⟨tail ++ encode cs, p, contents, reports⟩ =
      (stringLoop source quote start cs p (!tail.isEmpty) contents.reverse
        reports.reverse).encoded := by
  have hAscii : quote.toNat < 0x80 := by rcases hQuote with rfl | rfl <;> decide
  have hNotEscape : quote ≠ '\\' := by rcases hQuote with rfl | rfl <;> decide
  -- By the number of characters: each round takes a whole chunk and the escape behind it. The chunk
  -- is muted if it starts with bytes that an unknown escape has left of its character.
  induction hLength : cs.length using Nat.strongRecOn generalizing cs tail p contents reports with
  | ind n ih =>
    obtain ⟨text, rest, rfl, hText, hStop⟩ := exists_plain quote cs
    rw [scan_text hAscii hTail hText hStop, stringLoop_text hText]
    have hContents : (if (!tail.isEmpty) = true then contents.reverse
        else text.reverse ++ contents.reverse) =
        (if tail.isEmpty then contents ++ text else contents).reverse := by
      cases tail <;> simp
    rw [hContents]
    generalize (if tail.isEmpty then contents ++ text else contents) = contents'
    generalize p.afterText text = p'
    cases rest with
    | nil => rw [scan_end_encode, stringLoop]
    | cons c rest =>
      have hPlain : isPlain quote c = false := hStop c rfl
      rw [scan_stop_encode hAscii hPlain]
      by_cases hClose : c = quote
      · rw [if_pos hClose, hClose, stringLoop_close hNotEscape]
        simp [Piece.encoded]
      · rw [if_neg hClose]
        by_cases hEscape : c = '\\'
        · subst hEscape
          rw [if_pos rfl]
          cases rest with
          | nil => exact scan_loneEscape hClose
          | cons e rest =>
            obtain ⟨tail', contents'', reports'', hTail', hPast, hLoop⟩ :=
              pastEscape_encode source quote start p' e rest contents' reports
            rw [hPast, hLoop]
            refine ih rest.length ?_ tail' rest _ contents'' reports'' hTail' rfl
            rw [← hLength]
            simp only [List.length_append, List.length_cons]
            omega
        · have hLine : c = '\n' := by simpa [isPlain, hClose, hEscape] using hPlain
          rw [if_neg hEscape, unclosed_encode, stringLoop, if_neg hClose, if_pos hLine]
          exact fun _ _ hText _ => hEscape hText

end characters

end Lexer

end AmbScript
