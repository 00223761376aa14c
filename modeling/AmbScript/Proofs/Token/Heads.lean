import AmbScript.Proofs.Token.Gaps

/-!
# Texts that are cut off as a token

A token without fault is decided by its own characters and by those that could have continued it:
it stays that token in front of any start of what follows it in the text.

* `Lexer.Heads` — a text that is a token wherever it stands before a start of the same rest.
* `Lexer.heads_string`, `Lexer.heads_number`, `Lexer.heads_word`, `Lexer.heads_mark` — one lemma for
  each class of tokens.
* `Lexer.heads_of_piece` — each token of a text that nothing is reported of is one of these.

That a rest may be cut short, down to nothing, makes each token stand alone as well; that it may not
be replaced by something else is needed because `1` in front of `2` is another number. Both are said
by a start of the same rest.
-/

namespace AmbScript.Lexer

variable {source : Source} {ch : Char} {p : Position} {c : Cursor} {k : Token.Kind}
  {text rest cs : List Char}

-- ---------------------------------------------------------------------------
-- Tokens
-- ---------------------------------------------------------------------------

/-- Wherever `text` stands before a start of `rest`, it is cut off as the token `k`, without a
report. It is a part of a line, and none that could be taken for a part of a line end. -/
structure Heads (k : Token.Kind) (text rest : List Char) : Prop where
  nonempty : text ≠ []
  oneLine : '\n' ∉ text
  noReturn : text.getLast? ≠ some '\r'
  cut : ∀ (source : Source) (p : Position) (ch : Char) (r : List Char), text.head? = some ch →
    r <+: rest → piece source ch ⟨p, text ++ r⟩ = ⟨some k, ⟨p.afterText text, r⟩, []⟩

/-- A text without blanks is a part of a line. -/
theorem Heads.of_solid (hText : text ≠ []) (hSolid : ∀ c ∈ text, isBlank c = false)
    (hCut : ∀ (source : Source) (p : Position) (ch : Char) (r : List Char), text.head? = some ch →
      r <+: rest → piece source ch ⟨p, text ++ r⟩ = ⟨some k, ⟨p.afterText text, r⟩, []⟩) :
    Heads k text rest where
  nonempty := hText
  oneLine h := absurd (hSolid _ h) (by decide)
  noReturn h := absurd (hSolid _ (List.mem_of_getLast? h)) (by decide)
  cut := hCut

section strings

variable {quote : Char} {start : Position} {muted : Bool} {contents : List Char}
  {reports : List Diagnostic}

/-- The quote closes the literal. -/
theorem stringLoop_close (h : quote ≠ '\\') :
    stringLoop source quote start (quote :: cs) p muted contents reports =
      ⟨some (.string (String.ofList contents.reverse)), ⟨p.after quote, cs⟩, reports.reverse⟩ := by
  rw [stringLoop, if_pos rfl]
  exact fun _ _ hText _ => h hText

/-- A character stands for itself. -/
theorem stringLoop_plain {c : Char} (hQuote : c ≠ quote) (hLine : c ≠ '\n') (hEscape : c ≠ '\\') :
    stringLoop source quote start (c :: cs) p muted contents reports =
      stringLoop source quote start cs (p.after c) muted (if muted then contents else c :: contents)
        reports := by
  rw [stringLoop, if_neg hQuote, if_neg hLine, if_neg hEscape]
  exact fun _ _ hText _ => hEscape hText

/-- An escape stands for another character. -/
theorem stringLoop_escape {e c : Char} (h : unescaped? e = some c) :
    stringLoop source quote start ('\\' :: e :: cs) p muted contents reports =
      stringLoop source quote start cs ((p.after '\\').after e) false (c :: contents) reports := by
  rw [stringLoop, h]

/-- Reports are only ever added. -/
theorem reports_stringLoop
    (h : (stringLoop source quote start cs p muted contents reports).reports = []) :
    reports = [] := by
  fun_induction stringLoop source quote start cs p muted contents reports with
  | case1 _ _ _ _ _ _ _ _ ih | case6 _ _ _ _ _ _ _ _ _ _ ih => exact ih h
  | case2 _ _ _ _ _ _ _ _ _ _ ih => cases ih h
  | case3 => exact List.reverse_eq_nil_iff.mp h
  | case4 | case5 | case7 =>
    exact absurd (List.reverse_eq_nil_iff.mp h) (List.cons_ne_nil _ _)

/-- A string literal without fault ends with its quote, and what stands behind does not matter. -/
theorem exists_of_stringLoop (hQuote : quote = '"' ∨ quote = '\'')
    (h : (stringLoop source quote start cs p muted contents reports).reports = []) :
    ∃ text, Cursor.Takes ⟨p, cs⟩ text
        (stringLoop source quote start cs p muted contents reports).after ∧
      '\n' ∉ text ∧ text.getLast? = some quote ∧
      ∀ (source' : Source) (start' p' : Position) (r : List Char),
        stringLoop source' quote start' (text ++ r) p' muted contents [] =
          ⟨(stringLoop source quote start cs p muted contents reports).kind,
            ⟨p'.afterText text, r⟩, []⟩ := by
  have hNotEscape : quote ≠ '\\' := by rcases hQuote with rfl | rfl <;> decide
  have hNotLine : '\n' ≠ quote := by rcases hQuote with rfl | rfl <;> decide
  -- by induction on the scan; without a report it comes to the closing quote, and it looks at
  -- nothing behind that
  fun_induction stringLoop source quote start cs p muted contents reports with
  | case1 e cs p muted contents reports c hEscape ih =>
    obtain ⟨text, hTakes, hLine, hLast, hCut⟩ := ih h
    have hText : text ≠ [] := by
      rintro rfl
      cases hLast
    have hNext : '\n' ≠ e := by
      rintro rfl
      cases hEscape
    refine ⟨'\\' :: e :: text, ((Cursor.takes_char p _ _).append (Cursor.takes_char _ e cs)).append
      hTakes, ?_, ?_, fun source' start' p' r => ?_⟩
    · simp only [List.mem_cons, not_or]
      exact ⟨by decide, hNext, hLine⟩
    · rw [List.getLast?_cons_of_ne_nil (List.cons_ne_nil _ _), List.getLast?_cons_of_ne_nil hText]
      exact hLast
    · rw [List.cons_append, List.cons_append, stringLoop_escape hEscape, hCut]
      rfl
  | case2 e cs p muted contents reports hEscape c after report ih =>
    cases reports_stringLoop h
  | case3 cs p muted contents reports hNot =>
    refine ⟨[quote], Cursor.takes_char _ _ _, ?_, rfl, fun source' start' p' r => ?_⟩
    · simpa using hNotLine
    · exact stringLoop_close hNotEscape
  | case6 c cs p muted contents reports hNot hPlain hLine hEscape ih =>
    obtain ⟨text, hTakes, hRest, hLast, hCut⟩ := ih h
    have hText : text ≠ [] := by
      rintro rfl
      cases hLast
    refine ⟨c :: text, (Cursor.takes_char p c cs).append hTakes, ?_, ?_, fun source' start' p' r => ?_⟩
    · simp only [List.mem_cons, not_or]
      exact ⟨Ne.symm hLine, hRest⟩
    · rw [List.getLast?_cons_of_ne_nil hText]
      exact hLast
    · rw [List.cons_append, stringLoop_plain hPlain hLine hEscape, hCut]
      rfl
  | case4 | case5 | case7 =>
    exact absurd (List.reverse_eq_nil_iff.mp h) (List.cons_ne_nil _ _)

end strings

-- Which kind of piece stands at the head of a text is decided by its first character, except for a
-- slash and a point.

/-- A quote begins a string literal. -/
theorem piece_quote (h : ch = '"' ∨ ch = '\'') : piece source ch c = string source ch c := by
  rcases h with rfl | rfl <;> rfl

/-- A digit begins a number, and so does a point with a digit behind it. -/
theorem piece_number (h : ch.isDigit = true ∨ ch = '.' ∧ c.rest[1]?.any Char.isDigit = true) :
    piece source ch c = number c := by
  have hBlank : isBlank ch = false := by
    rcases h with h | ⟨rfl, -⟩
    · exact isBlank_of_class (p := Char.isDigit) (by decide) h
    · decide
  have hNot (b : Char) (hDigit : b.isDigit = false) (hPoint : b ≠ '.') : ch ≠ b := by
    rintro rfl
    rcases h with h | ⟨h, -⟩
    · rw [h] at hDigit
      cases hDigit
    · exact hPoint h
  unfold piece
  dsimp only
  -- no piece that is told before a number begins with a digit or a point
  rw [if_neg (by rw [hBlank]; decide), if_neg fun hs => hNot '/' (by decide) (by decide) hs.1,
    if_neg fun hs => hNot '/' (by decide) (by decide) hs.1, if_neg, if_pos h]
  rintro (hq | hq)
  · exact hNot '"' (by decide) (by decide) hq
  · exact hNot '\'' (by decide) (by decide) hq

/-- No name starts with a digit. -/
theorem isDigit_of_isWordStart (h : isWordStart ch = true) : ch.isDigit = false := by
  rw [isWordStart, Bool.or_eq_true_iff, Bool.or_eq_true_iff] at h
  rcases h with (h | h) | h
  · have hLetter : ch.isUpper = true ∨ ch.isLower = true := Bool.or_eq_true_iff.mp h
    have hLeast : 'A'.val ≤ ch.val := by
      rcases hLetter with hUpper | hLower
      · exact (of_decide_eq_true hUpper).1
      · have hSmall : 'a'.val ≤ ch.val := of_decide_eq_true (Bool.and_eq_true_iff.mp hLower).1
        exact UInt32.le_trans (by decide) hSmall
    refine Bool.eq_false_iff.mpr fun hDigit => ?_
    have hMost : ch.val ≤ '9'.val := of_decide_eq_true (Bool.and_eq_true_iff.mp hDigit).2
    exact absurd (UInt32.le_trans hLeast hMost) (by decide)
  · rw [of_decide_eq_true h]
    decide
  · rw [of_decide_eq_true h]
    decide

/-- What a name starts with begins a word. -/
theorem piece_word (h : isWordStart ch = true) : piece source ch c = word c := by
  have hBlank : isBlank ch = false := isBlank_of_class (p := isWordStart) (by decide) h
  have hNot (b : Char) (hWord : isWordStart b = false) : ch ≠ b := by
    rintro rfl
    rw [h] at hWord
    cases hWord
  unfold piece
  dsimp only
  rw [if_neg (by rw [hBlank]; decide), if_neg fun hs => hNot '/' (by decide) hs.1,
    if_neg fun hs => hNot '/' (by decide) hs.1, if_neg, if_neg, if_pos h]
  · rintro (hDigit | ⟨hPoint, -⟩)
    · rw [isDigit_of_isWordStart h] at hDigit
      cases hDigit
    · exact hNot '.' (by decide) hPoint
  · rintro (hq | hq)
    · exact hNot '"' (by decide) hq
    · exact hNot '\'' (by decide) hq

theorem heads_string {after : Cursor} (hQuote : ch = '"' ∨ ch = '\'')
    (h : string source ch ⟨p, ch :: cs⟩ = ⟨some k, after, []⟩) :
    ∃ text, Cursor.Takes ⟨p, ch :: cs⟩ text after ∧ Heads k text after.rest := by
  have hLoop : stringLoop source ch p cs (p.after ch) false [] [] = ⟨some k, after, []⟩ := h
  have hQuiet : (stringLoop source ch p cs (p.after ch) false [] []).reports = [] := by rw [hLoop]
  obtain ⟨text, hTakes, hLine, hLast, hCut⟩ := exists_of_stringLoop hQuote hQuiet
  rw [hLoop] at hTakes hCut
  have hText : text ≠ [] := by
    rintro rfl
    cases hLast
  refine ⟨ch :: text, (Cursor.takes_char p ch cs).append hTakes, List.cons_ne_nil _ _, ?_, ?_,
    fun source' p' ch' r hHead hr => ?_⟩
  · rw [List.mem_cons, not_or]
    refine ⟨?_, hLine⟩
    rcases hQuote with rfl | rfl <;> decide
  · rw [List.getLast?_cons_of_ne_nil hText, hLast]
    rcases hQuote with rfl | rfl <;> decide
  -- the closing quote is part of the text, so a longer one is cut at the same place
  · obtain rfl : ch = ch' := Option.some.inj hHead
    rw [piece_quote hQuote]
    exact hCut source' p' (p'.after ch) r

/-- The first characters of a text, as many as there are in the text. -/
theorem exists_taken {n : Nat} {after : Cursor} (h : c.drop n = after) (hn : n ≤ c.rest.length) :
    ∃ text, text.length = n ∧ text = c.rest.take n ∧ c.Takes text after := by
  refine ⟨c.rest.take n, List.length_take_of_le hn, rfl, ?_⟩
  rw [← h]
  exact c.takes_drop n

/-- A number is told by its numeral. -/
theorem number_eq (c : Cursor) : number c =
    ⟨some (.number (numeral c.rest).1.toFloat), c.drop (numeral c.rest).2, []⟩ := rfl

/-- A point is not a numeral without the digit behind it. -/
theorem numeral_start (h : ch.isDigit = true ∨ ch = '.' ∧ cs.head?.any Char.isDigit = true) :
    0 < (numeral (ch :: cs)).2 ∧ (ch = '.' →
      ∃ d ds, (ch :: cs).take (numeral (ch :: cs)).2 = '.' :: d :: ds ∧ d.isDigit = true) := by
  rcases h with hDigit | ⟨rfl, hNext⟩
  · refine ⟨numeral_pos_of_isDigit hDigit, ?_⟩
    rintro rfl
    cases hDigit
  · cases cs with
    | nil => cases hNext
    | cons d cs =>
      have hLong : 1 < (numeral ('.' :: d :: cs)).2 := numeral_of_point hNext
      obtain ⟨n, hn⟩ : ∃ n, (numeral ('.' :: d :: cs)).2 = n + 2 :=
        ⟨_, (Nat.sub_add_cancel hLong).symm⟩
      rw [hn]
      exact ⟨Nat.succ_pos _, fun _ => ⟨d, cs.take n, rfl, hNext⟩⟩

theorem heads_number {after : Cursor}
    (hNumber : ch.isDigit = true ∨ ch = '.' ∧ cs.head?.any Char.isDigit = true)
    (h : number ⟨p, ch :: cs⟩ = ⟨some k, after, []⟩) :
    ∃ text, Cursor.Takes ⟨p, ch :: cs⟩ text after ∧ Heads k text after.rest := by
  rw [number_eq] at h
  obtain ⟨hKind, hAfter, -⟩ := Piece.mk.inj h
  obtain ⟨text, hLength, hTaken, hTakes⟩ := exists_taken hAfter (numeral_le (ch :: cs))
  obtain ⟨hPos, hPoint⟩ := numeral_start hNumber
  have hText : text ≠ [] := List.ne_nil_of_length_pos (hLength ▸ hPos)
  refine ⟨text, hTakes, .of_solid hText (fun c hc => ?_) fun source' p' ch' r hHead hr => ?_⟩
  · rw [hTaken] at hc
    exact isBlank_of_mem_numeral hc
  · have hNumeral : numeral (text ++ r) = numeral (ch :: cs) := by
      refine numeral_of_isPrefix (hTakes.prefix_append hr) ?_
      rw [List.length_append, hLength]
      exact Nat.le_add_right _ _
    obtain rfl := hTakes.head hHead
    rw [piece_number, number_eq, hNumeral, hKind, ← hLength, Cursor.drop_append]
    rcases hNumber with hDigit | ⟨rfl, -⟩
    · exact .inl hDigit
    -- A number that starts with its point has a digit behind it, which belongs to the number
    -- itself.
    · obtain ⟨d, ds, hStart, hDigit⟩ := hPoint rfl
      refine .inr ⟨rfl, ?_⟩
      rw [hTaken, show ({ place := p, rest := '.' :: cs } : Cursor).rest = '.' :: cs from rfl, hStart]
      exact hDigit

/-- What a word stands for. -/
def wordKind (text : List Char) : Token.Kind :=
  match Symbol.ofKeyword? (String.ofList text) with
  | some s => .symbol s
  | none => .name (String.ofList text)

/-- A word is told by its characters. -/
theorem word_eq (c : Cursor) : word c =
    ⟨some (wordKind (c.rest.takeWhile isWord)), c.drop (c.rest.takeWhile isWord).length, []⟩ := by
  rw [← c.dropWhile_eq_drop]
  rfl

/-- Names, and the words of the language. -/
theorem heads_word {after : Cursor} (hWord : isWordStart ch = true)
    (h : word ⟨p, ch :: cs⟩ = ⟨some k, after, []⟩) :
    ∃ text, Cursor.Takes ⟨p, ch :: cs⟩ text after ∧ Heads k text after.rest := by
  rw [word_eq] at h
  obtain ⟨hKind, hAfter, -⟩ := Piece.mk.inj h
  have hRun : (ch :: cs).takeWhile isWord ≠ [] := by
    rw [List.takeWhile_cons_of_pos (isWord_of_isWordStart hWord)]
    exact List.cons_ne_nil _ _
  obtain ⟨text, hLength, hTaken, hTakes⟩ :=
    exists_taken hAfter (List.takeWhile_prefix isWord (l := ch :: cs)).length_le
  rw [← takeWhile_eq_take] at hTaken
  obtain rfl : text = (ch :: cs).takeWhile isWord := hTaken
  refine ⟨_, hTakes, .of_solid hRun (fun c hc => ?_) fun source' p' ch' r hHead hr => ?_⟩
  · exact isBlank_of_class (p := isWord) (by decide)
      (List.all_eq_true.mp (List.all_takeWhile (p := isWord) (l := ch :: cs)) c hc)
  -- a longer text starts with the same word, if what is added is part of the rest
  · have hSame : ((ch :: cs).takeWhile isWord ++ r).takeWhile isWord = (ch :: cs).takeWhile isWord := by
      refine takeWhile_of_isPrefix (hTakes.prefix_append hr) ?_
      rw [List.length_append]
      exact Nat.le_add_right _ _
    obtain rfl := hTakes.head hHead
    rw [piece_word hWord, word_eq, hSame, Cursor.drop_append]
    exact congrArg (fun k => Piece.mk k _ []) hKind

/-- The character before `next` starts neither a gap nor a literal nor a word. -/
structure OnMark (ch : Char) (next : Option Char) : Prop where
  notBlank : ¬isBlank ch = true
  notComment : ¬(ch = '/' ∧ (next = some '/' ∨ next = some '*'))
  notQuote : ¬(ch = '"' ∨ ch = '\'')
  notNumber : ¬(ch.isDigit = true ∨ ch = '.' ∧ next.any Char.isDigit = true)
  notWord : ¬isWordStart ch = true

/-- Where nothing else begins, a mark does. -/
theorem OnMark.piece_eq (h : OnMark ch c.rest[1]?) : piece source ch c = mark source ch c := by
  unfold piece
  dsimp only
  rw [if_neg h.notBlank, if_neg fun hs => h.notComment ⟨hs.1, .inl hs.2⟩,
    if_neg fun hs => h.notComment ⟨hs.1, .inr hs.2⟩, if_neg h.notQuote, if_neg h.notNumber,
    if_neg h.notWord]

/-- Without a second character there is nothing that it could begin. -/
theorem OnMark.of_none {next : Option Char} (h : OnMark ch next) : OnMark ch none where
  notBlank := h.notBlank
  notComment hs := by rcases hs.2 with hs | hs <;> cases hs
  notQuote := h.notQuote
  notNumber hs := by
    rcases hs with hs | ⟨-, hs⟩
    · exact h.notNumber (.inl hs)
    · cases hs
  notWord := h.notWord

/-- Nor does it begin more in a part of the text than in the whole. -/
theorem OnMark.of_isPrefix {u : List Char} (h : OnMark ch cs.head?) (hPrefix : u <+: ch :: cs) :
    OnMark ch u[1]? := by
  rcases u with - | ⟨d, - | ⟨e, u⟩⟩
  · exact h.of_none
  · exact h.of_none
  · obtain ⟨-, hNext⟩ := List.cons_prefix_cons.mp hPrefix
    obtain ⟨v, rfl⟩ := hNext
    exact h

/-- A text starts with a spelling if the spelling is at its head. -/
theorem startsWith_iff {spelling : String} : startsWith spelling cs = true ↔ spelling.toList <+: cs :=
  List.isPrefixOf_iff_prefix

section marks

variable {u : List Char} {s : Symbol} {spelling : String}

/-- A longer text starts with it, too. -/
theorem startsWith_mono (h : u <+: cs) (hStart : startsWith spelling u = true) :
    startsWith spelling cs = true :=
  startsWith_iff.mpr ((startsWith_iff.mp hStart).trans h)

theorem startsWith_of_isPrefix (h : u <+: cs) (hLength : spelling.length ≤ u.length)
    (hStart : startsWith spelling cs = true) : startsWith spelling u = true := by
  rw [startsWith_iff] at hStart ⊢
  refine List.prefix_of_prefix_length_le hStart h ?_
  rw [String.length_toList]
  exact hLength

/-- The text starts with this mark. -/
def startsWithMark (cs : List Char) (s : Symbol) : Bool := startsWith s.spelling cs

/-- The first mark that a text starts with. -/
def mark? (cs : List Char) : Option Symbol := Symbol.marks.find? (startsWithMark cs)

/-- The longest of the marks comes first. -/
theorem mark?_equal (h : startsWithMark cs .equal = true) : mark? cs = some .equal :=
  List.find?_cons_of_pos h

theorem mark?_notEqual (h : startsWithMark cs .notEqual = true) : mark? cs = some .notEqual := by
  have hFirst : ¬startsWithMark cs .equal = true := by
    intro hEqual
    obtain ⟨a, rfl⟩ := startsWith_iff.mp h
    obtain ⟨b, hText⟩ := startsWith_iff.mp hEqual
    cases hText
  rw [mark?, Symbol.marks, List.find?_cons_of_neg hFirst, List.find?_cons_of_pos h]

/-- The mark that is found is there. -/
theorem startsWith_of_mark? (h : mark? cs = some s) : startsWith s.spelling cs = true := by
  have hStart : startsWithMark cs s = true := List.find?_some h
  exact hStart

/-- The first mark is the same in every part of the text that holds it. -/
theorem mark?_of_isPrefix (h : mark? cs = some s) (hPrefix : u <+: cs)
    (hLength : s.spelling.length ≤ u.length) : mark? u = some s := by
  obtain ⟨hStart, as, bs, hMarks, hBefore⟩ := List.find?_eq_some_iff_append.mp h
  refine List.find?_eq_some_iff_append.mpr
    ⟨startsWith_of_isPrefix hPrefix hLength hStart, as, bs, hMarks, fun t ht => ?_⟩
  rw [Bool.not_eq_true', Bool.eq_false_iff]
  intro hOther
  have hEarlier : startsWithMark cs t = true := startsWith_mono hPrefix hOther
  have hNot := hBefore t ht
  rw [hEarlier] at hNot
  cases hNot

/-- The text starts with a comparison in its loose spelling. -/
def isLoose (loose strict : String) (cs : List Char) : Bool :=
  startsWith loose cs && !startsWith strict cs

/-- A part of the text that holds its first mark has no loose comparison that the text has not. -/
theorem isLoose_of_isPrefix {loose strict : String} (hPrefix : u <+: cs) (hMark : mark? cs = some s)
    (hLength : s.spelling.length ≤ u.length)
    (hStrict : startsWith strict cs = true → s.spelling = strict)
    (hNot : ¬isLoose loose strict cs = true) : ¬isLoose loose strict u = true := by
  intro hLoose
  rw [isLoose, Bool.and_eq_true_iff, Bool.not_eq_true'] at hLoose
  refine hNot (Bool.and_eq_true_iff.mpr ⟨startsWith_mono hPrefix hLoose.1, ?_⟩)
  rw [Bool.not_eq_true', Bool.eq_false_iff]
  intro hStart
  have hShort := startsWith_of_isPrefix hPrefix hLength (startsWith_of_mark? hMark)
  rw [hStrict hStart, hLoose.2] at hShort
  cases hShort

end marks

/-- How a mark is cut, all cases in one. -/
theorem mark_eq (source : Source) (ch : Char) (c : Cursor) : mark source ch c =
    if isLoose "==" "===" c.rest then looseComparison source "==" .equal c
    else if isLoose "!=" "!==" c.rest then looseComparison source "!=" .notEqual c
    else match mark? c.rest with
      | some s => ⟨some (.symbol s), c.drop s.spelling.length, []⟩
      | none => stray source ch c := rfl

/-- No mark has a blank in it. -/
theorem spelling_solid {s : Symbol} (hs : s ∈ Symbol.marks) {c : Char} (hc : c ∈ s.spelling.toList) :
    isBlank c = false := by
  have hAll : Symbol.marks.all (fun s => s.spelling.toList.all fun c => !isBlank c) = true := by decide
  simpa using List.all_eq_true.mp (List.all_eq_true.mp hAll s hs) c hc

theorem heads_mark {after : Cursor} (hOn : OnMark ch cs.head?)
    (h : mark source ch ⟨p, ch :: cs⟩ = ⟨some k, after, []⟩) :
    ∃ text, Cursor.Takes ⟨p, ch :: cs⟩ text after ∧ Heads k text after.rest := by
  rw [mark_eq] at h
  split at h
  · cases h
  · rename_i hEqual
    split at h
    · cases h
    · rename_i hNotEqual
      split at h
      · rename_i s hMark
        obtain ⟨hKind, hAfter, -⟩ := Piece.mk.inj h
        have hKnown : s ∈ Symbol.marks := List.mem_of_find?_eq_some hMark
        have hSpelling := startsWith_iff.mp (startsWith_of_mark? hMark)
        obtain ⟨text, hLength, hTaken, hTakes⟩ := exists_taken hAfter
          (by rw [← String.length_toList]; exact hSpelling.length_le)
        have hSolid : ∀ c ∈ text, isBlank c = false := by
          rw [hTaken, ← String.length_toList, ← List.prefix_iff_eq_take.mp hSpelling]
          exact fun c => spelling_solid hKnown
        have hText : text ≠ [] :=
          List.ne_nil_of_length_pos (hLength ▸ spelling_length_pos s hKnown)
        refine ⟨text, hTakes, .of_solid hText hSolid fun source' p' ch' r hHead hr => ?_⟩
        have hPrefix := hTakes.prefix_append hr
        have hHolds : s.spelling.length ≤ (text ++ r).length := by
          rw [List.length_append, hLength]
          exact Nat.le_add_right _ _
        -- with only a first part of the rest to look at, the same mark is found
        have hSame : mark? (text ++ r) = some s := mark?_of_isPrefix hMark hPrefix hHolds
        obtain rfl := hTakes.head hHead
        rw [(hOn.of_isPrefix hPrefix).piece_eq, mark_eq, if_neg, if_neg]
        · simp only [hSame]
          rw [← hLength, Cursor.drop_append, hKind]
        -- nor is it taken for one of the two that are refused
        · refine isLoose_of_isPrefix hPrefix hMark hHolds (fun hStart => ?_) hNotEqual
          rw [mark?_notEqual hStart] at hMark
          cases hMark
          rfl
        · refine isLoose_of_isPrefix hPrefix hMark hHolds (fun hStart => ?_) hEqual
          rw [mark?_equal hStart] at hMark
          cases hMark
          rfl
      · cases h

/-- A token of a text without a report is that token wherever its characters stand before a start of
the rest. -/
theorem heads_of_piece {after : Cursor} (h : piece source ch ⟨p, ch :: cs⟩ = ⟨some k, after, []⟩) :
    ∃ text, Cursor.Takes ⟨p, ch :: cs⟩ text after ∧ Heads k text after.rest := by
  have hNext : (⟨p, ch :: cs⟩ : Cursor).rest[1]? = cs.head? := List.head?_eq_getElem?.symm
  unfold piece at h
  dsimp only at h
  rw [hNext] at h
  split at h
  · cases h
  · rename_i hBlank
    split at h
    · cases h
    · rename_i hLine
      split at h
      · unfold blockComment at h
        split at h
        · cases h
        · cases h
      · rename_i hBlock
        split at h
        · rename_i hQuote
          exact heads_string hQuote h
        · rename_i hQuote
          split at h
          · rename_i hNumber
            exact heads_number hNumber h
          · rename_i hNumber
            split at h
            · rename_i hWord
              exact heads_word hWord h
            · rename_i hWord
              -- All other classes have been ruled out; a slash is a mark if no comment begins
              -- there.
              refine heads_mark ⟨hBlank, ?_, hQuote, hNumber, hWord⟩ h
              rintro ⟨hSlash, hComment | hComment⟩
              · exact hLine ⟨hSlash, hComment⟩
              · exact hBlock ⟨hSlash, hComment⟩

end AmbScript.Lexer
