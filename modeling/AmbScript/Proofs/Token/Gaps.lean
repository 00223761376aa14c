import AmbScript.Proofs.Token.Numerals

/-!
# What a piece takes from the text

A text is cut into pieces. Each of them takes at least one character, and what is passed over
between two tokens is made up of blanks and comments.

* `Cursor.Takes` — from one cursor to another a text is passed.
* `Lexer.takes_piece` — a piece takes some text, and its end is the place behind that text.
* `Lexer.Gap`, `Lexer.gap_of_piece` — blanks and comments, and that nothing else is passed over
  without a report.

A gap is told with the text behind it, because of line comments: where one ends depends on what
comes next. What a piece passes is only ever a beginning of the text, so that place and rest move on
together.
-/

namespace AmbScript

/-- Each line feed begins a line. -/
theorem Position.line_afterText (p : Position) (cs : List Char) :
    (p.afterText cs).line = p.line + cs.count '\n' := by
  induction cs generalizing p with
  | nil => rfl
  | cons c cs ih =>
    have hNext : p.afterText (c :: cs) = (p.after c).afterText cs := rfl
    rw [hNext, ih]
    by_cases hc : c = '\n'
    · rw [Position.after, if_pos hc, hc, List.count_cons_self]
      exact (Nat.add_right_comm _ 1 _).trans (Nat.add_assoc _ _ 1)
    · rw [Position.after, if_neg hc, List.count_cons_of_ne hc]

namespace Cursor

/-- From `c` to `d` the text `text` is passed. -/
def Takes (c : Cursor) (text : List Char) (d : Cursor) : Prop :=
  c.rest = text ++ d.rest ∧ d.place = c.place.afterText text

variable {c d e : Cursor} {text more : List Char}

theorem takes_nil (c : Cursor) : c.Takes [] c := ⟨rfl, rfl⟩

/-- First one text is passed, then another one. -/
theorem Takes.append (h : c.Takes text d) (h' : d.Takes more e) : c.Takes (text ++ more) e := by
  refine ⟨?_, ?_⟩
  · rw [h.1, h'.1, List.append_assoc]
  · rw [h'.2, h.2, Position.afterText_append]

/-- A start of what is left, behind what was taken, is a start of the whole. -/
theorem Takes.prefix_append (h : c.Takes text d) {r : List Char} (hr : r <+: d.rest) :
    text ++ r <+: c.rest := by
  rw [h.1]
  exact (List.prefix_append_right_inj text).mpr hr

/-- A text that is passed starts with the first character. -/
theorem Takes.head {p : Position} {ch ch' : Char} {cs : List Char}
    (h : Takes ⟨p, ch :: cs⟩ text d) (hHead : text.head? = some ch') : ch = ch' := by
  obtain ⟨more, rfl⟩ := List.head?_eq_some_iff.mp hHead
  exact (List.cons.inj h.1).1

/-- One character is passed. -/
theorem takes_char (p : Position) (ch : Char) (cs : List Char) :
    Takes ⟨p, ch :: cs⟩ [ch] ⟨p.after ch, cs⟩ := ⟨rfl, rfl⟩

/-- So many characters are passed. -/
theorem takes_drop (c : Cursor) (n : Nat) : c.Takes (c.rest.take n) (c.drop n) :=
  ⟨(List.take_append_drop n c.rest).symm, rfl⟩

/-- As many as have the property. -/
theorem takes_dropWhile (c : Cursor) (p : Char → Bool) :
    c.Takes (c.rest.takeWhile p) (c.dropWhile p) :=
  ⟨List.takeWhile_append_dropWhile.symm, rfl⟩

/-- The characters of a text are passed. -/
theorem drop_append (p : Position) (text rest : List Char) :
    drop ⟨p, text ++ rest⟩ text.length = ⟨p.afterText text, rest⟩ := by
  rw [drop, List.take_left, List.drop_left]

/-- To pass those with the property is to pass so many. -/
theorem dropWhile_eq_drop (c : Cursor) (p : Char → Bool) :
    c.dropWhile p = c.drop (c.rest.takeWhile p).length := by
  rw [dropWhile, drop, ← Lexer.takeWhile_eq_take, ← Lexer.dropWhile_eq_drop]

end Cursor

namespace Lexer

variable {source : Source} {ch : Char} {p : Position} {c : Cursor} {k : Token.Kind}
  {text rest cs tail : List Char}

-- ---------------------------------------------------------------------------
-- Every piece takes some text
-- ---------------------------------------------------------------------------

/-- If it is more than none, some text is passed. -/
theorem takes_drop_pos {n : Nat} (hRest : c.rest = ch :: cs) (hn : 0 < n) :
    ∃ text ≠ [], c.Takes text (c.drop n) := by
  refine ⟨c.rest.take n, fun hEmpty => ?_, c.takes_drop n⟩
  have hLength := congrArg List.length hEmpty
  rw [List.length_take, hRest, List.length_cons, List.length_nil] at hLength
  omega

theorem takes_dropWhile_pos {q : Char → Bool} (hRest : c.rest = ch :: cs) (hch : q ch = true) :
    ∃ text ≠ [], c.Takes text (c.dropWhile q) := by
  refine ⟨c.rest.takeWhile q, ?_, c.takes_dropWhile q⟩
  rw [hRest, List.takeWhile_cons_of_pos hch]
  exact List.cons_ne_nil _ _

/-- What a string literal passes. -/
theorem takes_stringLoop (source : Source) (quote : Char) (start : Position) (cs : List Char)
    (p : Position) (muted : Bool) (contents : List Char) (reports : List Diagnostic) :
    ∃ text, Cursor.Takes ⟨p, cs⟩ text
      (stringLoop source quote start cs p muted contents reports).after := by
  fun_induction stringLoop source quote start cs p muted contents reports with
  | case1 e cs p muted contents reports c hEscape ih
  | case2 e cs p muted contents reports hEscape c after report ih =>
    obtain ⟨text, hText⟩ := ih
    exact ⟨_, ((Cursor.takes_char p _ _).append (Cursor.takes_char _ e cs)).append hText⟩
  | case3 => exact ⟨_, Cursor.takes_char _ _ _⟩
  | case4 => exact ⟨_, Cursor.takes_nil _⟩
  | case5 => exact ⟨_, Cursor.takes_char _ _ _⟩
  | case6 c cs p muted contents reports _ _ _ _ ih =>
    obtain ⟨text, hText⟩ := ih
    exact ⟨_, (Cursor.takes_char p c cs).append hText⟩
  | case7 => exact ⟨_, Cursor.takes_nil _⟩

/-- A comment that is closed has a length. -/
theorem commentLength_lt {n m : Nat} (h : commentLength cs n = some m) : n < m := by
  fun_induction commentLength cs n with
  | case1 => cases h
  | case2 =>
    cases h
    omega
  | case3 _ _ _ _ ih => exact Nat.lt_of_succ_lt (ih h)

/-- No mark is empty. -/
theorem spelling_length_pos : ∀ s ∈ Symbol.marks, 0 < s.spelling.length := by decide

/-- A mark passes its spelling, and a stray character is passed as well. -/
theorem takes_mark (source : Source) (ch : Char) (hRest : c.rest = ch :: cs) :
    ∃ text ≠ [], c.Takes text (mark source ch c).after := by
  unfold mark
  split
  · exact takes_drop_pos hRest (by decide)
  · split
    · exact takes_drop_pos hRest (by decide)
    · split
      · rename_i s hFound
        exact takes_drop_pos hRest (spelling_length_pos s (List.mem_of_find?_eq_some hFound))
      · exact takes_drop_pos hRest (by decide)

/-- What a name starts with may stand in it. -/
theorem isWord_of_isWordStart {c : Char} (h : isWordStart c = true) : isWord c = true := by
  rw [isWord, h]
  rfl

/-- A piece takes some text, and its end is the place behind that text. -/
theorem takes_piece (source : Source) (hRest : c.rest = ch :: cs) :
    ∃ text ≠ [], c.Takes text (piece source ch c).after := by
  unfold piece
  dsimp only
  split
  -- blanks
  · rename_i hBlank
    exact takes_dropWhile_pos hRest hBlank
  · split
    -- a line comment
    · rename_i hSlash
      exact takes_dropWhile_pos hRest (by rw [hSlash.1]; decide)
    · split
      -- a block comment, closed or not
      · unfold blockComment
        split
        · rename_i hClosed
          exact takes_drop_pos hRest (Nat.zero_lt_of_lt (commentLength_lt hClosed))
        · exact takes_dropWhile_pos hRest rfl
      · split
        -- a string literal
        · obtain ⟨place, rest⟩ := c
          obtain rfl : rest = ch :: cs := hRest
          obtain ⟨text, hText⟩ := takes_stringLoop source ch place cs (place.after ch) false [] []
          exact ⟨[ch] ++ text, List.cons_ne_nil _ _, (Cursor.takes_char place ch cs).append hText⟩
        · split
          -- a number, which may start with its point
          · rename_i hNumber
            refine takes_drop_pos hRest ?_
            rw [hRest]
            rcases hNumber with hDigit | ⟨rfl, hNext⟩
            · exact numeral_pos_of_isDigit hDigit
            · rw [hRest] at hNext
              cases cs with
              | nil => cases hNext
              | cons d cs => exact Nat.lt_of_succ_lt (numeral_of_point hNext)
          · split
            -- a name or a word of the language
            · rename_i hWord
              exact takes_dropWhile_pos hRest (isWord_of_isWordStart hWord)
            · exact takes_mark source ch hRest

-- ---------------------------------------------------------------------------
-- Gaps
-- ---------------------------------------------------------------------------

/-- The text `gap` in front of `rest` is made up of blanks and comments: a line comment goes up to
the end of the line, a block comment up to the first mark that closes it. -/
inductive Gap : List Char → List Char → Prop
  | nil {rest : List Char} : Gap [] rest
  | blank {c : Char} {gap rest : List Char} : isBlank c = true → Gap gap rest → Gap (c :: gap) rest
  | line {body gap rest : List Char} : '\n' ∉ body → (∀ c ∈ (gap ++ rest).head?, c = '\n') → Gap gap rest →
      Gap ('/' :: '/' :: (body ++ gap)) rest
  | block {body gap rest : List Char} : ¬['*', '/'] <:+: body ++ ['*'] → Gap gap rest →
      Gap ('/' :: '*' :: (body ++ '*' :: '/' :: gap)) rest

/-- Two gaps in a row. -/
theorem Gap.append {a b : List Char} (ha : Gap a (b ++ rest)) (hb : Gap b rest) :
    Gap (a ++ b) rest := by
  generalize hRest : b ++ rest = more at ha
  induction ha with
  | nil => exact hb
  | blank hBlank _ ih => exact .blank hBlank (ih hRest)
  | line hBody hEnd _ ih =>
    subst hRest
    rw [List.cons_append, List.cons_append, List.append_assoc]
    exact .line hBody (by rwa [List.append_assoc]) (ih rfl)
  | block hBody _ ih =>
    rw [List.cons_append, List.cons_append, List.append_assoc]
    exact .block hBody (ih hRest)

theorem gap_blanks (cs : List Char) (rest : List Char) : Gap (cs.takeWhile isBlank) rest := by
  induction cs with
  | nil => exact .nil
  | cons c cs ih =>
    by_cases hBlank : isBlank c = true
    · rw [List.takeWhile_cons_of_pos hBlank]
      exact .blank hBlank ih
    · rw [List.takeWhile_cons_of_neg hBlank]
      exact .nil

/-- A line comment, up to the end of its line. -/
theorem gap_line (cs : List Char) :
    Gap ('/' :: '/' :: cs.takeWhile (· != '\n')) (cs.dropWhile (· != '\n')) := by
  have hBody : '\n' ∉ cs.takeWhile (· != '\n') := fun h =>
    absurd (List.all_eq_true.mp (List.all_takeWhile (p := (· != '\n')) (l := cs)) _ h) (by decide)
  have hEnd (c : Char) (hc : c ∈ (cs.dropWhile (· != '\n')).head?) : c = '\n' := by
    have hNot := List.head?_dropWhile_not (p := (· != '\n')) cs
    rw [Option.mem_def.mp hc] at hNot
    simpa using hNot
  rw [← List.append_nil (cs.takeWhile _)]
  exact .line hBody hEnd .nil

/-- A closed comment ends with the first mark that closes it. -/
theorem exists_of_commentLength {n m : Nat} (h : commentLength cs n = some m) :
    ∃ body rest, cs = body ++ '*' :: '/' :: rest ∧ m = n + (body.length + 2) ∧
      ¬['*', '/'] <:+: body ++ ['*'] := by
  fun_induction commentLength cs n with
  | case1 => cases h
  | case2 rest n =>
    cases h
    exact ⟨[], rest, rfl, by simp, by decide⟩
  | case3 c cs n hOther ih =>
    obtain ⟨body, rest, rfl, rfl, hBody⟩ := ih h
    refine ⟨c :: body, rest, rfl, by simp only [List.length_cons]; omega, fun hInfix => ?_⟩
    rcases List.infix_cons_iff.mp hInfix with hPrefix | hInfix
    · -- the mark would begin with this character
      obtain ⟨rfl, hNext⟩ := List.cons_prefix_cons.mp hPrefix
      cases body with
      | nil => cases (List.cons_prefix_cons.mp hNext).1
      | cons d body =>
        obtain rfl := (List.cons_prefix_cons.mp hNext).1
        exact hOther _ rfl rfl
    · exact hBody hInfix

/-- A block comment that nothing is reported of is closed. -/
theorem gap_of_blockComment {after : Cursor}
    (h : blockComment source ⟨p, '/' :: '*' :: cs⟩ = ⟨none, after, []⟩) :
    ∃ gap, Cursor.Takes ⟨p, '/' :: '*' :: cs⟩ gap after ∧ Gap gap after.rest := by
  unfold blockComment at h
  split at h
  · rename_i n hClosed
    obtain rfl : Cursor.drop _ n = after := (Piece.mk.inj h).2.1
    obtain ⟨body, rest, hText, rfl, hBody⟩ := exists_of_commentLength hClosed
    obtain rfl : cs = _ := hText
    have hLength : 2 + (body.length + 2) = ('/' :: '*' :: (body ++ ['*', '/'])).length := by
      simp only [List.length_cons, List.length_append, List.length_nil]
      omega
    have hWhole : '/' :: '*' :: (body ++ '*' :: '/' :: rest) =
        ('/' :: '*' :: (body ++ ['*', '/'])) ++ rest := by simp
    rw [hLength, hWhole, Cursor.drop_append]
    exact ⟨_, ⟨rfl, rfl⟩, .block hBody .nil⟩
  · cases h

/-- However it ends, a literal is a token. -/
theorem kind_stringLoop (source : Source) (quote : Char) (start : Position) (cs : List Char)
    (p : Position) (muted : Bool) (contents : List Char) (reports : List Diagnostic) :
    ∃ s, (stringLoop source quote start cs p muted contents reports).kind = some (.string s) := by
  fun_induction stringLoop source quote start cs p muted contents reports with
  | case1 _ _ _ _ _ _ _ _ ih | case2 _ _ _ _ _ _ _ _ _ _ ih | case6 _ _ _ _ _ _ _ _ _ _ ih =>
    exact ih
  | case3 | case4 | case5 | case7 => exact ⟨_, rfl⟩

/-- What is passed over without a report is a gap. -/
theorem gap_of_piece {after : Cursor} (h : piece source ch ⟨p, ch :: cs⟩ = ⟨none, after, []⟩) :
    ∃ gap, Cursor.Takes ⟨p, ch :: cs⟩ gap after ∧ Gap gap after.rest := by
  unfold piece at h
  dsimp only at h
  split at h
  · obtain rfl := (Piece.mk.inj h).2.1
    exact ⟨_, Cursor.takes_dropWhile _ _, gap_blanks _ _⟩
  · split at h
    -- a comment to the end of the line
    · rename_i hSlash
      obtain ⟨rfl, hNext⟩ := hSlash
      obtain ⟨rest, rfl⟩ : ∃ rest, cs = '/' :: rest :=
        List.head?_eq_some_iff.mp (List.head?_eq_getElem?.trans hNext)
      obtain rfl := (Piece.mk.inj h).2.1
      exact ⟨_, Cursor.takes_dropWhile _ _, gap_line rest⟩
    · split at h
      -- a comment that may go over several lines
      · rename_i hStar
        obtain ⟨rfl, hNext⟩ := hStar
        obtain ⟨rest, rfl⟩ : ∃ rest, cs = '*' :: rest :=
          List.head?_eq_some_iff.mp (List.head?_eq_getElem?.trans hNext)
        exact gap_of_blockComment h
      · -- all other pieces are tokens, but for a stray character, which is reported
        split at h
        · obtain ⟨s, hKind⟩ := kind_stringLoop source ch p cs (p.after ch) false [] []
          exact absurd (hKind.symm.trans (congrArg Piece.kind h)) (Option.some_ne_none _)
        · split at h
          · cases h
          · split at h
            · cases h
            · unfold mark at h
              split at h
              · cases h
              · split at h
                · cases h
                · split at h
                  · cases h
                  · cases h

end Lexer

end AmbScript
