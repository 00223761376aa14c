import AmbScript.Proofs.Parser.Reports
import AmbScript.Proofs.Token.Heads

/-!
# How a text is split into tokens

A text that nothing is reported of is a row of tokens with gaps before, between and behind them.
Each token stands alone as itself, and it is the longest one that stands where it starts.

* `Lexer.IsToken` — the whole text is one token.
* `Lexer.Splits` — a text as a row of gaps and tokens, each of them as long as it can be.
* `Lexer.Row`, `Lexer.row_run` — the tokens in the order in which they are cut off, and that a text
  without reports is a row of them.
* `Lexer.run_splits` — the text is split; its end is marked once, all tokens are in the order of the
  text, and the first reports are kept.

`Row` is how the lexer goes about it, token by token, each in front of what is left of the text.
`Splits` does not mention the lexer's steps: that a token is the longest one is said of all starts
of the text there. The second follows from the first because of `Lexer.Heads`.
-/

namespace AmbScript

-- ---------------------------------------------------------------------------
-- Places behind a text
-- ---------------------------------------------------------------------------

namespace Position

variable {p q r : Position}

/-- Lines come first, then columns. -/
theorem before_iff :
    p.before q = true ↔ p.line < q.line ∨ p.line = q.line ∧ p.column < q.column := by
  simp [before]

/-- What is before a place is before all later ones. -/
theorem before_trans (h : p.before q = true) (h' : q.before r = true) : p.before r = true := by
  rw [before_iff] at *
  omega

/-- A character is passed. -/
theorem before_after (p : Position) (c : Char) : p.before (p.after c) = true := by
  rw [before_iff, after]
  split
  · exact .inl (Nat.lt_succ_self _)
  · exact .inr ⟨rfl, Nat.lt_succ_self _⟩

/-- A text that is not empty leads further. -/
theorem before_afterText {text : List Char} (h : text ≠ []) : p.before (p.afterText text) = true := by
  induction text generalizing p with
  | nil => exact absurd rfl h
  | cons c cs ih =>
    have hNext : p.afterText (c :: cs) = (p.after c).afterText cs := rfl
    rw [hNext]
    by_cases hRest : cs = []
    · rw [hRest]
      exact before_after p c
    · exact before_trans (before_after p c) (ih hRest)

/-- Within a line every character takes a column. -/
theorem afterText_of_oneLine {text : List Char} (h : '\n' ∉ text) :
    p.afterText text = ⟨p.line, p.column + text.length⟩ := by
  induction text generalizing p with
  | nil => rfl
  | cons c cs ih =>
    rw [List.mem_cons, not_or] at h
    obtain ⟨hc, hRest⟩ := h
    have hNext : p.afterText (c :: cs) = (p.after c).afterText cs := rfl
    rw [hNext, ih hRest, after, if_neg (Ne.symm hc), List.length_cons]
    simp only [Position.mk.injEq, true_and]
    omega

end Position

namespace Lexer

variable {source : Source} {c : Cursor} {p : Position} {k : Token.Kind} {text rest : List Char}
  {tokens : List Token} {log : DiagnosticLog}

-- ---------------------------------------------------------------------------
-- Texts that are one token
-- ---------------------------------------------------------------------------

/-- The region of a whole text. -/
def wholeSpan (text : List Char) : Span :=
  Cursor.spanFrom ⟨Position.afterText ⟨1, 1⟩ text, []⟩ ⟨1, 1⟩

/-- The text is as a whole the token `k`, and nothing is reported of it. -/
def IsToken (k : Token.Kind) (text : List Char) : Prop :=
  ∀ name, run ⟨name, String.ofList text⟩ =
    ⟨[⟨k, wholeSpan text⟩, Token.eof (.point (Position.afterText ⟨1, 1⟩ text))], .empty⟩

/-- At the end of the text only its mark is added. -/
theorem loop_at_end (source : Source) (fuel : Nat) (p : Position) (tokens : List Token)
    (log : DiagnosticLog) : loop source fuel ⟨p, []⟩ tokens log = finish ⟨p, []⟩ tokens log := by
  cases fuel with
  | zero => rfl
  | succ fuel =>
    unfold loop
    split
    · rfl
    · rfl

/-- What has been cut comes first. -/
theorem exists_tokens_loop (source : Source) (fuel : Nat) (c : Cursor) (tokens : List Token)
    (log : DiagnosticLog) :
    ∃ more, (loop source fuel c tokens log).tokens = tokens.reverse ++ more := by
  induction fuel generalizing c tokens log with
  | zero => exact ⟨_, List.reverse_cons⟩
  | succ fuel ih =>
    unfold loop
    split
    · exact ⟨_, List.reverse_cons⟩
    · split
      · exact ⟨_, List.reverse_cons⟩
      · dsimp only
        split
        · rename_i kind _
          obtain ⟨more, hMore⟩ := ih (piece source _ c).after
            (⟨kind, (piece source _ c).after.spanFrom c.place⟩ :: tokens) _
          exact ⟨_, by rw [hMore, List.reverse_cons, List.append_assoc]⟩
        · exact ih _ _ _

/-- A token is cut off. -/
theorem loop_token {fuel : Nat} {ch : Char} {cs : List Char} {after : Cursor}
    {reports : List Diagnostic} (hRoom : log.isFull = false) (hRest : c.rest = ch :: cs)
    (hPiece : piece source ch c = ⟨some k, after, reports⟩) :
    loop source (fuel + 1) c tokens log =
      loop source fuel after (⟨k, after.spanFrom c.place⟩ :: tokens)
        (reports.foldl DiagnosticLog.push log) := by
  rw [loop, hRoom, hRest]
  simp only [hPiece, Bool.false_eq_true, if_false]

/-- A gap is passed. -/
theorem loop_gap {fuel : Nat} {ch : Char} {cs : List Char} {after : Cursor}
    {reports : List Diagnostic} (hRoom : log.isFull = false) (hRest : c.rest = ch :: cs)
    (hPiece : piece source ch c = ⟨none, after, reports⟩) :
    loop source (fuel + 1) c tokens log =
      loop source fuel after tokens (reports.foldl DiagnosticLog.push log) := by
  rw [loop, hRoom, hRest]
  simp only [hPiece, Bool.false_eq_true, if_false]

/-- A text that goes on behind a token, no further than where the token was found, starts with
it. -/
theorem Heads.run_append (h : Heads k text rest) (name : String) {r : List Char} (hr : r <+: rest) :
    ∃ fuel, run ⟨name, String.ofList (text ++ r)⟩ =
      loop ⟨name, String.ofList (text ++ r)⟩ fuel ⟨Position.afterText ⟨1, 1⟩ text, r⟩
        [⟨k, Cursor.spanFrom ⟨Position.afterText ⟨1, 1⟩ text, r⟩ ⟨1, 1⟩⟩] .empty := by
  obtain ⟨ch, cs, hText⟩ := List.exists_cons_of_ne_nil h.nonempty
  have hPiece := h.cut ⟨name, String.ofList (text ++ r)⟩ ⟨1, 1⟩ ch r (by rw [hText]; rfl) hr
  have hRest : (Cursor.mk ⟨1, 1⟩ (text ++ r)).rest = ch :: (cs ++ r) := by rw [hText]; rfl
  refine ⟨(cs ++ r).length, ?_⟩
  rw [run, Cursor.ofText, String.toList_ofList]
  have hFuel : (Cursor.mk ⟨1, 1⟩ (text ++ r)).rest.length = (cs ++ r).length + 1 := by
    rw [hRest, List.length_cons]
  rw [hFuel]
  exact loop_token rfl hRest hPiece

/-- It is a token on its own. -/
theorem Heads.isToken (h : Heads k text rest) : IsToken k text := by
  intro name
  obtain ⟨fuel, hRun⟩ := h.run_append name (List.nil_prefix)
  rw [List.append_nil] at hRun
  rw [hRun, loop_at_end]
  rfl

/-- No longer start of the text is, as a whole, a token. -/
theorem Heads.longest (h : Heads k text rest) {u : List Char} {j : Token.Kind}
    (hu : u <+: text ++ rest) (hToken : IsToken j u) : u.length ≤ text.length := by
  refine Nat.le_of_not_lt fun hLong => ?_
  have hStart : text <+: u :=
    List.prefix_of_prefix_length_le (List.prefix_append text rest) hu (Nat.le_of_lt hLong)
  obtain ⟨r, rfl⟩ := hStart
  have hr : r <+: rest := (List.prefix_append_right_inj text).mp hu
  obtain ⟨fuel, hRun⟩ := h.run_append "" hr
  obtain ⟨more, hMore⟩ := exists_tokens_loop ⟨"", String.ofList (text ++ r)⟩ fuel
    ⟨Position.afterText ⟨1, 1⟩ text, r⟩
    [⟨k, Cursor.spanFrom ⟨Position.afterText ⟨1, 1⟩ text, r⟩ ⟨1, 1⟩⟩] .empty
  -- the first token ends before the end of the whole
  rw [← hRun, hToken ""] at hMore
  have hSpan : wholeSpan (text ++ r) = Cursor.spanFrom ⟨Position.afterText ⟨1, 1⟩ text, r⟩ ⟨1, 1⟩ :=
    congrArg Token.span (List.cons.inj hMore).1
  have hStop := congrArg Span.stop hSpan
  simp only [wholeSpan, Cursor.spanFrom, Position.afterText_of_oneLine h.oneLine,
    Position.mk.injEq] at hStop
  obtain ⟨hLine, hColumn⟩ := hStop
  have hOneLine : '\n' ∉ text ++ r := by
    rw [Position.line_afterText] at hLine
    refine List.count_eq_zero.mp ?_
    simp only at hLine
    omega
  rw [Position.afterText_of_oneLine hOneLine] at hColumn
  have hPos := List.length_pos_iff.mpr h.nonempty
  simp only at hColumn
  omega

-- ---------------------------------------------------------------------------
-- Texts as rows of tokens
-- ---------------------------------------------------------------------------

/-- From the place on the text is a row of tokens with gaps between them, and the end of the text
behind the last gap. Each token is the longest that starts where it starts. -/
inductive Splits : Position → List Char → List Token → Prop
  | last {p : Position} {gap : List Char} :
    Gap gap [] → Splits p gap [Token.eof (.point (p.afterText gap))]
  | next {p : Position} {gap text rest : List Char} {k : Token.Kind} {tokens : List Token} :
    Gap gap (text ++ rest) → IsToken k text →
    (∀ (u : List Char) (j : Token.Kind), u <+: text ++ rest → IsToken j u →
      u.length ≤ text.length) →
    Splits (p.afterText (gap ++ text)) rest tokens →
    Splits p (gap ++ (text ++ rest))
      (⟨k, Cursor.spanFrom ⟨p.afterText (gap ++ text), rest⟩ (p.afterText gap)⟩ :: tokens)

/-- The tokens are cut off the text one after the other, with gaps between them. -/
inductive Row : Position → List Char → List Token → Prop
  | last {p : Position} {gap : List Char} :
    Gap gap [] → Row p gap [Token.eof (.point (p.afterText gap))]
  | next {p : Position} {gap text rest : List Char} {k : Token.Kind} {tokens : List Token} :
    Gap gap (text ++ rest) → Heads k text rest → Row (p.afterText (gap ++ text)) rest tokens →
    Row p (gap ++ (text ++ rest))
      (⟨k, Cursor.spanFrom ⟨p.afterText (gap ++ text), rest⟩ (p.afterText gap)⟩ :: tokens)

namespace Row

/-- What is passed over before the rest is cut belongs to the first gap. -/
theorem behind_gap {gap : List Char} (hGap : Gap gap rest) (h : Row (p.afterText gap) rest tokens) :
    Row p (gap ++ rest) tokens := by
  cases h with
  | last hLast =>
    rw [← Position.afterText_append]
    refine .last (Gap.append ?_ hLast)
    rwa [List.append_nil]
  | next hFirst hHeads hRest =>
    rw [← List.append_assoc] at hGap
    rw [← Position.afterText_append] at hRest ⊢
    rw [← Position.afterText_append, ← List.append_assoc]
    rw [← List.append_assoc] at hRest
    rw [← List.append_assoc gap]
    exact .next (Gap.append (by rwa [← List.append_assoc]) hFirst) hHeads hRest

/-- The tokens behind one. -/
theorem behind_token (h : Heads k text rest) (hRest : Row (p.afterText text) rest tokens) :
    Row p (text ++ rest) (⟨k, Cursor.spanFrom ⟨p.afterText text, rest⟩ p⟩ :: tokens) :=
  .next .nil h hRest

/-- A row of tokens is a split of the text. -/
theorem splits (h : Row p text tokens) : Splits p text tokens := by
  induction h with
  | last hGap => exact .last hGap
  | next hGap hHeads _ ih =>
    exact .next hGap hHeads.isToken (fun u j hu hToken => hHeads.longest hu hToken) ih

end Row

/-- Where nothing is reported to the end, nothing is reported of the next piece. -/
theorem reports_eq_nil {fuel : Nat} {reports : List Diagnostic}
    (h : (loop source fuel c tokens (reports.foldl DiagnosticLog.push .empty)).log.total = 0) :
    reports = [] := by
  obtain ⟨ds, hLog⟩ := exists_reports_loop source fuel c tokens
    (reports.foldl DiagnosticLog.push .empty)
  rw [hLog, Parser.State.total_foldl_push, Parser.State.total_foldl_push] at h
  exact List.length_eq_zero_iff.mp (by omega)

/-- What is cut without a report is cut into gaps and tokens. -/
theorem row_loop {fuel : Nat} (hFuel : c.rest.length ≤ fuel)
    (hQuiet : (loop source fuel c tokens .empty).log.total = 0) :
    ∃ more, (loop source fuel c tokens .empty).tokens = tokens.reverse ++ more ∧
      Row c.place c.rest more := by
  induction fuel generalizing c tokens with
  | zero =>
    have hNone : c.rest = [] := List.length_eq_zero_iff.mp (Nat.le_zero.mp hFuel)
    refine ⟨_, List.reverse_cons, ?_⟩
    rw [hNone]
    exact .last .nil
  | succ fuel ih =>
    obtain ⟨place, rest⟩ := c
    cases rest with
    | nil => exact ⟨_, List.reverse_cons, .last .nil⟩
    | cons ch cs =>
      obtain ⟨text, hSome, hTakes⟩ := takes_piece source (c := ⟨place, ch :: cs⟩) rfl
      -- a piece is never empty, which is why the fuel suffices
      have hLess : (piece source ch ⟨place, ch :: cs⟩).after.rest.length ≤ fuel := by
        have hLength := congrArg List.length hTakes.1
        have hPos := List.length_pos_iff.mpr hSome
        rw [List.length_append] at hLength
        simp only at hLength hFuel
        omega
      rcases hPiece : piece source ch ⟨place, ch :: cs⟩ with ⟨kind, after, reports⟩
      rw [hPiece] at hLess
      cases kind with
      | none =>
        rw [loop_gap rfl rfl hPiece] at hQuiet ⊢
        obtain rfl := reports_eq_nil hQuiet
        obtain ⟨more, hMore, hRest⟩ := ih hLess hQuiet
        obtain ⟨gap, hGap, hBlanks⟩ := gap_of_piece hPiece
        rw [hGap.2] at hRest
        refine ⟨more, hMore, ?_⟩
        rw [hGap.1]
        exact hRest.behind_gap hBlanks
      | some k =>
        rw [loop_token rfl rfl hPiece] at hQuiet ⊢
        obtain rfl := reports_eq_nil hQuiet
        obtain ⟨more, hMore, hRest⟩ := ih hLess hQuiet
        obtain ⟨text, hText, hHeads⟩ := heads_of_piece hPiece
        obtain ⟨place', rest⟩ := after
        obtain rfl : place' = place.afterText text := hText.2
        refine ⟨_, hMore.trans (by rw [List.reverse_cons, List.append_assoc]), ?_⟩
        rw [hText.1]
        exact hRest.behind_token hHeads

-- ---------------------------------------------------------------------------
-- The order of the tokens
-- ---------------------------------------------------------------------------

/-- The marker of the end is none of the tokens in a text. -/
theorem kind_piece_ne (source : Source) (ch : Char) (c : Cursor) :
    (piece source ch c).kind ≠ some (.symbol .eof) := by
  have hLiteral (k : Option Token.Kind) (h : ∃ s, k = some (.string s)) :
      k ≠ some (.symbol .eof) := by
    obtain ⟨s, rfl⟩ := h
    exact fun h => by cases h
  -- the end of the text is neither a keyword nor a mark
  have hWord (text : List Char) : wordKind text ≠ .symbol .eof := by
    unfold wordKind
    split
    · rename_i s hFound
      rintro ⟨⟩
      exact absurd (List.mem_of_find?_eq_some hFound) (by decide)
    · exact fun h => by cases h
  unfold piece
  dsimp only
  split
  · exact fun h => by cases h
  · split
    · exact fun h => by cases h
    · split
      · unfold blockComment
        split
        · exact fun h => by cases h
        · exact fun h => by cases h
      · split
        · exact hLiteral _ (kind_stringLoop _ _ _ _ _ _ _ _)
        · split
          · exact fun h => by cases h
          · split
            · exact fun h => hWord _ (Option.some.inj h)
            · rw [mark_eq]
              split
              · exact fun h => by cases h
              · split
                · exact fun h => by cases h
                · split
                  · rename_i s hMark
                    rintro ⟨⟩
                    exact absurd (List.mem_of_find?_eq_some hMark) (by decide)
                  · exact fun h => by cases h

/-- The tokens so far, in reverse, are in the order of the text, they start before the cursor, and
none of them marks the end. -/
structure Ordered (tokens : List Token) (c : Cursor) : Prop where
  pairwise : tokens.Pairwise fun t u => u.span.start.before t.span.start = true
  before : ∀ t ∈ tokens, t.span.start.before c.place = true
  ne_eof : ∀ t ∈ tokens, t.kind ≠ .symbol .eof

/-- The tokens are in order, with the mark of the end behind all of them. -/
theorem ordered_loop {fuel : Nat} (h : Ordered tokens c) :
    ∃ body stop, (loop source fuel c tokens log).tokens = body ++ [Token.eof (.point stop)] ∧
      (∀ t ∈ body, t.kind ≠ .symbol .eof) ∧
      (loop source fuel c tokens log).tokens.Pairwise
        fun t u => t.span.start.before u.span.start = true := by
  -- the tokens so far are in reverse order, and the end is put behind them
  have hFinish {c : Cursor} {tokens : List Token} {log : DiagnosticLog} (h : Ordered tokens c) :
      ∃ body stop, (finish c tokens log).tokens = body ++ [Token.eof (.point stop)] ∧
        (∀ t ∈ body, t.kind ≠ .symbol .eof) ∧
        (finish c tokens log).tokens.Pairwise
          fun t u => t.span.start.before u.span.start = true := by
    refine ⟨tokens.reverse, c.place, List.reverse_cons, fun t ht => ?_, ?_⟩
    · exact h.ne_eof t (List.mem_reverse.mp ht)
    · rw [finish, List.pairwise_reverse]
      exact List.pairwise_cons.mpr ⟨h.before, h.pairwise⟩
  induction fuel generalizing c tokens log with
  | zero => exact hFinish h
  | succ fuel ih =>
    unfold loop
    split
    · exact hFinish h
    · split
      · exact hFinish h
      · rename_i ch cs hRest
        dsimp only
        obtain ⟨text, hSome, hTakes⟩ := takes_piece source hRest
        -- a piece is never empty, so the next one starts later
        have hPast : c.place.before (piece source ch c).after.place = true := by
          rw [hTakes.2]
          exact Position.before_afterText hSome
        have hBefore (t : Token) (ht : t ∈ tokens) :
            t.span.start.before (piece source ch c).after.place = true :=
          Position.before_trans (h.before t ht) hPast
        refine ih ?_
        split
        · rename_i k hKind
          have hNotEnd := kind_piece_ne source ch c
          rw [hKind] at hNotEnd
          exact ⟨List.pairwise_cons.mpr ⟨h.before, h.pairwise⟩,
            List.forall_mem_cons.mpr ⟨hPast, hBefore⟩,
            List.forall_mem_cons.mpr ⟨fun hEof => hNotEnd (congrArg some hEof), h.ne_eof⟩⟩
        · exact ⟨h.pairwise, hBefore, h.ne_eof⟩

-- ---------------------------------------------------------------------------
-- The whole text
-- ---------------------------------------------------------------------------

/-- A text that nothing is reported of is cut into gaps and tokens. -/
theorem row_run (h : (run source).log.hasErrors = false) :
    Row ⟨1, 1⟩ source.text.toList (run source).tokens := by
  have hNone : (run source).log.total = 0 := by
    by_cases hZero : (run source).log.total = 0
    · exact hZero
    · rw [DiagnosticLog.hasErrors_iff.mpr hZero] at h
      cases h
  obtain ⟨more, hMore, hRow⟩ : ∃ more, (run source).tokens = [] ++ more ∧
      Row ⟨1, 1⟩ source.text.toList more := row_loop (Nat.le_refl _) hNone
  rw [hMore, List.nil_append]
  exact hRow

/-- A text that nothing is reported of is split into gaps and tokens, each of them as long as it can
be. Every text has one end, behind all its tokens, these start in the order in which they are
listed, and the first of its reports are kept. -/
theorem run_splits (source : Source) :
    ((run source).log.hasErrors = false →
      Splits ⟨1, 1⟩ source.text.toList (run source).tokens) ∧
    (∃ body stop, (run source).tokens = body ++ [Token.eof (.point stop)] ∧
      ∀ t ∈ body, t.kind ≠ .symbol .eof) ∧
    ((run source).tokens.Pairwise fun t u => t.span.start.before u.span.start = true) ∧
    (run source).log.kept.length = min (run source).log.total maxErrors := by
  have hStart : Ordered [] (Cursor.ofText source.text) :=
    ⟨List.Pairwise.nil, fun _ ht => absurd ht List.not_mem_nil,
      fun _ ht => absurd ht List.not_mem_nil⟩
  obtain ⟨body, stop, hTokens, hBody, hOrder⟩ : ∃ body stop,
      (run source).tokens = body ++ [Token.eof (.point stop)] ∧
      (∀ t ∈ body, t.kind ≠ .symbol .eof) ∧
      (run source).tokens.Pairwise fun (t u : Token) => t.span.start.before u.span.start = true :=
    ordered_loop hStart
  -- the log is made by reports alone, so what it has kept is the first of them
  obtain ⟨ds, hLog⟩ : ∃ ds, (run source).log = DiagnosticLog.ofList ds :=
    exists_reports_loop source (Cursor.ofText source.text).rest.length _ [] .empty
  have hTotal : (run source).log.total = ds.length := by
    rw [hLog, DiagnosticLog.ofList, Parser.State.total_foldl_push]
    exact Nat.zero_add _
  refine ⟨fun hQuiet => ?_, ⟨body, stop, hTokens, hBody⟩, hOrder, ?_⟩
  · exact (row_run hQuiet).splits
  · rw [hTotal, hLog, DiagnosticLog.kept_ofList, List.length_take, Nat.min_comm]

/-- Tokens that stand close together: points next to digits, a letter that begins no exponent, signs
that begin comments and comparisons, and a string with characters of several bytes. -/
def crowded : Source where
  name := "crowded"
  text := "a.b=1..5+2e/*é*//3===!\"ü\\\"\"//\r\n&&.5"

/-- Eighteen tokens with and without gaps between them. -/
theorem crowded_splits : (run crowded).log.hasErrors = false ∧
    (run crowded).tokens.length = 18 ∧
    Splits ⟨1, 1⟩ crowded.text.toList (run crowded).tokens := by
  have hQuiet : (run crowded).log.hasErrors = false := by decide +kernel
  have hLength : (run crowded).tokens.length = 18 := by decide +kernel
  exact ⟨hQuiet, hLength, (run_splits crowded).1 hQuiet⟩

end Lexer

end AmbScript
