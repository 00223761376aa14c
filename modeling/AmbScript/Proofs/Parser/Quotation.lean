import AmbScript.Proofs.Parser.Results
import AmbScript.Proofs.Parser.Spans
import AmbScript.Proofs.Token.Lines

/-!
# What diagnostics quote

The lexer and the parser count lines on their own, and a diagnostic quotes the line that the source
has under the number. There is such a line wherever a fault is reported: reports are made at places
that were reached in the text, or at tokens, which start at such places.

* `Diagnostic.Quotes` — the diagnostic starts on a line of the source and quotes it.
* `Lexer.quotes_run`, `Parser.quotes_program` — the reports of the two readers do.
* `parse_located` — tokens are where their regions say, and diagnostics quote the line they start
  on.
-/

namespace AmbScript

/-- The diagnostic starts on a line of the source, and this is the line that it quotes. -/
def Diagnostic.Quotes (source : Source) (d : Diagnostic) : Prop :=
  source.line? d.span.start.line = some d.sourceLine

/-- A diagnostic that is made with its source quotes a line, if there is one. -/
theorem Diagnostic.quotes_quoting {source : Source} {span : Span}
    (h : (source.line? span.start.line).isSome) (code : Code) (message : String) :
    (Diagnostic.quoting source code message span).Quotes source :=
  Source.line?_eq_quote h

namespace DiagnosticLog

variable {Q : Diagnostic → Prop} {log : DiagnosticLog}

/-- What holds of the reports that are kept and of a new one holds after it was reported. -/
theorem forall_kept_push {d : Diagnostic} (hLog : ∀ e ∈ log.kept, Q e) (hd : Q d) :
    ∀ e ∈ (log.push d).kept, Q e := by
  rw [push]
  split
  · exact List.forall_mem_append.mpr ⟨hLog, List.forall_mem_singleton.mpr hd⟩
  · exact hLog

theorem forall_kept_foldl {ds : List Diagnostic} (hLog : ∀ e ∈ log.kept, Q e)
    (hds : ∀ d ∈ ds, Q d) : ∀ e ∈ (ds.foldl push log).kept, Q e := by
  induction ds generalizing log with
  | nil => exact hLog
  | cons d ds ih =>
    obtain ⟨hd, hRest⟩ := List.forall_mem_cons.mp hds
    exact ih (forall_kept_push hLog hd) hRest

end DiagnosticLog

-- ---------------------------------------------------------------------------
-- The lexer
-- ---------------------------------------------------------------------------

namespace Lexer

variable {source : Source} {c : Cursor}

/-- A report that starts where the cursor stands and quotes its line. -/
theorem quotes_at (h : c.Within source.text.toList) {d : Diagnostic} (hStart : d.span.start = c.place)
    (hLine : d.sourceLine = source.quote c.place.line) : d.Quotes source := by
  rw [Diagnostic.Quotes, hStart, hLine]
  exact Source.line?_eq_quote (Source.line?_of_within h)

/-- The reports within a string start at its beginning, at an escape, or at the end of its line. All
of these are places that the cursor reaches. -/
theorem quotes_stringLoop (quote : Char) {start : Cursor} (hStart : start.Within source.text.toList)
    {cs : List Char} {p : Position} {muted : Bool} {contents : List Char}
    {reports : List Diagnostic} (h : Cursor.Within source.text.toList ⟨p, cs⟩)
    (hReports : ∀ d ∈ reports, d.Quotes source) :
    ∀ d ∈ (stringLoop source quote start.place cs p muted contents reports).reports,
      d.Quotes source := by
  have hReverse {ds : List Diagnostic} (hds : ∀ d ∈ ds, d.Quotes source) :
      ∀ d ∈ ds.reverse, d.Quotes source := fun d hd => hds d (List.mem_reverse.mp hd)
  -- a string without an end is reported at its beginning
  have hUnterminated (here : Cursor) {contents : List Char} {reports : List Diagnostic}
      (hReports : ∀ d ∈ reports, d.Quotes source) :
      ∀ d ∈ (stringLoop.unterminated source start.place here contents reports).reports,
        d.Quotes source :=
    hReverse (List.forall_mem_cons.mpr ⟨quotes_at hStart rfl rfl, hReports⟩)
  have hChar {p : Position} {ch : Char} {cs : List Char}
      (h : Cursor.Within source.text.toList ⟨p, ch :: cs⟩) :
      Cursor.Within source.text.toList ⟨p.after ch, cs⟩ := h.takes (Cursor.takes_char p ch cs)
  fun_induction stringLoop source quote start.place cs p muted contents reports with
  | case1 e cs p muted contents reports c hEscape ih => exact ih (hChar (hChar h)) hReports
  | case2 e cs p muted contents reports hEscape c after report ih =>
    refine ih (hChar (hChar h)) (List.forall_mem_cons.mpr ⟨?_, hReports⟩)
    exact quotes_at h rfl rfl
  | case3 => exact hReverse hReports
  | case4 => exact hUnterminated _ hReports
  | case5 =>
    exact hUnterminated _ (List.forall_mem_cons.mpr ⟨quotes_at h rfl rfl, hReports⟩)
  | case6 c cs p muted contents reports _ _ _ _ ih => exact ih (hChar h) hReports
  | case7 => exact hUnterminated _ hReports

/-- What is no token by itself is reported where it stands. -/
theorem quotes_mark (ch : Char) (h : c.Within source.text.toList) :
    ∀ d ∈ (mark source ch c).reports, d.Quotes source := by
  have hOne (d : Diagnostic) (hd : d.Quotes source) : ∀ e ∈ [d], e.Quotes source :=
    List.forall_mem_singleton.mpr hd
  unfold mark
  split
  · exact hOne _ (quotes_at h rfl rfl)
  · split
    · exact hOne _ (quotes_at h rfl rfl)
    · split
      · exact fun d hd => absurd hd List.not_mem_nil
      · unfold stray
        refine hOne _ ?_
        split
        · exact quotes_at h rfl rfl
        · exact quotes_at h rfl rfl

/-- Whatever is reported of a piece quotes the line that it starts on. -/
theorem quotes_piece {ch : Char} {cs : List Char} (h : c.Within source.text.toList)
    (hRest : c.rest = ch :: cs) : ∀ d ∈ (piece source ch c).reports, d.Quotes source := by
  have hNone : ∀ d ∈ ([] : List Diagnostic), d.Quotes source := fun d hd => absurd hd List.not_mem_nil
  -- the cases are the kinds of pieces, in the order in which the lexer tells them apart
  unfold piece
  dsimp only
  split
  · exact hNone
  · split
    · exact hNone
    · split
      · unfold blockComment
        split
        · exact hNone
        · exact List.forall_mem_singleton.mpr (quotes_at h rfl rfl)
      · split
        · obtain ⟨place, rest⟩ := c
          obtain rfl : rest = ch :: cs := hRest
          exact quotes_stringLoop ch h (h.takes (Cursor.takes_char place ch cs)) hNone
        · split
          · exact hNone
          · split
            · exact hNone
            · exact quotes_mark ch h

/-- Every piece starts where the cursor stands, and the cursor stays in the text. -/
theorem quotes_loop {fuel : Nat} {tokens : List Token} {log : DiagnosticLog}
    (h : c.Within source.text.toList) (hLog : ∀ d ∈ log.kept, d.Quotes source) :
    ∀ d ∈ (loop source fuel c tokens log).log.kept, d.Quotes source := by
  induction fuel generalizing c tokens log with
  | zero => exact hLog
  | succ fuel ih =>
    unfold loop
    split
    · exact hLog
    · split
      · exact hLog
      · rename_i ch cs hRest
        obtain ⟨next, -, hTakes⟩ := takes_piece source hRest
        exact ih (h.takes hTakes) (DiagnosticLog.forall_kept_foldl hLog (quotes_piece h hRest))

/-- The reports of the lexer quote the lines that they start on. -/
theorem quotes_run (source : Source) : ∀ d ∈ (run source).log.kept, d.Quotes source := by
  refine quotes_loop ⟨[], rfl, rfl⟩ fun _ hd => ?_
  exact absurd hd List.not_mem_nil

end Lexer

-- ---------------------------------------------------------------------------
-- The parser
-- ---------------------------------------------------------------------------

namespace Parser

/-- The parser reads tokens of the source, and what it has reported so far quotes the source. -/
structure Quoting (source : Source) (s : State) : Prop where
  source_eq : s.source = source
  current : (source.line? s.current.span.start.line).isSome
  ahead : ∀ t ∈ s.ahead, (source.line? t.span.start.line).isSome
  previous : (source.line? s.previous.start.line).isSome
  log : ∀ d ∈ s.log.kept, d.Quotes source

/-- The tokens that are still ahead stand on lines of the source. -/
theorem Quoting.advanced {source : Source} {s : State} (h : Quoting source s) :
    Quoting source s.advanced := by
  unfold State.advanced
  split
  · exact h
  · split
    · exact ⟨h.source_eq, h.current, h.ahead, h.current, h.log⟩
    · rename_i t ts hAhead
      have hTokens := h.ahead
      rw [hAhead] at hTokens
      obtain ⟨hFirst, hRest⟩ := List.forall_mem_cons.mp hTokens
      exact ⟨h.source_eq, hFirst, hRest, h.current, h.log⟩

/-- Nothing that a rule does changes this. -/
theorem steady_quoting (source : Source) :
    Steady (Quoting source) fun span => (source.line? span.start.line).isSome where
  current _ h := h.current
  previous _ h := h.previous
  advanced _ h := h.advanced
  reported s code message span h hSpan := by
    refine ⟨h.source_eq, h.current, h.ahead, h.previous, ?_⟩
    rw [h.source_eq]
    exact DiagnosticLog.forall_kept_push h.log (Diagnostic.quotes_quoting hSpan code message)
  merge a b ha hb := by
    rcases a.line_merge b with hLine | hLine <;> rw [hLine]
    · exact ha
    · exact hb

/-- The reports of the parser quote the lines that they start on, if the tokens stand on lines of
the source. -/
theorem quotes_program {source : Source} {tokens : List Token}
    (h : ∀ t ∈ tokens, (source.line? t.span.start.line).isSome) :
    ∀ d ∈ (parseTokens source tokens).log.kept, d.Quotes source := by
  have hFirst : (source.line? 1).isSome :=
    Source.line?_of_within (c := ⟨⟨1, 1⟩, source.text.toList⟩) ⟨[], rfl, rfl⟩
  have hStart : Quoting source (.ofTokens source tokens) := by
    refine ⟨rfl, ?_, fun t ht => h t (List.mem_of_mem_drop ht), hFirst, fun d hd => ?_⟩
    · cases tokens with
      | nil => exact hFirst
      | cons t ts => exact h t List.mem_cons_self
    · cases hd
  exact ((steady_quoting source).program _ hStart).1.log

end Parser

-- ---------------------------------------------------------------------------
-- Whole texts
-- ---------------------------------------------------------------------------

/-- In a text that the lexer reports nothing of, every token is found on its line by its columns. In
any text, what is reported starts on a line of the text and quotes it. -/
theorem parse_located (source : Source) :
    ((Lexer.run source).log.hasErrors = false →
      ∀ t ∈ (Lexer.run source).tokens, t.kind ≠ .symbol .eof → Lexer.Placed source t) ∧
    ∀ d ∈ (parse source).log.kept, d.Quotes source := by
  refine ⟨fun hQuiet => ?_, ?_⟩
  · exact (Lexer.row_run hQuiet).placed [] rfl rfl
  · unfold parse
    dsimp only
    split
    · exact Lexer.quotes_run source
    · exact Parser.quotes_program (Lexer.starts_on_line source)

/-- Two lines that end with a carriage return each, a comment over both of them, characters of
several bytes, and no value behind the second `=`. -/
def lineEnds : Source where
  name := "lines"
  text := "x = \"é\"; /* ü\r\n*/ y = ;\r\n"

/-- The token `y` is found behind the comment, in the second line, and so is what is missing
there. -/
theorem lineEnds_located :
    (∃ t ∈ (Lexer.run lineEnds).tokens, t.kind.name? = some "y" ∧ t.span = .point ⟨2, 4⟩ ∧
      Lexer.Placed lineEnds t) ∧
    ∃ d ∈ (parse lineEnds).log.kept, d.span.start.line = 2 ∧ d.Quotes lineEnds := by
  have hQuiet : (Lexer.run lineEnds).log.hasErrors = false := by decide +kernel
  have hToken : (Lexer.run lineEnds).tokens.any
      (fun t => t.kind.name? == some "y" && t.span == .point ⟨2, 4⟩) = true := by decide +kernel
  have hReport : (parse lineEnds).log.kept.any (·.span.start.line == 2) = true := by decide +kernel
  obtain ⟨hPlaced, hQuotes⟩ := parse_located lineEnds
  obtain ⟨t, ht, hName⟩ := List.any_eq_true.mp hToken
  obtain ⟨d, hd, hLine⟩ := List.any_eq_true.mp hReport
  rw [Bool.and_eq_true, beq_iff_eq, beq_iff_eq] at hName
  refine ⟨⟨t, ht, hName.1, hName.2, hPlaced hQuiet t ht fun hEof => ?_⟩,
    d, hd, beq_iff_eq.mp hLine, hQuotes d hd⟩
  rw [hEof] at hName
  cases hName.1

end AmbScript
