import AmbScript.Proofs.Parser.Spans
import AmbScript.Proofs.Token.Encoded
import AmbScript.Proofs.Token.Splitting

/-!
# String literals

Between its quotes a string literal is a row of pieces. A piece is a character that stands for
itself, or an escape. The contents are what the pieces stand for, and nothing of them is lost unless
something is reported.

* `Lexer.Spelled` — the text between the quotes, and the contents that it stands for.
* `Lexer.stringLoop_of_spelled`, `Lexer.spelled_of_stringLoop` — how literals are cut, and that all
  which are cut without a report are spelled so.
* `Lexer.IsLiteral`, `Lexer.settled_run` — every string token of a text is a literal in it, or
  something was reported of it.
* `Lexer.string_literals_exact` — both ways, and the same byte by byte.

The converse cannot be had by looking at the tokens alone, since a faulty literal is a token as
well. It is told from others by the reports: each of them is about a place inside of the literal, so
if none of the reports is, the literal has no fault.
-/

namespace AmbScript

namespace Lexer

variable {source : Source} {quote c e : Char} {start p : Position}
  {contents text rest cs done : List Char} {reports : List Diagnostic}

-- ---------------------------------------------------------------------------
-- What is between the quotes
-- ---------------------------------------------------------------------------

/-- The letters of escapes, and what they stand for. -/
def escapes : List (Char × Char) :=
  [('n', '\n'), ('t', '\t'), ('r', '\r'), ('0', '\x00'), ('"', '"'), ('\'', '\''), ('\\', '\\')]

/-- How a character is written in a literal with these quotes. -/
inductive Written (quote : Char) : Char → List Char → Prop
  | plain {c : Char} : c ≠ quote → c ≠ '\\' → c ≠ '\n' → Written quote c [c]
  | escape {e c : Char} : (e, c) ∈ escapes → Written quote c ['\\', e]

/-- The text between the quotes of a literal with these contents. -/
inductive Spelled (quote : Char) : List Char → List Char → Prop
  | nil : Spelled quote [] []
  | cons {c : Char} {piece contents text : List Char} : Written quote c piece →
    Spelled quote contents text → Spelled quote (c :: contents) (piece ++ text)

/-- The escapes are those of the table. -/
theorem unescaped?_iff : unescaped? e = some c ↔ (e, c) ∈ escapes := by
  constructor
  · intro h
    unfold unescaped? at h
    split at h <;> cases h <;> decide
  · intro h
    simp only [escapes, List.mem_cons, Prod.mk.injEq, List.not_mem_nil, or_false] at h
    rcases h with ⟨rfl, rfl⟩ | ⟨rfl, rfl⟩ | ⟨rfl, rfl⟩ | ⟨rfl, rfl⟩ | ⟨rfl, rfl⟩ | ⟨rfl, rfl⟩ |
      ⟨rfl, rfl⟩ <;> rfl

/-- A literal is cut as it is spelled, up to its closing quote. -/
theorem stringLoop_of_spelled (hQuote : quote = '"' ∨ quote = '\'')
    (h : Spelled quote contents text) :
    stringLoop source quote start (text ++ quote :: rest) p false done reports =
      ⟨some (.string (String.ofList (done.reverse ++ contents))),
        ⟨p.afterText (text ++ [quote]), rest⟩, reports.reverse⟩ := by
  have hNotEscape : quote ≠ '\\' := by rcases hQuote with rfl | rfl <;> decide
  induction h generalizing p done with
  | nil =>
    rw [List.nil_append, stringLoop_close hNotEscape, List.append_nil]
    rfl
  | @cons c piece contents text hPiece _ ih =>
    have hDone : (c :: done).reverse ++ contents = done.reverse ++ c :: contents := by
      rw [List.reverse_cons, List.append_assoc]
      rfl
    cases hPiece with
    | plain hClose hEscape hLine =>
      rw [List.append_assoc, List.singleton_append, stringLoop_plain hClose hLine hEscape, ih]
      simp only [hDone, Bool.false_eq_true, if_false]
      rfl
    | escape hEscape =>
      rw [List.append_assoc, List.cons_append, List.singleton_append,
        stringLoop_escape (unescaped?_iff.mpr hEscape), ih, hDone]
      rfl

/-- What is cut without a report is spelled so. -/
theorem spelled_of_stringLoop
    (h : (stringLoop source quote start cs p false done reports).reports = []) :
    ∃ contents text rest, cs = text ++ quote :: rest ∧ Spelled quote contents text ∧
      stringLoop source quote start cs p false done reports =
        ⟨some (.string (String.ofList (done.reverse ++ contents))),
          ⟨p.afterText (text ++ [quote]), rest⟩, []⟩ := by
  -- No escape is unknown, so the text is never muted.
  generalize hMuted : false = muted at h ⊢
  fun_induction stringLoop source quote start cs p muted done reports with
  | case1 e cs p muted done reports c hEscape ih =>
    obtain ⟨contents, text, rest, rfl, hSpelled, hCut⟩ := ih rfl h
    refine ⟨c :: contents, ['\\', e] ++ text, rest, rfl,
      .cons (.escape (unescaped?_iff.mp hEscape)) hSpelled, hCut.trans ?_⟩
    rw [List.reverse_cons, List.append_assoc]
    rfl
  | case2 e cs p muted done reports hEscape c after report ih => cases reports_stringLoop h
  | case3 cs p muted done reports hNot =>
    have hQuiet : reports.reverse = [] := h
    refine ⟨[], [], cs, rfl, .nil, ?_⟩
    rw [hQuiet, List.append_nil]
    rfl
  | case6 c cs p muted done reports hNot hClose hLine hEscape ih =>
    subst hMuted
    obtain ⟨contents, text, rest, rfl, hSpelled, hCut⟩ := ih rfl h
    refine ⟨c :: contents, [c] ++ text, rest, rfl, .cons (.plain hClose hEscape hLine) hSpelled,
      hCut.trans ?_⟩
    simp only [Bool.false_eq_true, if_false, List.reverse_cons, List.append_assoc]
    rfl
  | case4 | case5 | case7 =>
    exact absurd (List.reverse_eq_nil_iff.mp h) (List.cons_ne_nil _ _)

-- ---------------------------------------------------------------------------
-- Literals in a text
-- ---------------------------------------------------------------------------

/-- The text of a literal. -/
def literal (quote : Char) (text : List Char) : List Char := quote :: (text ++ [quote])

/-- At the head of a text a literal is one piece. -/
theorem piece_of_spelled (hQuote : quote = '"' ∨ quote = '\'') (h : Spelled quote contents text) :
    piece source quote ⟨p, literal quote text ++ rest⟩ =
      ⟨some (.string (String.ofList contents)), ⟨p.afterText (literal quote text), rest⟩, []⟩ := by
  have hRest : literal quote text ++ rest = quote :: (text ++ quote :: rest) := by simp [literal]
  rw [hRest, piece_quote hQuote]
  exact stringLoop_of_spelled hQuote h

/-- A literal that is spelled is cut off as one token, and nothing is reported of it. -/
theorem loop_of_spelled (hQuote : quote = '"' ∨ quote = '\'') (h : Spelled quote contents text)
    {fuel : Nat} {tokens : List Token} {log : DiagnosticLog} (hRoom : log.isFull = false) :
    loop source (fuel + 1) ⟨p, literal quote text ++ rest⟩ tokens log =
      loop source fuel ⟨p.afterText (literal quote text), rest⟩
        (⟨.string (String.ofList contents),
          Cursor.spanFrom ⟨p.afterText (literal quote text), rest⟩ p⟩ :: tokens) log :=
  loop_token hRoom rfl (piece_of_spelled hQuote h)

/-- Only a quote starts a literal. -/
theorem quote_of_piece {c : Cursor} {ch : Char} {s : String}
    (h : (piece source ch c).kind = some (.string s)) : ch = '"' ∨ ch = '\'' := by
  have hWord (text : List Char) : wordKind text ≠ .string s := by
    unfold wordKind
    split <;> exact Token.Kind.noConfusion
  -- The classes of pieces are gone through in turn; only the one with a quote is a string literal.
  unfold piece at h
  dsimp only at h
  split at h
  · cases h
  · split at h
    · cases h
    · split at h
      · unfold blockComment at h
        split at h <;> cases h
      · split at h
        · assumption
        · split at h
          · cases h
          · split at h
            · exact absurd (Option.some.inj h) (hWord _)
            · rw [mark_eq] at h
              split at h
              · cases h
              · split at h
                · cases h
                · split at h <;> cases h

/-- Within the region, the place is neither before its start nor behind its end. -/
def Holds (span : Span) (p : Position) : Prop :=
  p.before span.start = false ∧ span.stop.before p = false

/-- The place was passed since `start`. -/
def Passed (start here p : Position) : Prop := p.before start = false ∧ p.before here = true

/-- The place stays behind when more is passed. -/
theorem Passed.next {here : Position} (h : Passed start here p) (c : Char) :
    Passed start (here.after c) p :=
  ⟨h.1, Position.before_trans h.2 (Position.before_after here c)⟩

/-- The start of a literal has been passed. -/
theorem passed_start (h : start.before p = true) : Passed start p start :=
  ⟨Bool.eq_false_iff.mpr (by rw [Ne, Position.before_iff]; omega), h⟩

/-- A place that was passed is in the region up to the cursor. -/
theorem Passed.holds {here : Cursor} (h : Passed start here.place p) :
    Holds (here.spanFrom start) p := by
  obtain ⟨hStart, hPassed⟩ := h
  refine ⟨hStart, Bool.eq_false_iff.mpr fun hBehind => ?_⟩
  rw [Position.before_iff] at hPassed hBehind
  simp only [Cursor.spanFrom] at hBehind
  omega

/-- What is reported of a literal is reported at a place in it. -/
theorem holds_stringLoop {muted : Bool} (hStart : start.before p = true)
    (hReports : ∀ d ∈ reports, Passed start p d.span.start) :
    ∀ d ∈ (stringLoop source quote start cs p muted done reports).reports,
      Holds ((stringLoop source quote start cs p muted done reports).after.spanFrom start)
        d.span.start := by
  have hNow {p : Position} (h : start.before p = true) (c : Char) : Passed start (p.after c) p := by
    refine ⟨Bool.eq_false_iff.mpr fun hBefore => ?_, Position.before_after p c⟩
    rw [Position.before_iff] at h hBefore
    omega
  have hNext {p : Position} (h : start.before p = true) (c : Char) :
      start.before (p.after c) = true := Position.before_trans h (Position.before_after p c)
  have hEnd {here : Cursor} {reports : List Diagnostic}
      (h : ∀ d ∈ reports, Passed start here.place d.span.start) :
      ∀ d ∈ reports.reverse, Holds (here.spanFrom start) d.span.start :=
    fun d hd => (h d (List.mem_reverse.mp hd)).holds
  -- by induction on the scan: what was reported before stays passed, and every new report is at the
  -- start or at a place just passed
  fun_induction stringLoop source quote start cs p muted done reports with
  | case1 e cs p muted done reports c hEscape ih =>
    exact ih (hNext (hNext hStart _) e) fun d hd => ((hReports d hd).next _).next e
  | case2 e cs p muted done reports hEscape c after report ih =>
    refine ih (hNext (hNext hStart _) e) (List.forall_mem_cons.mpr ⟨(hNow hStart _).next e, ?_⟩)
    exact fun d hd => ((hReports d hd).next _).next e
  | case3 cs p muted done reports hNot => exact hEnd fun d hd => (hReports d hd).next quote
  | case4 | case7 =>
    exact hEnd (List.forall_mem_cons.mpr ⟨passed_start hStart, hReports⟩)
  | case5 cs p muted done reports _ _ _ after report =>
    refine hEnd (List.forall_mem_cons.mpr ⟨passed_start (hNext hStart _), ?_⟩)
    exact List.forall_mem_cons.mpr ⟨hNow hStart _, fun d hd => (hReports d hd).next _⟩
  | case6 c cs p muted done reports _ _ _ _ ih =>
    exact ih (hNext hStart c) fun d hd => (hReports d hd).next c

/-- The region of the text is that of a literal with these contents. -/
def IsLiteral (source : Source) (contents : String) (span : Span) : Prop :=
  ∃ quote front text back, (quote = '"' ∨ quote = '\'') ∧
    source.text.toList = front ++ (literal quote text ++ back) ∧
    Spelled quote contents.toList text ∧
    span = Cursor.spanFrom ⟨Position.afterText ⟨1, 1⟩ (front ++ literal quote text), back⟩
      (Position.afterText ⟨1, 1⟩ front)

/-- String tokens are literals, or something was reported of them. -/
def Settled (source : Source) (log : DiagnosticLog) (t : Token) : Prop :=
  ∀ contents, t.kind = .string contents →
    (∃ d ∈ log.kept, Holds t.span d.span.start) ∨ IsLiteral source contents t.span

/-- A piece that is a string literal is spelled, or it is reported. -/
theorem settled_piece {c : Cursor} {ch : Char} {k : Token.Kind} {log : DiagnosticLog}
    (hWithin : c.Within source.text.toList) (hRest : c.rest = ch :: cs)
    (hRoom : log.kept.length < maxErrors) (hKind : (piece source ch c).kind = some k) :
    Settled source ((piece source ch c).reports.foldl DiagnosticLog.push log)
      ⟨k, (piece source ch c).after.spanFrom c.place⟩ := by
  rintro contents ⟨⟩
  have hQuote := quote_of_piece hKind
  obtain ⟨p, rest⟩ := c
  obtain rfl : rest = ch :: cs := hRest
  have hPiece : piece source ch ⟨p, ch :: cs⟩ =
      stringLoop source ch p cs (p.after ch) false [] [] := piece_quote hQuote
  rw [hPiece] at hKind ⊢
  have hHolds : ∀ d ∈ (stringLoop source ch p cs (p.after ch) false [] []).reports,
      Holds ((stringLoop source ch p cs (p.after ch) false [] []).after.spanFrom p) d.span.start :=
    holds_stringLoop (Position.before_after p ch) fun d hd => absurd hd List.not_mem_nil
  cases hReports : (stringLoop source ch p cs (p.after ch) false [] []).reports with
  | nil =>
    right
    obtain ⟨contents', text, back, rfl, hSpelled, hCut⟩ := spelled_of_stringLoop hReports
    obtain ⟨front, hText, hPlace⟩ := hWithin
    rw [hCut] at hKind ⊢
    cases hKind
    refine ⟨ch, front, text, back, hQuote, ?_, ?_, ?_⟩
    · simpa [literal] using hText
    · rwa [String.toList_ofList]
    · have hEnd : (p.after ch).afterText (text ++ [ch]) =
          Position.afterText ⟨1, 1⟩ (front ++ literal ch text) := by
        rw [Position.afterText_append _ front, ← hPlace]
        rfl
      rw [← hEnd, ← hPlace]
  | cons d ds =>
    -- The log has room for one more at least, so the first report is kept.
    left
    rw [hReports] at hHolds
    refine ⟨d, ?_, hHolds d List.mem_cons_self⟩
    rw [DiagnosticLog.kept_foldl_push, List.mem_append]
    obtain ⟨n, hn⟩ : ∃ n, maxErrors - log.kept.length = n + 1 :=
      ⟨maxErrors - log.kept.length - 1, by omega⟩
    rw [hn, List.take_succ_cons]
    exact .inr List.mem_cons_self

theorem Settled.mono {log : DiagnosticLog} {t : Token} (h : Settled source log t)
    (ds : List Diagnostic) : Settled source (ds.foldl DiagnosticLog.push log) t := by
  intro contents hKind
  refine (h contents hKind).imp_left fun ⟨d, hd, hHolds⟩ => ⟨d, ?_, hHolds⟩
  rw [DiagnosticLog.kept_foldl_push]
  exact List.mem_append_left _ hd

/-- All tokens of a text are settled once it has been scanned. -/
theorem settled_loop {fuel : Nat} {c : Cursor} {tokens : List Token} {log : DiagnosticLog}
    (hWithin : c.Within source.text.toList) (hLog : log.kept.length ≤ log.total)
    (h : ∀ t ∈ tokens, Settled source log t) :
    ∀ t ∈ (loop source fuel c tokens log).tokens,
      Settled source (loop source fuel c tokens log).log t := by
  have hFinish {c : Cursor} {tokens : List Token} {log : DiagnosticLog}
      (h : ∀ t ∈ tokens, Settled source log t) :
      ∀ t ∈ (finish c tokens log).tokens, Settled source (finish c tokens log).log t := by
    intro t ht
    rcases List.mem_cons.mp (List.mem_reverse.mp ht) with rfl | ht
    · exact fun _ hKind => by cases hKind
    · exact h t ht
  induction fuel generalizing c tokens log with
  | zero => exact hFinish h
  | succ fuel ih =>
    unfold loop
    split
    · exact hFinish h
    · next hRoom =>
      split
      · exact hFinish h
      · next ch cs hRest =>
        obtain ⟨next, -, hTakes⟩ := takes_piece source hRest
        -- There is room for another report, so that none is dropped that tells of a fault.
        have hLess : log.kept.length < maxErrors := by
          have hTotal : ¬ maxErrors ≤ log.total := by simpa [DiagnosticLog.isFull] using hRoom
          omega
        refine ih (hWithin.takes hTakes) ?_ ?_
        · rw [DiagnosticLog.kept_foldl_push, Parser.State.total_foldl_push, List.length_append,
            List.length_take]
          omega
        · split
          · next k hKind =>
            exact List.forall_mem_cons.mpr
              ⟨settled_piece hWithin hRest hLess hKind, fun t ht => (h t ht).mono _⟩
          · exact fun t ht => (h t ht).mono _

/-- From the beginning of the text on. -/
theorem settled_run (source : Source) :
    ∀ t ∈ (run source).tokens, Settled source (run source).log t := by
  refine settled_loop ⟨[], rfl, rfl⟩ (Nat.le_refl _) fun _ ht => ?_
  exact absurd ht List.not_mem_nil

-- ---------------------------------------------------------------------------
-- Every literal
-- ---------------------------------------------------------------------------

/-- At the start of a text a literal is the first token. -/
theorem run_of_spelled (hQuote : quote = '"' ∨ quote = '\'') (h : Spelled quote contents text)
    (name : String) (rest : List Char) :
    ∃ more, (run ⟨name, String.ofList (literal quote text ++ rest)⟩).tokens =
      ⟨.string (String.ofList contents),
        Cursor.spanFrom ⟨Position.afterText ⟨1, 1⟩ (literal quote text), rest⟩ ⟨1, 1⟩⟩ :: more := by
  rw [run, Cursor.ofText, String.toList_ofList]
  have hFuel : (Cursor.mk ⟨1, 1⟩ (literal quote text ++ rest)).rest.length =
      (text ++ quote :: rest).length + 1 := by simp [literal]
  rw [hFuel, loop_of_spelled hQuote h rfl]
  exact exists_tokens_loop _ _ _ [_] _

/-- Chunk by chunk, nothing is dropped unless something is reported. -/
theorem spelled_of_scan (hQuote : quote = '"' ∨ quote = '\'')
    (h : (scan source (quoteByte quote) start ⟨encode cs, p, [], []⟩).reports = []) :
    ∃ contents text rest, cs = text ++ quote :: rest ∧ Spelled quote contents text ∧
      scan source (quoteByte quote) start ⟨encode cs, p, [], []⟩ =
        ⟨some (.string (String.ofList contents)), p.afterText (text ++ [quote]), encode rest,
          []⟩ := by
  have hScan : scan source (quoteByte quote) start ⟨[] ++ encode cs, p, [], []⟩ =
      (stringLoop source quote start cs p false [] []).encoded :=
    scan_encode hQuote [] cs p [] [] fun _ hx => absurd hx List.not_mem_nil
  rw [List.nil_append] at hScan
  rw [hScan] at h ⊢
  obtain ⟨contents, text, rest, hText, hSpelled, hCut⟩ := spelled_of_stringLoop h
  refine ⟨contents, text, rest, hText, hSpelled, (congrArg Piece.encoded hCut).trans ?_⟩
  rfl

/-- A literal that is spelled by pieces is cut as one token, with what they stand for as its
contents and without a report, wherever it stands, whatever stands behind it. A string token with no
report in its region is such a literal. Read byte by byte, in chunks, every literal comes to the
same, and no contents are dropped of one without a report. -/
theorem string_literals_exact :
    (∀ (quote : Char) (contents text rest : List Char), quote = '"' ∨ quote = '\'' →
      Spelled quote contents text →
      (∀ (source : Source) (p : Position) (fuel : Nat) (tokens : List Token) (log : DiagnosticLog),
        log.isFull = false →
        loop source (fuel + 1) ⟨p, literal quote text ++ rest⟩ tokens log =
          loop source fuel ⟨p.afterText (literal quote text), rest⟩
            (⟨.string (String.ofList contents),
              Cursor.spanFrom ⟨p.afterText (literal quote text), rest⟩ p⟩ :: tokens) log) ∧
      ∀ name, ∃ more, (run ⟨name, String.ofList (literal quote text ++ rest)⟩).tokens =
        ⟨.string (String.ofList contents),
          Cursor.spanFrom ⟨Position.afterText ⟨1, 1⟩ (literal quote text), rest⟩ ⟨1, 1⟩⟩ :: more) ∧
    (∀ (source : Source) (t : Token) (contents : String), t ∈ (run source).tokens →
      t.kind = .string contents → (∀ d ∈ (run source).log.kept, ¬ Holds t.span d.span.start) →
      IsLiteral source contents t.span) ∧
    ∀ (source : Source) (quote : Char) (p : Position) (cs : List Char),
      quote = '"' ∨ quote = '\'' →
      scan source (quoteByte quote) p ⟨encode cs, p.after quote, [], []⟩ =
          (piece source quote ⟨p, quote :: cs⟩).encoded ∧
        ((scan source (quoteByte quote) p ⟨encode cs, p.after quote, [], []⟩).reports = [] →
          ∃ contents text rest, cs = text ++ quote :: rest ∧ Spelled quote contents text ∧
            scan source (quoteByte quote) p ⟨encode cs, p.after quote, [], []⟩ =
              ⟨some (.string (String.ofList contents)), p.afterText (literal quote text),
                encode rest, []⟩) := by
  refine ⟨fun quote contents text rest hQuote hSpelled => ⟨fun _ _ _ _ _ hRoom =>
      loop_of_spelled hQuote hSpelled hRoom, fun name => run_of_spelled hQuote hSpelled name rest⟩,
    fun source t contents ht hKind hQuiet => ?_,
    fun source quote p cs hQuote => ⟨?_, spelled_of_scan hQuote⟩⟩
  -- a literal that is not as it should be has a report within its region
  · refine (settled_run source t ht contents hKind).resolve_left ?_
    rintro ⟨d, hd, hHolds⟩
    exact hQuiet d hd hHolds
  · rw [piece_quote hQuote]
    exact scan_encode hQuote [] cs (p.after quote) [] [] fun _ hx => absurd hx List.not_mem_nil

/-- A character of two bytes, a line feed, and quotes of both kinds. -/
def accented : Source where
  name := "accented"
  text := "'é\\n\"\\''"

/-- The literal is cut off, its contents are as they should be, and so it is byte by byte. -/
theorem accented_exact :
    (∃ more, (run accented).tokens = ⟨.string "é\n\"'", ⟨⟨1, 1⟩, ⟨1, 8⟩⟩⟩ :: more) ∧
    IsLiteral accented "é\n\"'" ⟨⟨1, 1⟩, ⟨1, 8⟩⟩ ∧
    (scan accented (quoteByte '\'') ⟨1, 1⟩
      ⟨encode (accented.text.toList.drop 1), ⟨1, 2⟩, [], []⟩).rest = [] := by
  obtain ⟨hSpelled, hLiteral, hBytes⟩ := string_literals_exact
  have hText : Spelled '\'' ['é', '\n', '"', '\''] ['é', '\\', 'n', '"', '\\', '\''] :=
    .cons (.plain (by decide) (by decide) (by decide)) <|
    .cons (.escape (by decide)) <|
    .cons (.plain (by decide) (by decide) (by decide)) <|
    .cons (.escape (by decide)) .nil
  obtain ⟨-, hRun⟩ := hSpelled '\'' _ _ [] (.inr rfl) hText
  obtain ⟨more, hTokens⟩ := hRun "accented"
  have hQuiet : (run accented).log.kept = [] := by decide +kernel
  refine ⟨⟨more, hTokens⟩, ?_, ?_⟩
  · refine hLiteral accented ⟨.string "é\n\"'", ⟨⟨1, 1⟩, ⟨1, 8⟩⟩⟩ _ ?_ rfl fun d hd => ?_
    · exact hTokens ▸ List.mem_cons_self
    · rw [hQuiet] at hd
      cases hd
  · obtain ⟨hSame, -⟩ := hBytes accented '\'' ⟨1, 1⟩ (accented.text.toList.drop 1) (.inr rfl)
    exact (congrArg Scanned.rest hSame).trans (by decide +kernel)

end Lexer

end AmbScript
