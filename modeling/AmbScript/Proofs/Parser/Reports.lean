import AmbScript.Proofs.Parser.Programs

/-!
# What a reading reports

A text that is not a program is one that something is reported of: while it is cut into tokens, or
while these are read. The first reports are kept.

* `DiagnosticLog.kept_ofList` — which reports are kept.
* `exists_reports` — the log of a text is made up of reports, of at least one where there is no
  program.
-/

namespace AmbScript

namespace DiagnosticLog

/-- As many reports are kept as there is room for behind those that are kept. -/
theorem kept_foldl_push (ds : List Diagnostic) (log : DiagnosticLog) :
    (ds.foldl push log).kept = log.kept ++ ds.take (maxErrors - log.kept.length) := by
  induction ds generalizing log with
  | nil => simp
  | cons d ds ih =>
    rw [List.foldl_cons, ih]
    by_cases hRoom : log.kept.length < maxErrors
    · have hPushed : (log.push d).kept = log.kept ++ [d] := if_pos hRoom
      have hTake : maxErrors - log.kept.length = (maxErrors - (log.kept.length + 1)) + 1 := by omega
      rw [hPushed, hTake, List.take_succ_cons, List.append_assoc, List.length_append]
      rfl
    · have hPushed : (log.push d).kept = log.kept := if_neg hRoom
      have hNone : maxErrors - log.kept.length = 0 := by omega
      rw [hPushed, hNone, List.take_zero, List.take_zero]

/-- The first reports are kept. -/
theorem kept_ofList (ds : List Diagnostic) : (ofList ds).kept = ds.take maxErrors :=
  kept_foldl_push ds .empty

end DiagnosticLog

/-- What the lexer does to a log is to report. -/
theorem Lexer.exists_reports_loop (source : Source) (fuel : Nat) (c : Cursor) (tokens : List Token)
    (log : DiagnosticLog) : ∃ ds : List Diagnostic,
      (loop source fuel c tokens log).log = ds.foldl DiagnosticLog.push log := by
  induction fuel generalizing c tokens log with
  | zero => exact ⟨[], rfl⟩
  | succ fuel ih =>
    unfold loop
    split
    · exact ⟨[], rfl⟩
    · split
      · exact ⟨[], rfl⟩
      · rename_i ch _ _
        obtain ⟨ds, hLog⟩ := ih (piece source ch c).after _
          ((piece source ch c).reports.foldl DiagnosticLog.push log)
        exact ⟨_ ++ ds, hLog.trans (List.foldl_append).symm⟩

/-- So does the parser; it gives no program back only if it reports. -/
theorem exists_reports_parseTokens (source : Source) (tokens : List Token) :
    ∃ ds, (parseTokens source tokens).log = .ofList ds ∧
      ((parseTokens source tokens).program = none → ds ≠ []) := by
  have hLenient : Parser.Separated true (Parser.State.ofTokens source tokens).left :=
    fun _ _ _ => rfl
  have hRead := Parser.program_ofTokens source tokens hLenient
  obtain ⟨ds, hLog⟩ := hRead.precedes.reports
  have hTotal : (parseTokens source tokens).log.total = 0 + ds.length :=
    (congrArg DiagnosticLog.total hLog).trans (Parser.State.total_foldl_push ds _)
  refine ⟨ds, hLog, fun hNone hEmpty => ?_⟩
  rw [hEmpty, List.length_nil] at hTotal
  -- where nothing is reported, the rules have not failed
  rw [program_of_quiet hTotal] at hNone
  have hFailed : 0 < (parseTokens source tokens).log.total := hRead.failed hNone
  omega

/-- All that a text is found to have is reported; it is not a program only if there is a report. -/
theorem exists_reports (source : Source) :
    ∃ ds, (parse source).log = .ofList ds ∧ ((parse source).program = none → ds ≠ []) := by
  obtain ⟨ds, hLog⟩ := Lexer.exists_reports_loop source (Cursor.ofText source.text).rest.length
    (Cursor.ofText source.text) [] .empty
  unfold parse
  dsimp only
  split
  · rename_i hErrors
    refine ⟨ds, hLog, fun _ hEmpty => ?_⟩
    have hTotal : (Lexer.run source).log.total = 0 + ds.length :=
      (congrArg DiagnosticLog.total hLog).trans (Parser.State.total_foldl_push ds _)
    rw [hEmpty] at hTotal
    exact DiagnosticLog.hasErrors_iff.mp hErrors hTotal
  · exact exists_reports_parseTokens source _

/-- Some of what is reported of a text that is not a program is kept. -/
theorem kept_ne_nil_of_parse {source : Source} (h : (parse source).program = none) :
    (parse source).log.kept ≠ [] := by
  obtain ⟨ds, hLog, hReports⟩ := exists_reports source
  rw [hLog, DiagnosticLog.kept_ofList]
  cases ds with
  | nil => exact absurd rfl (hReports h)
  | cons d ds => exact List.cons_ne_nil _ _

end AmbScript
