import AmbScript.Proofs.Parser.Limits
import AmbScript.Proofs.Parser.Reports

/-!
# What the limit of nesting bounds

Expressions, blocks and functions that stand inside each other are counted, and where the limit is
reached the program is refused. Chains are not counted: operands, what is called or accessed, and
the branches behind `else if` stand at the level of the node above them, however many of them there
are.

* `parseTokensWithin` — the reading of tokens with any other limit.
* `parseTokens_nesting` — the height of a program is that of its longest chain, give or take a bound
  that the limit gives, and what needs more room than there is is refused for that.
-/

namespace AmbScript

namespace Parser

-- ---------------------------------------------------------------------------
-- Other limits
-- ---------------------------------------------------------------------------

/-- As `programLoop`, with room for `n` levels of nesting. -/
def programLoopWithin (n : Nat) : Nat → List Stmt → Parser (List Stmt)
  | 0, done => return done
  | fuel + 1, done => do
    let done := done ++ (← statements (grammar n) .program)
    if !(← check .closeBrace) || (← logIsFull) then return done
    report .unexpectedToken "unmatched '\x7d'"
    let _ ← advance
    programLoopWithin n fuel done

/-- As `program`, with room for `n` levels of nesting. -/
def programWithin (n : Nat) : Parser Program := do
  let start ← currentSpan
  let statements ← programLoopWithin n (← rounds) []
  let previous ← previousSpan
  let span := if statements.isEmpty then start else start.merge previous
  return ⟨.mk statements span, span⟩

/-- With the usual limit it is the loop of `program`. -/
theorem programLoopWithin_max (fuel : Nat) (done : List Stmt) :
    programLoopWithin maxNestingDepth fuel done = programLoop fuel done := by
  induction fuel generalizing done with
  | zero => rfl
  | succ fuel ih =>
    rw [programLoopWithin, programLoop]
    simp only [ih]
    rfl

theorem programWithin_max : programWithin maxNestingDepth = program := by
  unfold programWithin program
  simp only [programLoopWithin_max]

variable {n m : Nat}

/-- Each round reads statements at the outermost level. -/
theorem widens_programLoopWithin (hLess : n ≤ m) (fuel : Nat) (done : List Stmt) :
    Widens (programLoopWithin n fuel done) (programLoopWithin m fuel done) := by
  induction fuel generalizing done with
  | zero => exact .pure
  | succ fuel ih =>
    refine .bind (widens_statements (widens_grammar hLess) .program) fun _ => .bind .look fun _ =>
      .bind .look fun _ => .ite (fun _ => .pure) fun _ => ?_
    exact .bind (.same (Q := fun _ _ => True) fun hs => hs.report _ _) fun _ =>
      .bind widens_advance fun _ => ih _

/-- Programs are read in the same way with more room for nesting, up to where they are refused. -/
theorem widens_programWithin (hLess : n ≤ m) : Widens (programWithin n) (programWithin m) := by
  refine .bind .look fun _ => ?_
  refine .bind .look fun fuel => ?_
  refine .bind (widens_programLoopWithin hLess fuel []) fun _ => ?_
  refine .bind .look fun _ => ?_
  exact .pure

end Parser

open AmbScript.Parser

/-- As `parseTokens`, with room for `n` levels of nesting. -/
def parseTokensWithin (n : Nat) (source : Source) (tokens : List Token) : Parsed :=
  let (program, s) := programWithin n (.ofTokens source tokens)
  ⟨if s.log.hasErrors then none else program, s.log⟩

theorem parseTokensWithin_max (source : Source) (tokens : List Token) :
    parseTokensWithin maxNestingDepth source tokens = parseTokens source tokens := by
  unfold parseTokensWithin parseTokens
  rw [programWithin_max]

-- ---------------------------------------------------------------------------
-- Programs that are accepted and programs that are refused
-- ---------------------------------------------------------------------------

/-- A log without errors is made of no reports. -/
theorem DiagnosticLog.eq_nil_of_quiet {ds : List Diagnostic} (h : (ofList ds).hasErrors = false) :
    ds = [] := by
  have hTotal : (ofList ds).total = 0 + ds.length := State.total_foldl_push ds _
  have hZero : (ofList ds).total = 0 := by
    by_contra hSome
    rw [DiagnosticLog.hasErrors_iff.mpr hSome] at h
    cases h
  exact List.length_eq_zero_iff.mp (by omega)

/-- A way down from an accepted program leads into a limited number of levels. -/
theorem depth_of_program {source : Source} {tokens : List Token} {p : Program}
    (h : (parseTokens source tokens).program = some p) : p.depth ≤ 4 * maxNestingDepth + 5 := by
  rw [program_of_quiet (quiet_of_program h)] at h
  exact ((steady_grows .empty).program (.ofTokens source tokens) (.refl _)).2 p h

/-- What is a program with more room for nesting is the same program, or the first that is reported
of it is that the limit is reached. -/
theorem refused_of_within {source : Source} {tokens : List Token} {n m : Nat} {p : Program}
    (hLess : n ≤ m) (h : (parseTokensWithin m source tokens).program = some p) :
    (parseTokensWithin n source tokens).program = some p ∨
      ∃ d, (parseTokensWithin n source tokens).log.kept.head? = some d ∧ d.code = .nestingLimit := by
  rcases (widens_programWithin hLess).agree (.ofTokens source tokens) with hSame | hRefused
  · left
    unfold parseTokensWithin at h ⊢
    rw [hSame]
    exact h
  · right
    obtain ⟨both, more, others, d, hCode, hLog, hQuiet⟩ := hRefused
    -- nothing is reported with more room, so the limit comes first with less
    have hAccepted : (programWithin m (.ofTokens source tokens)).2.log.hasErrors = false := by
      by_contra hErrors
      have hNone : (parseTokensWithin m source tokens).program = none :=
        if_pos (eq_true_of_ne_false hErrors)
      rw [hNone] at h
      cases h
    rw [hQuiet] at hAccepted
    have hEmpty := DiagnosticLog.eq_nil_of_quiet hAccepted
    obtain ⟨rfl, -⟩ := List.append_eq_nil_iff.mp hEmpty
    have hKept : (parseTokensWithin n source tokens).log.kept = (d :: more).take maxErrors :=
      (congrArg DiagnosticLog.kept hLog).trans (DiagnosticLog.kept_ofList _)
    exact ⟨d, by rw [hKept]; rfl, hCode⟩

/-- The height of an accepted program is that of its longest chain, give or take a bound that
depends on the limit of nesting alone. What would be accepted with a higher limit is accepted, or
refused with the report that the limit is reached. -/
theorem parseTokens_nesting (source : Source) (tokens : List Token) :
    (∀ p, (parseTokens source tokens).program = some p →
      p.links ≤ p.height ∧ p.height ≤ p.links + (4 * maxNestingDepth + 5)) ∧
    ∀ limit p, maxNestingDepth ≤ limit → (parseTokensWithin limit source tokens).program = some p →
      (parseTokens source tokens).program = some p ∨
        ∃ d, (parseTokens source tokens).log.kept.head? = some d ∧ d.code = .nestingLimit := by
  refine ⟨fun p hp => ?_, fun limit p hMore hp => ?_⟩
  · obtain ⟨hLower, hUpper⟩ := p.height_bounds
    have hDepth := depth_of_program hp
    exact ⟨hLower, by omega⟩
  · have hRead := refused_of_within hMore hp
    rw [parseTokensWithin_max] at hRead
    exact hRead

/-- `((…(a)…));` with `n` pairs of parentheses. -/
def parenthesized (n : Nat) : List Token :=
  Token.onLine 1 (List.replicate n (.symbol .openParen) ++ [.name "a"] ++
    List.replicate n (.symbol .closeParen) ++ [.symbol .semicolon])

/-- With 110 pairs of parentheses the limit is reported; with a limit of 120 they would be read. -/
theorem parenthesized_refused :
    (∃ p, (parseTokens default identityTokens).program = some p ∧
      p.height ≤ p.links + (4 * maxNestingDepth + 5)) ∧
    (∃ p, (parseTokensWithin 120 default (parenthesized 110)).program = some p) ∧
    ∃ d, (parseTokens default (parenthesized 110)).log.kept.head? = some d ∧
      d.code = .nestingLimit := by
  have hIdentity : (parseTokens default identityTokens).program.isSome = true := by decide +kernel
  have hMore : (parseTokensWithin 120 default (parenthesized 110)).program.isSome = true := by
    decide +kernel
  have hNone : (parseTokens default (parenthesized 110)).program.isSome = false := by decide +kernel
  obtain ⟨p, hp⟩ := Option.isSome_iff_exists.mp hIdentity
  obtain ⟨q, hq⟩ := Option.isSome_iff_exists.mp hMore
  obtain ⟨hBounds, -⟩ := parseTokens_nesting default identityTokens
  obtain ⟨-, hLimit⟩ := parseTokens_nesting default (parenthesized 110)
  refine ⟨⟨p, hp, (hBounds p hp).2⟩, ⟨q, hq⟩, ?_⟩
  rcases hLimit 120 q (by decide) hq with hAccepted | hRefused
  · rw [hAccepted] at hNone
    cases hNone
  · exact hRefused

end AmbScript
