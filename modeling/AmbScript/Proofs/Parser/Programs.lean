import AmbScript.Parser.Basic
import AmbScript.Proofs.Parser.Separators
import AmbScript.Proofs.Parser.Statements

/-!
# Programs that are accepted

What is known of a program that tokens make up, by induction on the depth of the rules.

* `Parser.grammar_derives` — the rules of every depth derive what they give back.
* `parseTokens_valid` — there is a program exactly where nothing is reported, and it keeps the rules
  for jumps and declarations.
* `parseTokens_derives` — the tokens of a program spell it, in the strict grammar if no `for` header
  lacks its first separator.
-/

namespace AmbScript

namespace Parser

variable {lenient : Bool} {text : List Token}

-- ---------------------------------------------------------------------------
-- All depths
-- ---------------------------------------------------------------------------

/-- The rules with room for any depth derive what they give back. -/
theorem grammar_derives (hs : Separated lenient text) (n : Nat) :
    (grammar n).Derives lenient text := by
  induction n with
  | zero => exact Level.derives_refused
  | succ n ih =>
    exact ⟨respects_assignment ih, fun pl => (respects_statements hs ih pl).mono fun _ _ _ h => h.1⟩

/-- Behind a closing brace without an opening one something was reported. So where nothing is, the
statements go on to the end of the text. -/
theorem respects_programLoop (hs : Separated lenient text) (fuel : Nat) (done : List Stmt) :
    Respects text (programLoop fuel done) fun p ss q =>
      0 < fuel → ∃ more, ss = done ++ more ∧ (Phrase.stmts .program more).Derives lenient p q ∧
        q.left = [] := by
  induction fuel generalizing done with
  | zero => exact .pure fun p h => absurd h (Nat.not_lt_zero _)
  | succ fuel ih =>
    have read := respects_statements hs (grammar_derives hs maxNestingDepth) .program
    refine .bind read fun more => .bind respects_check fun closes =>
      .bind respects_logIsFull fun full => .ite (fun stop => .pure ?_) fun _ =>
      .bind respects_report fun _ => .bind respects_advance fun _ => (ih _).mono ?_
    · rintro q _ ⟨rfl, rfl⟩ _ ⟨rfl, closing⟩ p ⟨read, closed⟩ -
      have unclosed : ¬closes = true := by simpa using stop
      exact ⟨more, rfl, read, closed.resolve_left (mt closing.mpr unclosed)⟩
    · exact fun _ _ _ _ _ _ _ h => h.elim

/-- A program is all the statements of its text. -/
theorem respects_program (hs : Separated lenient text) :
    Respects text program fun p prog q =>
      (Phrase.stmts .program prog.body.statements).Derives lenient p q ∧ q.left = [] := by
  refine .bind respects_currentSpan fun start => .bind respects_rounds fun n =>
    .bind (respects_programLoop hs n []) fun ss => .bind respects_previousSpan fun stop => .pure ?_
  rintro q _ ⟨rfl, rfl⟩ p h _ ⟨rfl, enough⟩ _ ⟨rfl, -⟩
  obtain ⟨more, rfl, read, ended⟩ := h (by omega)
  exact ⟨read, ended⟩

-- ---------------------------------------------------------------------------
-- Token lists
-- ---------------------------------------------------------------------------

namespace State

/-- At the start all tokens before the first end are left. -/
theorem left_ofTokens (source : Source) (tokens : List Token) :
    (ofTokens source tokens).left = tokens.takeWhile (!·.kind.is .eof) := by
  cases tokens with
  | nil => exact left_eq_nil rfl
  | cons t ts => rfl

/-- There are more rounds than tokens. -/
theorem in_ofTokens (source : Source) (tokens : List Token) :
    (ofTokens source tokens).In (ofTokens source tokens).left := by
  refine ⟨List.suffix_refl _, ?_⟩
  rw [left_ofTokens]
  have := (List.takeWhile_prefix (l := tokens) (!·.kind.is .eof)).length_le
  show _ < tokens.length + maxErrors + 2
  omega

end State

end Parser

open AmbScript.Parser

-- ---------------------------------------------------------------------------
-- Programs
-- ---------------------------------------------------------------------------

/-- How the reading of a list of tokens ends. -/
theorem Parser.program_ofTokens {lenient : Bool} (source : Source) (tokens : List Token)
    (hs : Separated lenient (State.ofTokens source tokens).left) :
    Outcome (fun p prog q => (Phrase.stmts .program prog.body.statements).Derives lenient p q ∧
      q.left = []) (.ofTokens source tokens) (program (.ofTokens source tokens)) :=
  respects_program hs _ (State.in_ofTokens source tokens)

/-- A log has errors once something was reported. -/
theorem DiagnosticLog.hasErrors_iff {log : DiagnosticLog} : log.hasErrors ↔ log.total ≠ 0 := by
  simp [hasErrors, Nat.pos_iff_ne_zero]

/-- Where nothing was reported, the result of the rule is the program. -/
theorem program_of_quiet {source : Source} {tokens : List Token}
    (h : (parseTokens source tokens).log.total = 0) :
    (parseTokens source tokens).program = (program (.ofTokens source tokens)).1 := by
  refine if_neg fun errors => ?_
  exact DiagnosticLog.hasErrors_iff.mp errors h

/-- Where there is a program, nothing was reported. -/
theorem quiet_of_program {source : Source} {tokens : List Token} {p : Program}
    (h : (parseTokens source tokens).program = some p) :
    (parseTokens source tokens).log.total = 0 := by
  by_cases errors : (parseTokens source tokens).log.hasErrors
  · have missing : (parseTokens source tokens).program = none := if_pos errors
    simp [missing] at h
  · simpa [DiagnosticLog.hasErrors_iff] using errors

/-- What the tokens of a program spell. -/
theorem derives_of_program {lenient : Bool} {source : Source} {tokens : List Token} {p : Program}
    (hs : Separated lenient (State.ofTokens source tokens).left)
    (h : (parseTokens source tokens).program = some p) :
    (Phrase.stmts .program p.body.statements).Derives lenient
      (State.ofTokens source tokens).place
      ⟨(program (.ofTokens source tokens)).2.previous, []⟩ := by
  have quiet := quiet_of_program h
  rw [program_of_quiet quiet] at h
  obtain ⟨read, ended⟩ := (program_ofTokens source tokens hs).quiet quiet p h
  have stop : (program (.ofTokens source tokens)).2.place =
      ⟨(program (.ofTokens source tokens)).2.previous, []⟩ := congrArg (Place.mk _) ended
  exact stop ▸ read

/-- There is a program exactly where nothing is reported. It keeps the rules for jumps and
declarations; that `else if` holds a branch and that a loop starts with a `let` or an expression is
so for every tree. -/
theorem parseTokens_valid (source : Source) (tokens : List Token) :
    ((parseTokens source tokens).program.isSome ↔ (parseTokens source tokens).log = .empty) ∧
      ∀ p, (parseTokens source tokens).program = some p → p.Valid := by
  have hs : Separated true (State.ofTokens source tokens).left := fun _ _ _ => rfl
  -- the lenient grammar derives whatever is read without a report
  have read := program_ofTokens source tokens hs
  refine ⟨⟨fun h => ?_, fun h => ?_⟩, fun p h => ?_⟩
  · obtain ⟨p, h⟩ := Option.isSome_iff_exists.mp h
    have quiet := quiet_of_program h
    rcases read.precedes.log with same | more
    · exact same
    · have : 0 < (parseTokens source tokens).log.total := Nat.zero_lt_of_lt more
      omega
  · have quiet : (parseTokens source tokens).log.total = 0 := by rw [h]; rfl
    rw [program_of_quiet quiet, Option.isSome_iff_ne_none]
    intro failed
    have : 0 < (parseTokens source tokens).log.total := read.failed failed
    omega
  · have valid := (derives_of_program hs h).valid
    obtain ⟨⟨statements, span⟩, _⟩ := p
    exact valid

/-- Tokens of one kind after the other, all on one line. -/
def Token.onLine (line : Nat) (kinds : List Token.Kind) : List Token :=
  kinds.map fun k => ⟨k, .point ⟨line, 1⟩⟩

/-- `let f = function (a) { return a; };` -/
def identityTokens : List Token :=
  Token.onLine 1
    [.symbol .letDecl, .name "f", .symbol .assign, .symbol .function, .symbol .openParen, .name "a",
      .symbol .closeParen, .symbol .openBrace, .symbol .returns, .name "a", .symbol .semicolon,
      .symbol .closeBrace, .symbol .semicolon]

theorem identity_valid :
    ∃ p, (parseTokens default identityTokens).program = some p ∧ p.Valid := by
  have accepted : (parseTokens default identityTokens).program.isSome = true := by decide +kernel
  obtain ⟨p, hp⟩ := Option.isSome_iff_exists.mp accepted
  exact ⟨p, hp, (parseTokens_valid default identityTokens).2 p hp⟩

theorem left_of_body (source : Source) {body : List Token} {stop : Span}
    (hb : ∀ t ∈ body, t.kind ≠ .symbol .eof) :
    (State.ofTokens source (body ++ [.eof stop])).left = body := by
  rw [State.left_ofTokens, List.takeWhile_append_of_pos]
  · simp [Token.eof, Token.Kind.is]
  · intro t ht
    simpa using Token.Kind.is_eq_false.mpr (hb t ht)

/-- The tokens before the end of the text spell the program that they are read as, each of them read
once. They do so in the strict grammar if no `for` header among them lacks its first separator. -/
theorem parseTokens_derives (source : Source) {body : List Token} {stop : Span} {p : Program}
    (hb : ∀ t ∈ body, t.kind ≠ .symbol .eof)
    (h : (parseTokens source (body ++ [.eof stop])).program = some p) :
    ∃ last,
      (Phrase.stmts .program p.body.statements).Derives true ⟨.point ⟨1, 1⟩, body⟩ ⟨last, []⟩ ∧
      ((∀ q : Place, q.left <:+ body → ¬q.LacksSeparator) →
        (Phrase.stmts .program p.body.statements).Derives false ⟨.point ⟨1, 1⟩, body⟩ ⟨last, []⟩) := by
  have start : (State.ofTokens source (body ++ [.eof stop])).place = ⟨.point ⟨1, 1⟩, body⟩ :=
    congrArg (Place.mk _) (left_of_body source hb)
  refine ⟨_, start ▸ derives_of_program (fun _ _ _ => rfl) h, fun separated => ?_⟩
  refine start ▸ derives_of_program (fun q hq lacks => ?_) h
  rw [left_of_body source hb] at hq
  exact absurd lacks (separated q hq)

theorem identity_derives :
    ∃ p last, (parseTokens default (identityTokens ++ [.eof .synthetic])).program = some p ∧
      (Phrase.stmts .program p.body.statements).Derives false ⟨.point ⟨1, 1⟩, identityTokens⟩
        ⟨last, []⟩ := by
  have accepted : (parseTokens default (identityTokens ++ [.eof .synthetic])).program.isSome := by
    decide +kernel
  obtain ⟨p, hp⟩ := Option.isSome_iff_exists.mp accepted
  obtain ⟨last, -, strict⟩ :=
    parseTokens_derives default (by simp [identityTokens, Token.onLine]) hp
  refine ⟨p, last, hp, strict fun q hq lacks => ?_⟩
  obtain ⟨-, m, -, -, -, -, -, -, -, -, -, keyword, -⟩ := lacks
  have mem : ⟨.symbol .forLoop, m.previous⟩ ∈ identityTokens := by
    apply hq.subset
    rw [show q.left = _ from keyword]
    exact List.mem_cons_self
  simp [identityTokens, Token.onLine] at mem

/-- A `for` header with a line break in place of its first semicolon: `for (let i = a`, and on the
next line `i; i) { }`. -/
def brokenHeader : List Token :=
  Token.onLine 1
      [.symbol .forLoop, .symbol .openParen, .symbol .letDecl, .name "i", .symbol .assign,
        .name "a"] ++
    Token.onLine 2
      [.name "i", .symbol .semicolon, .name "i", .symbol .closeParen, .symbol .openBrace,
        .symbol .closeBrace]

/-- The header with a line break for a separator is read as a program, which the strict grammar does
not derive. -/
theorem brokenHeader_accepted :
    ∃ p, (parseTokens default (brokenHeader ++ [.eof .synthetic])).program = some p ∧
      ∀ start last, ¬(Phrase.stmts .program p.body.statements).Derives false ⟨start, brokenHeader⟩
        ⟨last, []⟩ := by
  have accepted : (parseTokens default (brokenHeader ++ [.eof .synthetic])).program.isSome := by
    decide +kernel
  obtain ⟨p, hp⟩ := Option.isSome_iff_exists.mp accepted
  refine ⟨p, hp, fun start last derived => ?_⟩
  have owed : (1 : Int) + 0 ≤ 0 := derived.owed_le
  omega

end AmbScript
