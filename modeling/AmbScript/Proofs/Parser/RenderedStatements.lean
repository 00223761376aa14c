import AmbScript.Parser.Basic
import AmbScript.Proofs.Parser.Programs
import AmbScript.Proofs.Parser.RenderedExpressions

/-!
# Reading rendered programs

The rules for statements read the rendering of statements back, and so do the rules of every depth
and the rule for programs.

* `accepts_statement` — single statements.
* `grammar_accepts` — the rules with room for `n` levels read what takes no more.
* `parseTokens_rendering` — a program whose rendering takes no more nesting than there may be is
  read back from it.

A rendering is read in one line, so no semicolon is ever left out for a line break, and every
statement brings its own. What follows a statement therefore plays no part, but for an `else` behind
a branch, which `NoElse` rules out. The induction is on the nesting that is left: a rule of one
depth reads what is rendered with as much, given that the level below reads what takes less.
-/

namespace AmbScript

namespace Parser

open Token (Kind)

variable {line n : Nat} {inner : Level}

/-- The same statement but for its places. -/
def SameStmt (s a : Stmt) : Prop := a.withoutSpans = s.withoutSpans

/-- The same branch but for its places. -/
def SameBranch (b a : Branch) : Prop := a.withoutSpans = b.withoutSpans

/-- No `else` comes next. -/
def NoElse (rest : List Kind) : Prop := nextKind rest ≠ .symbol .elseBranch

-- ---------------------------------------------------------------------------
-- Declarations and jumps
-- ---------------------------------------------------------------------------

/-- A declaration with its semicolon. Its word is whatever stood before. -/
theorem accepts_declaration (hi : inner.Accepts line n) (x : Symbol) {name : Ident} {e : Expr}
    (declarable : name.Declarable) (valid : e.Valid) (le : e.nesting + 2 ≤ n) :
    Accepts line Anything (declaration inner)
      (.symbol x :: .name name.name :: .symbol .assign :: (e.rendering ++ [.symbol .semicolon]))
      fun d => d.1 = (x == .constDecl) ∧ d.2.1.withoutSpan = name.withoutSpan ∧
        SameExpr e d.2.2.1 := by
  have rest : Accepts line Stops (declarationRest inner)
      (.name name.name :: .symbol .assign :: e.rendering)
      fun d => d.1.withoutSpan = name.withoutSpan ∧ SameExpr e d.2 :=
    .bindingName declarable fun m same => .eat_is (.last (hi.expression e valid le) (fun _ h => h)
      fun a sameInit => .pure ⟨same, sameInit⟩)
  refine .advance fun keyword kind _ _ => ?_
  rw [← List.cons_append, ← List.cons_append]
  refine .bind rest (fun _ _ => stops_cons (by decide)) fun d same =>
    .seen fun stop => .semicolon (.pure ?_)
  rw [kind]
  exact ⟨rfl, same⟩

/-- A `return` with its value, which stands on the same line. -/
theorem accepts_returnStatement (hi : inner.Accepts line n) {pl : Placement} {e : Expr}
    (placed : pl.inFunction = true) (valid : e.Valid) (le : e.nesting + 2 ≤ n) (span : Span) :
    Accepts line Anything (returnStatement inner pl)
      (.symbol .returns :: (e.rendering ++ [.symbol .semicolon])) (SameStmt (.returns e span)) := by
  refine .advance fun keyword kind _ stop => .ite_neg (by simp [placed]) ?_
  refine .check_ne (by simp [Expr.rendering, parens]) (.check_ne (by simp [Expr.rendering, parens])
    (.check_ne (by simp [Expr.rendering, parens]) (.currentSpan fun span start => ?_)))
  refine .ite_neg (by simp [start, stop]) ?_
  refine .bind (hi.expression e valid le) (fun _ _ => stops_cons (by decide)) fun a same =>
    .seen fun previous => .semicolon (.pure ?_)
  rw [SameStmt, Stmt.withoutSpans, same, Stmt.withoutSpans]

/-- `break` or `continue` in a loop. -/
theorem accepts_jumpStatement {pl : Placement} (placed : pl.inLoop = true) {x : Symbol} :
    Accepts line Anything (jumpStatement pl) [.symbol x, .symbol .semicolon]
      fun a => ∃ span, a = if x == .breakLoop then .breakLoop span else .continueLoop span := by
  refine .advance fun token kind _ _ => .ite_neg (by simp [placed]) (.semicolon (.pure ?_))
  rw [kind]
  exact ⟨token.span, rfl⟩

/-- The word `cut` and its semicolon. -/
theorem accepts_cutStatement :
    Accepts line Anything cutStatement [.symbol .cut, .symbol .semicolon]
      fun a => ∃ span, a = .cut span := by
  refine .advance fun token _ _ _ => ?_
  exact .semicolon (.pure ⟨token.span, rfl⟩)

-- ---------------------------------------------------------------------------
-- Branches and loops
-- ---------------------------------------------------------------------------

/-- The test of a branch or a loop, in its two pairs of parentheses. -/
theorem accepts_condition (hi : inner.Accepts line n) {e : Expr} (valid : e.Valid)
    (le : e.nesting + 2 ≤ n) :
    Accepts line Anything (condition inner) (parens e.rendering) (SameExpr e) := by
  refine .expect ?_
  refine .bind (hi.expression e valid le) ?_ ?_
  · intro _ _
    exact stops_cons (by decide)
  · intro _ same
    exact .expect (.pure same)

/-- A branch with what follows `else`. Each further branch of the chain takes one round. -/
theorem accepts_branchLoop (hi : inner.Accepts line n) (pl : Placement) (fuel : Nat) {b : Branch}
    (valid : b.Valid pl) (le : b.nesting ≤ n) (enough : b.rendering.length < fuel) :
    Accepts line NoElse (branchLoop inner pl fuel) b.rendering (SameBranch b) := by
  induction fuel generalizing b with
  | zero => exact absurd enough (Nat.not_lt_zero _)
  | succ fuel ih =>
    obtain ⟨test, consequent, alternate, span⟩ := b
    obtain ⟨leTest, le⟩ := Nat.max_le.mp le
    obtain ⟨leConsequent, leAlternate⟩ := Nat.max_le.mp le
    refine .advance fun keyword _ _ _ => .bind (accepts_condition hi valid.1 leTest)
      (fun _ _ => trivial) fun test' sameTest =>
      .bind (accepts_block hi valid.2.1 leConsequent) (fun _ _ => trivial)
        fun consequent' same => ?_
    -- behind the branch the rule ends in the same way, whatever followed `else`
    have finish {a a' : Alternate} (sameAlternate : a'.withoutSpans = a.withoutSpans) :
        Accepts line NoElse
          (do let stop ← previousSpan
              return Branch.mk test' consequent' a' (keyword.span.merge stop)) []
          (SameBranch (.mk test consequent a span)) := by
      refine .seen fun stop => .pure ?_
      rw [SameBranch, Branch.withoutSpans, sameTest, same, sameAlternate, Branch.withoutSpans]
    cases alternate with
    | absent => exact .eat_ne (fun _ h => h) (.pure_bind (finish rfl))
    | block b =>
      refine .eat_is (.check_ne ?_ (.ite_neg (by simp) (.last
        (accepts_block hi valid.2.2 leAlternate) (fun _ _ => trivial) fun b' sameBlock =>
        .pure_bind (finish ?_))))
      · obtain ⟨ss, span⟩ := b
        simp [Block.rendering, braces]
      · rw [Alternate.withoutSpans, sameBlock, Alternate.withoutSpans]
    | branch b =>
      refine .eat_is (.check_is ?_ (.ite_pos rfl (.last (ih valid.2.2 leAlternate ?_) (fun _ h => h)
        fun b' sameBranch => .pure_bind (finish ?_))))
      · obtain ⟨test, consequent, alternate, span⟩ := b
        exact fun _ _ => rfl
      · simp only [Branch.rendering, Alternate.rendering, List.length_cons, List.length_append]
          at enough
        omega
      · rw [Alternate.withoutSpans, sameBranch, Alternate.withoutSpans]

/-- A loop with its test and its body. -/
theorem accepts_whileStatement (hi : inner.Accepts line n) {pl : Placement} {e : Expr} {b : Block}
    (valid : e.Valid) (validBody : b.Valid pl.loop) (le : e.nesting + 2 ≤ n)
    (leBody : b.nesting ≤ n) (span : Span) :
    Accepts line Anything (whileStatement inner pl)
      (.symbol .whileLoop :: (parens e.rendering ++ b.rendering))
      (SameStmt (.whileLoop e b span)) := by
  refine .advance fun keyword _ _ _ => .bind (accepts_condition hi valid le) (fun _ _ => trivial)
    fun e' same => .last (accepts_block hi validBody leBody) (fun _ _ => trivial) fun b' sameBody =>
    .seen fun stop => .pure ?_
  rw [SameStmt, Stmt.withoutSpans, same, sameBody, Stmt.withoutSpans]

/-- The first part of a header, with its semicolon. -/
theorem accepts_loopInit (hi : inner.Accepts line n) {i : Option LoopInit}
    (valid : LoopInit.ValidOption i) (le : LoopInit.optionNesting i ≤ n) :
    Accepts line Anything (loopInit inner) (LoopInit.renderOption i)
      fun a => LoopInit.optionWithoutSpans a = LoopInit.optionWithoutSpans i := by
  match i with
  | none => exact .eat_is (.pure rfl)
  | some (.declare name e span) =>
    refine .eat_ne (by simp [LoopInit.renderOption, LoopInit.rendering])
      (.check_is (fun _ _ => rfl) (.ite_pos rfl (.last
        (accepts_declaration hi .letDecl valid.1 valid.2 le) (fun _ _ => trivial)
        fun d h => .pure ?_)))
    obtain ⟨-, sameName, sameInit⟩ := h
    rw [LoopInit.optionWithoutSpans, LoopInit.withoutSpans, sameName, sameInit,
      LoopInit.optionWithoutSpans, LoopInit.withoutSpans]
  | some (.expr e) =>
    -- an expression is rendered in parentheses, so it starts with none of let, const and semicolon
    refine .eat_ne (by simp [LoopInit.renderOption, LoopInit.rendering, parens])
      (.check_ne (by simp [LoopInit.renderOption, LoopInit.rendering, parens]) (.ite_neg (by simp)
      (.check_ne (by simp [LoopInit.renderOption, LoopInit.rendering, parens]) (.ite_neg (by simp)
      (.bind (hi.expression e valid le) (fun _ _ => stops_cons (by decide)) fun a same =>
        .expect (.pure ?_))))))
    rw [LoopInit.optionWithoutSpans, LoopInit.withoutSpans, same, LoopInit.optionWithoutSpans,
      LoopInit.withoutSpans]

/-- Another part of a header, with the mark behind it. -/
theorem accepts_optionalExpression (hi : inner.Accepts line n) {close : Symbol}
    (hc : close = .semicolon ∨ close = .closeParen) {e : Option Expr} (valid : Expr.ValidOption e)
    (le : Expr.optionNesting e ≤ n) :
    Accepts line Anything (optionalExpression inner close)
      (Expr.renderOption e ++ [.symbol close])
      fun a => Expr.optionWithoutSpans a = Expr.optionWithoutSpans e := by
  have stops : close ∈ stoppers := by rcases hc with rfl | rfl <;> decide
  match e with
  | none => exact .check_is (fun _ _ => rfl) (.ite_pos rfl (.pure_bind (.expect (.pure rfl))))
  | some e =>
    have notOpen : close ≠ .openParen := by rcases hc with rfl | rfl <;> decide
    refine .check_ne (fun _ _ => by simpa [Expr.renderOption, parens] using Ne.symm notOpen)
      (.ite_neg (by simp) (.bind (.map (hi.expression e valid le))
        (fun _ _ => stops_cons stops) fun a h => .expect (.pure ?_)))
    obtain ⟨a, rfl, same⟩ := h
    rw [Expr.optionWithoutSpans, same, Expr.optionWithoutSpans]

/-- A loop with its header and its body. -/
theorem accepts_forStatement (hi : inner.Accepts line n) {pl : Placement} {i : Option LoopInit}
    {test update : Option Expr} {b : Block} (hinit : LoopInit.ValidOption i)
    (htest : Expr.ValidOption test) (hupdate : Expr.ValidOption update) (hbody : b.Valid pl.loop)
    (le : (Stmt.forLoop i test update b .synthetic).nesting ≤ n) (span : Span) :
    Accepts line Anything (forStatement inner pl) (Stmt.forLoop i test update b span).rendering
      (SameStmt (.forLoop i test update b span)) := by
  obtain ⟨leInit, le⟩ := Nat.max_le.mp le
  obtain ⟨leTest, le⟩ := Nat.max_le.mp le
  obtain ⟨leUpdate, leBody⟩ := Nat.max_le.mp le
  refine .advance fun keyword _ _ _ => .expect (.bind (accepts_loopInit hi hinit leInit)
    (fun _ _ => trivial) fun i' sameInit => ?_)
  rw [List.append_cons]
  refine .bind (accepts_optionalExpression hi (.inl rfl) htest leTest) (fun _ _ => trivial)
    fun test' sameTest => ?_
  rw [List.append_cons]
  refine .bind (accepts_optionalExpression hi (.inr rfl) hupdate leUpdate) (fun _ _ => trivial)
    fun update' sameUpdate => .last (accepts_block hi hbody leBody) (fun _ _ => trivial)
    fun b' sameBody => .seen fun stop => .pure ?_
  rw [SameStmt, Stmt.withoutSpans, sameInit, sameTest, sameUpdate, sameBody, Stmt.withoutSpans]

-- ---------------------------------------------------------------------------
-- Statements
-- ---------------------------------------------------------------------------

/-- A function with a name, as a statement. -/
theorem accepts_functionDeclaration (hi : inner.Accepts line n) {f : Function}
    (named : f.name?.isSome = true) (valid : f.Valid) (le : f.nesting ≤ n) :
    Accepts line Anything (functionDeclaration inner) f.rendering (SameStmt (.function f)) := by
  obtain ⟨_ | name, params, body, span⟩ := f
  · cases named
  · refine .advance fun keyword _ _ _ => .bindingName (valid.1 name rfl) fun m same =>
      .last (accepts_functionRest hi valid.2.1 valid.2.2 le (some m) keyword.span)
        (fun _ _ => trivial) fun f h => .pure ?_
    obtain ⟨ps, b, sp, rfl, sameParams, sameBody⟩ := h
    rw [SameStmt, Stmt.withoutSpans, Function.withoutSpans, sameParams, sameBody,
      Stmt.withoutSpans, Function.withoutSpans, Option.map_some, same, Option.map_some]

/-- A rendered statement is read back by the rule that its first token selects. -/
theorem accepts_statement (hi : inner.Accepts line n) {pl : Placement} {s : Stmt}
    (valid : s.Valid pl) (le : s.nesting ≤ n) :
    Accepts line NoElse (statement inner pl) s.rendering (SameStmt s) := by
  -- only a branch minds what follows it: an else would become its own
  have anyhow {x : Parser Stmt} {ks : List Kind} (h : Accepts line Anything x ks (SameStmt s)) :
      Accepts line NoElse x ks (SameStmt s) := h.mono (fun _ _ => trivial) fun _ h => h
  cases s with
  | expr e =>
    -- the rendering starts with a parenthesis, and so is read as an expression
    refine .currentKind (k := .symbol .openParen) (fun _ _ => rfl) ?_
    refine .bind (hi.expression e valid le) (fun _ _ => stops_cons (by decide)) fun a same =>
      .semicolon (.pure ?_)
    rw [SameStmt, Stmt.withoutSpans, same, Stmt.withoutSpans]
  | declare isConst name e span =>
    have rest : Accepts line NoElse (variableDeclaration inner)
        (Stmt.declare isConst name e span).rendering (SameStmt (.declare isConst name e span)) := by
      refine .last (accepts_declaration hi _ valid.1 valid.2 le) (fun _ _ => trivial)
        fun d h => .pure ?_
      obtain ⟨c, m, init, sp⟩ := d
      obtain ⟨sameConst, sameName, sameInit⟩ := h
      have sameConst : c = isConst := sameConst.trans (by cases isConst <;> rfl)
      rw [SameStmt, Stmt.withoutSpans, sameConst, sameName, sameInit, Stmt.withoutSpans]
    cases isConst with
    | true => exact .currentKind (k := .symbol .constDecl) (fun _ _ => rfl) rest
    | false => exact .currentKind (k := .symbol .letDecl) (fun _ _ => rfl) rest
  | function f =>
    refine .currentKind (k := .symbol .function) ?_ ?_
    · obtain ⟨name, params, body, span⟩ := f
      exact fun _ _ => rfl
    · have rest := anyhow (accepts_functionDeclaration hi valid.1 valid.2 le)
      obtain ⟨_ | name, params, body, span⟩ := f
      · cases valid.1
      · exact .nextIsName (.ite_pos rfl rest)
  | returns e span =>
    exact .currentKind (k := .symbol .returns) (fun _ _ => rfl)
      (anyhow (accepts_returnStatement hi valid.1 valid.2 le span))
  | branch b =>
    obtain ⟨test, consequent, alternate, span⟩ := b
    refine .currentKind (k := .symbol .ifBranch) (fun _ _ => rfl) (.rounds fun fuel enough =>
      .last (accepts_branchLoop hi pl fuel valid le enough) (fun _ h => h) fun a same => .pure ?_)
    rw [SameStmt, Stmt.withoutSpans, same, Stmt.withoutSpans]
  | block b =>
    obtain ⟨ss, span⟩ := b
    refine .currentKind (k := .symbol .openBrace) (fun _ _ => rfl)
      (.last (accepts_block hi valid le) (fun _ _ => trivial) fun a same => .pure ?_)
    rw [SameStmt, Stmt.withoutSpans, same, Stmt.withoutSpans]
  | whileLoop e b span =>
    obtain ⟨leTest, leBody⟩ := Nat.max_le.mp le
    exact .currentKind (k := .symbol .whileLoop) (fun _ _ => rfl)
      (anyhow (accepts_whileStatement hi valid.1 valid.2 leTest leBody span))
  | forLoop i test update b span =>
    exact .currentKind (k := .symbol .forLoop) (fun _ _ => rfl) (anyhow
      (accepts_forStatement hi valid.1 valid.2.1 valid.2.2.1 valid.2.2.2 le span))
  | breakLoop span =>
    refine .currentKind (k := .symbol .breakLoop) (fun _ _ => rfl)
      ((accepts_jumpStatement valid).mono (fun _ _ => trivial) ?_)
    rintro _ ⟨sp, rfl⟩
    rfl
  | continueLoop span =>
    refine .currentKind (k := .symbol .continueLoop) (fun _ _ => rfl)
      ((accepts_jumpStatement valid).mono (fun _ _ => trivial) ?_)
    rintro _ ⟨sp, rfl⟩
    rfl
  | cut span =>
    refine .currentKind (k := .symbol .cut) (fun _ _ => rfl)
      (accepts_cutStatement.mono (fun _ _ => trivial) ?_)
    rintro _ ⟨sp, rfl⟩
    rfl

/-- No statement starts with a token that ends a block, a stray semicolon or an `else`. -/
theorem starts_statement (s : Stmt) (ks : List Kind) :
    ∀ x ∈ [Symbol.closeBrace, .eof, .semicolon, .elseBranch],
      nextKind (s.rendering ++ ks) ≠ .symbol x := by
  have start : ∃ k rest, s.rendering = k :: rest ∧
      ∀ x ∈ [Symbol.closeBrace, .eof, .semicolon, .elseBranch], k ≠ .symbol x := by
    rcases s with _ | ⟨_ | _, _, _, _⟩ | ⟨_, _, _, _⟩ | _ | ⟨_, _, _, _⟩ | ⟨_, _⟩ | _ | _ | _ |
        _ | _ <;>
      exact ⟨_, _, rfl, by simp⟩
  obtain ⟨k, rest, hs, hk⟩ := start
  rw [hs]
  exact hk

/-- Statements behind those that are `done`; each takes one round. -/
theorem accepts_statementLoop (hi : inner.Accepts line n) (pl : Placement) {ss : List Stmt}
    (valid : Stmt.AllValid ss pl) (le : Stmt.allNesting ss ≤ n) (done : List Stmt) (fuel : Nat)
    (enough : (Stmt.renderAll ss).length < fuel) :
    Accepts line EndsBlock (statementLoop inner pl fuel done) (Stmt.renderAll ss)
      fun as => ∃ more, as = done.reverse ++ more ∧ SameStmts ss more := by
  induction ss generalizing done fuel with
  | nil =>
    obtain ⟨fuel, rfl⟩ : ∃ m, fuel = m + 1 := ⟨fuel - 1, by omega⟩
    refine .or ?_ ?_
    · exact .check_is (fun _ h => h) (.check_ne (fun rest h => by simp [Stmt.renderAll, h])
        (.logIsFull (.ite_pos rfl (.pure ⟨[], by simp, rfl⟩))))
    · exact .check_ne (fun rest h => by simp [Stmt.renderAll, h]) (.check_is (fun _ h => h)
        (.logIsFull (.ite_pos rfl (.pure ⟨[], by simp, rfl⟩))))
  | cons s ss ih =>
    obtain ⟨fuel, rfl⟩ : ∃ m, fuel = m + 1 := ⟨fuel - 1, by omega⟩
    obtain ⟨leFirst, leRest⟩ := Nat.max_le.mp le
    have starts (x : Symbol) (hx : x ∈ [Symbol.closeBrace, .eof, .semicolon, .elseBranch])
        (rest : List Kind) : nextKind (Stmt.renderAll (s :: ss) ++ rest) ≠ .symbol x := by
      rw [Stmt.renderAll, List.append_assoc]
      exact starts_statement s _ x hx
    -- behind a statement stands another one or the end, and neither starts with `else`
    have follows (rest : List Kind) (h : EndsBlock rest) : NoElse (Stmt.renderAll ss ++ rest) := by
      cases ss with
      | nil => rcases h with h | h <;> simp [NoElse, Stmt.renderAll, h]
      | cons s' ss =>
        rw [Stmt.renderAll, List.append_assoc]
        exact starts_statement s' _ _ (by simp)
    refine .check_ne (fun rest _ => starts _ (by simp) rest) (.check_ne
      (fun rest _ => starts _ (by simp) rest) (.logIsFull (.ite_neg (by simp) (.eat_ne
      (fun rest _ => starts _ (by simp) rest) (.bind
      (.attempt (accepts_statement hi valid.1 leFirst)) follows fun o h => ?_)))))
    obtain ⟨a, rfl, same⟩ := h
    -- every statement takes one token at least, so there are rounds enough for the others
    have shorter : (Stmt.renderAll ss).length < fuel := by
      obtain ⟨k, rest, hs⟩ : ∃ k rest, s.rendering = k :: rest := by
        cases hs : s.rendering with
        | nil => exact absurd (by simp [hs]) (starts_statement s [] .eof (by simp))
        | cons k rest => exact ⟨k, rest, rfl⟩
      simp only [Stmt.renderAll, hs, List.length_append, List.length_cons] at enough
      omega
    refine (ih valid.2 leRest (a :: done) fuel shorter).mono (fun _ h => h) ?_
    rintro as ⟨more, rfl, sameRest⟩
    refine ⟨a :: more, by simp, ?_⟩
    rw [SameStmts, Stmt.allWithoutSpans, Stmt.allWithoutSpans, same, sameRest]

/-- Statements up to the end of a block or of the text. -/
theorem accepts_statements (hi : inner.Accepts line n) (pl : Placement) {ss : List Stmt}
    (valid : Stmt.AllValid ss pl) (le : Stmt.allNesting ss ≤ n) :
    Accepts line EndsBlock (statements inner pl) (Stmt.renderAll ss) (SameStmts ss) := by
  refine .rounds fun fuel enough => ?_
  refine (accepts_statementLoop hi pl valid le [] fuel enough).mono (fun _ h => h) ?_
  rintro as ⟨more, rfl, same⟩
  exact same

-- ---------------------------------------------------------------------------
-- All depths and programs
-- ---------------------------------------------------------------------------

/-- The rules with room for `n` levels read what takes no more. -/
theorem grammar_accepts (n : Nat) : (grammar n).Accepts line n := by
  induction n with
  | zero =>
    exact ⟨fun _ _ le => absurd le (by omega), fun _ _ le => absurd le (by omega),
      fun _ _ _ le => absurd le (by omega)⟩
  | succ n ih =>
    exact ⟨fun e valid le => accepts_inside ih valid (by omega),
      fun e valid le => accepts_rendering ih valid (by omega),
      fun pl ss valid le => accepts_statements ih pl valid (by omega)⟩

/-- Statements up to the end of the text make up a program. -/
theorem accepts_program {p : Program} (valid : p.Valid) (le : p.nesting ≤ maxNestingDepth) :
    Accepts line (fun rest => nextKind rest = .symbol .eof) program p.rendering
      fun a => a.withoutSpans = p.withoutSpans := by
  obtain ⟨⟨ss, span⟩, span'⟩ := p
  refine .seen fun start => .rounds fun fuel enough => ?_
  obtain ⟨fuel, rfl⟩ : ∃ m, fuel = m + 1 := ⟨fuel - 1, by omega⟩
  have body : Accepts line (fun rest => nextKind rest = .symbol .eof) (programLoop (fuel + 1) [])
      (Stmt.renderAll ss) (SameStmts ss) := by
    refine .last (accepts_statements (grammar_accepts maxNestingDepth) .program valid le)
      (fun _ h => .inr h) fun as same => .check_ne (fun rest h => ?_)
        (.logIsFull (.ite_pos (by simp) (.pure same)))
    simp [h]
  refine .last body (fun _ h => h) fun as same => .seen fun previous => .pure ?_
  rw [Program.withoutSpans, Block.withoutSpans, same, Program.withoutSpans, Block.withoutSpans]

end Parser

open AmbScript.Parser

/-- A program is read back from its canonical rendering, with all tokens on one line, if no more
expressions and blocks are nested in it than may be. -/
theorem parseTokens_rendering (source : Source) (line : Nat) {p : Program} {body ends : List Token}
    (valid : p.Valid) (nesting : p.nesting ≤ maxNestingDepth)
    (kinds : body.map (·.kind) = p.rendering)
    (onLine : ∀ t ∈ body, t.span.start.line = line ∧ t.span.stop.line = line)
    (ended : ∀ t ∈ ends, t.kind = .symbol .eof) :
    ∃ p', parseTokens source (body ++ ends) = ⟨some p', .empty⟩ ∧
      p'.withoutSpans = p.withoutSpans := by
  have plain : Plain (body.map (·.kind)) := kinds ▸ Stmt.plain_renderAll p.body.statements
  -- the ends of the text behind the body are not left to be read
  have left : (State.ofTokens source (body ++ ends)).left = body := by
    have none : ends.takeWhile (!·.kind.is .eof) = [] := by
      cases ends with
      | nil => rfl
      | cons t ts => simp [Token.Kind.is_iff.mpr (ended t (by simp))]
    rw [State.left_ofTokens, List.takeWhile_append_of_pos, none, List.append_nil]
    intro t ht
    simpa using Token.Kind.is_eq_false.mpr (plain t.kind (List.mem_map_of_mem ht)).1
  have upcoming : (State.ofTokens source (body ++ ends)).Upcoming line (p.rendering ++ []) := by
    refine ⟨by rw [left, kinds, List.append_nil], ?_, left.symm ▸ onLine, fun t ht => ?_, rfl⟩
    · rw [List.append_nil, ← kinds, List.length_map]
      show body.length < (body ++ ends).length + maxErrors + 2
      rw [List.length_append]
      omega
    · have ht : t ∈ (body ++ ends).drop 1 := ht
      rcases List.mem_append.mp (List.mem_of_mem_drop ht) with ht | ht
      · exact (plain t.kind (List.mem_map_of_mem ht)).2
      · rw [ended t ht]
        simp
  obtain ⟨p', t, run, same, done⟩ := accepts_program valid nesting _ [] rfl upcoming
  refine ⟨p', ?_, same⟩
  rw [parseTokens, run]
  simp only [done.log]
  rfl

/-- `function f(a) { return (a); }`, without places. -/
def identityProgram : Program :=
  ⟨.mk [.function (.mk (some ⟨"f", .synthetic⟩) [⟨"a", .synthetic⟩]
    (.mk [.returns (.ident ⟨"a", .synthetic⟩) .synthetic] .synthetic) .synthetic)] .synthetic,
    .synthetic⟩

/-- The rendering of that program, all on line one, is read back. -/
theorem identityProgram_rendering :
    ∃ p', parseTokens default (Token.onLine 1 identityProgram.rendering ++ [.eof .synthetic]) =
      ⟨some p', .empty⟩ ∧ p'.withoutSpans = identityProgram.withoutSpans := by
  have valid : identityProgram.Valid := by
    simp [identityProgram, Program.Valid, Block.Valid, Stmt.AllValid, Stmt.Valid, Function.Valid,
      Function.name?, ValidParams, Ident.Declarable, reservedNames, Expr.Valid, Placement.function]
  exact parseTokens_rendering default 1 valid (by decide) rfl (by simp [Token.onLine, Span.point])
    (by simp [Token.eof])

end AmbScript
