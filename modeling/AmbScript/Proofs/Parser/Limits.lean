import AmbScript.Proofs.Parser.Results

/-!
# More room for nesting

A rule with more room for nesting does the same as one with less, up to the place where the latter
is refused. There it reports that the limit is reached, before it reports anything that the other
one does not.

* `Widens` — two rules agree until the limit of the first one is reported.
* `Widens.bind`, `Widens.same` — sequences of rules, and rules that use no level.
* `widens_assignment`, `widens_statements` — the two rules of a level, if those of the next level
  do.
* `widens_grammar` — levels of any two depths.

So the limit is a matter of reports: a text in which the limit is never reported is read as if there
were none. The two readings run side by side. While they agree there is nothing to show; once the
first one is refused, all that matters is that logs only grow, whatever the rules do from there.
-/

namespace AmbScript

namespace DiagnosticLog

/-- Nothing has become of the log but that something may have been reported. -/
def Grows (log log' : DiagnosticLog) : Prop := ∃ ds : List Diagnostic, log' = ds.foldl push log

variable {log log' a b : DiagnosticLog}

theorem Grows.refl (log : DiagnosticLog) : log.Grows log := ⟨[], rfl⟩

/-- Reports are put behind reports. -/
theorem Grows.trans (h : log.Grows a) (h' : a.Grows b) : log.Grows b := by
  obtain ⟨ds, rfl⟩ := h
  obtain ⟨es, rfl⟩ := h'
  exact ⟨ds ++ es, List.foldl_append.symm⟩

/-- Of what has become of `log`, the first report in `a` that is not in `b` is that the limit of
nesting is reached. -/
def Refused (log a b : DiagnosticLog) : Prop :=
  ∃ (both more others : List Diagnostic) (d : Diagnostic), d.code = .nestingLimit ∧
    a = (both ++ d :: more).foldl push log ∧ b = (both ++ others).foldl push log

/-- What was reported before belongs to both. -/
theorem Refused.behind (h : log.Grows log') (h' : log'.Refused a b) : log.Refused a b := by
  obtain ⟨ds, rfl⟩ := h
  obtain ⟨both, more, others, d, hCode, rfl, rfl⟩ := h'
  refine ⟨ds ++ both, more, others, d, hCode, ?_, ?_⟩
  · rw [← List.foldl_append, List.append_assoc]
  · rw [← List.foldl_append, List.append_assoc]

/-- What is reported afterwards does not change which report came first. -/
theorem Refused.further {a' b' : DiagnosticLog} (h : log.Refused a b) (ha : a.Grows a')
    (hb : b.Grows b') : log.Refused a' b' := by
  obtain ⟨both, more, others, d, hCode, rfl, rfl⟩ := h
  obtain ⟨ds, rfl⟩ := ha
  obtain ⟨es, rfl⟩ := hb
  refine ⟨both, more ++ ds, others ++ es, d, hCode, ?_, ?_⟩
  · rw [← List.foldl_append, List.append_assoc, List.cons_append]
  · rw [← List.foldl_append, List.append_assoc]

end DiagnosticLog

namespace Parser

open DiagnosticLog

variable {α β : Type}

-- ---------------------------------------------------------------------------
-- Rules that agree up to a limit
-- ---------------------------------------------------------------------------

/-- The log only grows. -/
theorem steady_grows (log : DiagnosticLog) :
    Steady (fun s => log.Grows s.log) fun _ => True where
  current _ _ := trivial
  previous _ _ := trivial
  advanced s h := by
    unfold State.advanced
    split
    · exact h
    · split
      · exact h
      · exact h
  reported s code message span h _ := h.trans ⟨[.quoting s.source code message span], rfl⟩
  merge _ _ _ _ := trivial

/-- The second rule does what the first one does, unless the first one is refused. -/
structure Widens (x y : Parser α) : Prop where
  left : ∀ s : State, s.log.Grows (x s).2.log
  right : ∀ s : State, s.log.Grows (y s).2.log
  agree : ∀ s : State, x s = y s ∨ s.log.Refused (x s).2.log (y s).2.log

/-- A rule that keeps whatever all steps keep lets the log grow. -/
theorem grows_of_steady {x : Parser α} {Q : (Span → Prop) → α → Prop}
    (h : ∀ {I : State → Prop} {P : Span → Prop}, Steady I P → Ensures I x (Q P)) (s : State) :
    s.log.Grows (x s).2.log :=
  (h (steady_grows s.log) s (.refl s.log)).1

namespace Widens

/-- A rule that uses no level. -/
theorem same {x : Parser α} {Q : (Span → Prop) → α → Prop}
    (h : ∀ {I : State → Prop} {P : Span → Prop}, Steady I P → Ensures I x (Q P)) : Widens x x := by
  refine ⟨grows_of_steady h, grows_of_steady h, ?_⟩
  intro _
  exact .inl rfl

variable {x y : Parser α} {f g : α → Parser β}

/-- Looking does not depend on the level. -/
theorem look {f : State → α} : Widens (look f) (look f) := by
  refine ⟨?_, ?_, ?_⟩
  · intro s
    exact .refl s.log
  · intro s
    exact .refl s.log
  · intro _
    exact .inl rfl

theorem pure {a : α} : Widens (pure a) (pure a) := by
  refine ⟨?_, ?_, ?_⟩
  · intro s
    exact .refl s.log
  · intro s
    exact .refl s.log
  · intro _
    exact .inl rfl

theorem fail : Widens (fail : Parser α) fail := by
  refine ⟨?_, ?_, ?_⟩
  · intro s
    exact .refl s.log
  · intro s
    exact .refl s.log
  · intro _
    exact .inl rfl

/-- The second rule only adds reports. -/
theorem grows_bind (hf : ∀ (a : α) (s : State), s.log.Grows (f a s).2.log) (s : State) :
    (x s).2.log.Grows ((x >>= f) s).2.log := by
  rcases hxs : x s with ⟨- | a, t⟩
  · rw [bind_of_none hxs]
    exact .refl t.log
  · rw [bind_of_some hxs]
    exact hf a t

/-- If the first rule is refused, whatever the second one does comes later. Otherwise both start the
second one in the same state. -/
theorem bind (hx : Widens x y) (hf : ∀ a, Widens (f a) (g a)) : Widens (x >>= f) (y >>= g) := by
  have hLeft := grows_bind (x := x) (f := f) fun a => (hf a).left
  have hRight := grows_bind (x := y) (f := g) fun a => (hf a).right
  refine ⟨fun s => (hx.left s).trans (hLeft s), fun s => (hx.right s).trans (hRight s), fun s => ?_⟩
  rcases hx.agree s with hSame | hRefused
  · have hGrows := hx.right s
    rcases hys : y s with ⟨- | a, t⟩
    · rw [bind_of_none hys, bind_of_none (hSame.trans hys)]
      exact .inl rfl
    · rw [hys] at hGrows
      rw [bind_of_some hys, bind_of_some (hSame.trans hys)]
      exact ((hf a).agree t).imp_right fun h => h.behind hGrows
  · exact .inr (hRefused.further (hLeft s) (hRight s))

/-- What is done with the result depends on no level. -/
theorem map {h : α → β} (hx : Widens x y) : Widens (h <$> x) (h <$> y) := hx.bind fun _ => .pure

/-- The test is the same for both. -/
theorem ite {c : Prop} [Decidable c] {x' y' : Parser α} (hx : c → Widens x y)
    (hy : ¬c → Widens x' y') : Widens (if c then x else x') (if c then y else y') := by
  split
  · exact hx ‹c›
  · exact hy ‹¬c›

/-- A failure that is caught has left its reports. -/
theorem attempt (hx : Widens x y) : Widens (attempt x) (attempt y) := by
  refine ⟨hx.left, hx.right, fun s => (hx.agree s).imp_left fun hSame => ?_⟩
  show (some (x s).1, (x s).2) = (some (y s).1, (y s).2)
  rw [hSame]

/-- To be refused is to report the limit first. -/
theorem refuse (hy : ∀ s : State, s.log.Grows (y s).2.log) : Widens refuse y := by
  refine ⟨grows_of_steady fun hs => hs.refuse (Q := fun _ => True), hy, fun s => .inr ?_⟩
  obtain ⟨ds, hLog⟩ := hy s
  exact ⟨[], [], ds, _, rfl, rfl, hLog⟩

end Widens

/-- The rules of the second level do what those of the first one do, unless these are refused. -/
structure Level.Widens (inner outer : Level) : Prop where
  expression : Parser.Widens inner.expression outer.expression
  statements : ∀ pl, Parser.Widens (inner.statements pl) (outer.statements pl)

variable {inner outer : Level}

/-- Reading an expected symbol uses no level. -/
theorem widens_eat (x : Symbol) : Widens (eat x) (eat x) := .same fun hs => hs.eat x

theorem widens_expect (x : Symbol) : Widens (expect x) (expect x) := .same fun hs => hs.expect x

theorem widens_advance : Widens advance advance := by
  refine .same (Q := fun P t => P t.span) fun hs => ?_
  exact hs.advance

theorem widens_semicolon : Widens semicolon semicolon := .same fun hs => hs.semicolon

theorem widens_bindingName : Widens bindingName bindingName := by
  refine .same (Q := fun P name => P name.span) fun hs => ?_
  exact hs.bindingName

theorem widens_reportAt (code : Code) (message : String) (span : Span) :
    Widens (reportAt code message span) (reportAt code message span) := by
  refine ⟨?_, ?_, ?_⟩
  · intro _
    exact ⟨[_], rfl⟩
  · intro _
    exact ⟨[_], rfl⟩
  · intro _
    exact .inl rfl

theorem widens_failing (code : Code) (message : String) :
    Widens (do report code message; (fail : Parser α)) (do report code message; fail) :=
  .same fun hs => hs.failing code message (Q := fun _ => True)

variable (h : inner.Widens outer)

include h

/-- A block reads its statements at the level below. -/
theorem widens_block (pl : Placement) : Widens (block inner pl) (block outer pl) := by
  refine .bind .look fun _ => ?_
  refine .bind (widens_expect _) fun _ => ?_
  refine .bind (h.statements pl) fun _ => ?_
  refine .bind (widens_expect _) fun _ => ?_
  refine .bind .look fun _ => ?_
  exact .pure

/-- A function reads its body as a block. -/
theorem widens_functionRest (name : Option Ident) (start : Span) :
    Widens (functionRest inner name start) (functionRest outer name start) := by
  refine .bind (widens_expect _) fun _ => ?_
  refine .bind (.same fun hs => hs.paramList) fun _ => ?_
  refine .bind (widens_expect _) fun _ => ?_
  refine .bind (widens_block h .function) fun _ => ?_
  refine .bind .look fun _ => ?_
  exact .pure

-- ---------------------------------------------------------------------------
-- Expressions
-- ---------------------------------------------------------------------------

/-- Items are expressions of the level below. -/
theorem widens_commaLoop (close : Symbol) (fuel : Nat) (done : List Expr) :
    Widens (commaLoop inner close fuel done) (commaLoop outer close fuel done) := by
  induction fuel generalizing done with
  | zero => exact .pure
  | succ fuel ih =>
    refine .bind .look fun _ => .ite (fun _ => .pure) fun _ => .bind h.expression fun item => ?_
    exact .bind (widens_eat _) fun _ => .ite (fun _ => ih _) fun _ => .pure

theorem widens_commaList (close : Symbol) :
    Widens (commaList inner close) (commaList outer close) := by
  refine .bind .look fun n => ?_
  refine .bind (widens_commaLoop h close n []) fun _ => ?_
  refine .bind (widens_expect _) fun _ => ?_
  exact .pure

/-- What begins an expression uses a level only between parentheses, brackets or braces. -/
theorem widens_primary : Widens (primary inner) (primary outer) := by
  refine .bind .look fun token => ?_
  cases atom? token with
  | some e => exact .bind widens_advance fun _ => .pure
  | none =>
    refine .bind (widens_eat _) fun _ => .ite (fun _ => ?_) fun _ => ?_
    · exact .bind (widens_commaList h _) fun _ => .bind .look fun _ => .pure
    · refine .bind (widens_eat _) fun _ => .ite (fun _ => ?_) fun _ => ?_
      · exact .bind h.expression fun _ => .bind (widens_expect _) fun _ => .pure
      · refine .bind (widens_eat _) fun _ => .ite (fun _ => ?_) fun _ => ?_
        · refine .bind ?_ fun name => .bind (widens_functionRest h name token.span) fun _ => .pure
          exact .bind .look fun _ => .ite (fun _ => .bind widens_bindingName fun _ => .pure)
            fun _ => .pure
        · exact .bind .look fun _ => .ite (fun _ => widens_failing _ _) fun _ => widens_failing _ _

/-- Arguments and keys are read at the level below. -/
theorem widens_postfixLoop (fuel : Nat) (e : Expr) :
    Widens (postfixLoop inner fuel e) (postfixLoop outer fuel e) := by
  induction fuel generalizing e with
  | zero => exact .pure
  | succ fuel ih =>
    refine .bind (widens_eat _) fun _ => .ite (fun _ => ?_) fun _ => ?_
    · exact .bind (widens_commaList h _) fun _ => .bind .look fun _ => ih _
    · refine .bind (widens_eat _) fun _ => .ite (fun _ => ?_) fun _ => ?_
      · exact .bind h.expression fun _ => .bind (widens_expect _) fun _ => .bind .look fun _ => ih _
      · refine .bind (widens_eat _) fun _ => .ite (fun _ => ?_) fun _ => .pure
        exact .bind (.same (Q := fun P name => P name.span) fun hs => hs.identifier) fun _ => ih _

/-- Chains of operators use no level. -/
theorem widens_unary : Widens (unary inner) (unary outer) := by
  refine .bind .look fun n => .bind ?_ fun ops => .bind ?_ fun _ => .pure
  · exact .same (Q := fun P ops => ∀ op ∈ ops, P op.2)
      fun hs => hs.unaryOps n [] fun _ hOp => absurd hOp List.not_mem_nil
  · exact .bind .look fun n => .bind (widens_primary h) fun e => widens_postfixLoop h n e

omit h in
/-- The loop over operators widens, if what reads the right operands does. -/
theorem widens_climbLoop {x y : Nat → Parser Expr} {least : Nat}
    (hOperand : ∀ p, least ≤ p → p < InfixOp.tiers → Widens (x (p + 1)) (y (p + 1)))
    (fuel : Nat) (left : Expr) : Widens (climbLoop x least fuel left) (climbLoop y least fuel left) := by
  induction fuel generalizing left with
  | zero => exact .pure
  | succ fuel ih =>
    refine .bind .look fun kind => ?_
    cases hOp : InfixOp.ofKind? kind with
    | none => exact .pure
    | some found =>
      obtain ⟨op, p⟩ := found
      refine .ite (fun _ => .pure) fun hAbove => ?_
      have hRightOperand := hOperand p (by omega) (InfixOp.lt_tiers hOp)
      exact .bind widens_advance fun _ => .bind hRightOperand fun _ => ih _

/-- Nor do operators between expressions; their operands are read as before. -/
theorem widens_binary (least : Nat) : Widens (binary inner least) (binary outer least) := by
  induction least using InfixOp.threshold_induction with
  | step least ih =>
    rw [binary_eq, binary_eq]
    exact .bind (widens_unary h) fun left => .bind .look fun fuel => widens_climbLoop ih fuel left

/-- The two results are expressions of the level below. -/
theorem widens_conditional : Widens (conditional inner) (conditional outer) := by
  refine .bind (widens_binary h 0) fun test => .bind (widens_eat _) fun _ =>
    .ite (fun _ => ?_) fun _ => .pure
  exact .bind h.expression fun _ => .bind (widens_expect _) fun _ => .bind h.expression fun _ => .pure

/-- The body of an arrow function is a block, or an expression of the level below. -/
theorem widens_arrowFunction : Widens (arrowFunction inner) (arrowFunction outer) := by
  refine .bind .look fun _ => .bind (.same fun hs => hs.arrowParams) fun _ =>
    .bind (widens_expect _) fun _ => .bind ?_ fun _ => .bind .look fun _ => .pure
  refine .bind .look fun _ => .ite (fun _ => widens_block h .function) fun _ => ?_
  exact .bind h.expression fun _ => .pure

theorem widens_assignment : Widens (assignment inner) (assignment outer) := by
  refine .bind .look fun _ => .ite (fun _ => widens_arrowFunction h) fun _ => ?_
  refine .bind (widens_conditional h) fun target => .bind (widens_eat _) fun _ =>
    .ite (fun _ => ?_) fun _ => .pure
  cases target.ident? with
  | some name => exact .bind h.expression fun _ => .pure
  | none =>
    exact .bind (widens_reportAt _ _ _) fun _ => .fail

-- ---------------------------------------------------------------------------
-- Statements
-- ---------------------------------------------------------------------------

theorem widens_declaration : Widens (declaration inner) (declaration outer) := by
  refine .bind widens_advance fun _ => .bind ?_ fun _ => .bind .look fun _ =>
    .bind widens_semicolon fun _ => .pure
  refine .bind widens_bindingName fun _ => .bind (widens_eat _) fun _ => .ite (fun _ => ?_) fun _ => ?_
  · exact .bind h.expression fun _ => .pure
  · exact widens_failing _ _

theorem widens_returnStatement (pl : Placement) :
    Widens (returnStatement inner pl) (returnStatement outer pl) := by
  refine .bind widens_advance fun token => ?_
  -- behind the value both do the same
  have hFinish (value : Expr) : Widens
      (do let previous ← previousSpan
          semicolon
          return Stmt.returns value (token.span.merge previous))
      (do let previous ← previousSpan
          semicolon
          return Stmt.returns value (token.span.merge previous)) :=
    .bind .look fun _ => .bind widens_semicolon fun _ => .pure
  have hRest : Widens
      (do let bare := (← check .semicolon) || (← check .closeBrace) || (← atEnd) ||
            (← currentSpan).start.line > token.span.stop.line
          let value ← if bare then pure (.undefined token.span) else inner.expression
          let previous ← previousSpan
          semicolon
          return Stmt.returns value (token.span.merge previous))
      (do let bare := (← check .semicolon) || (← check .closeBrace) || (← atEnd) ||
            (← currentSpan).start.line > token.span.stop.line
          let value ← if bare then pure (.undefined token.span) else outer.expression
          let previous ← previousSpan
          semicolon
          return Stmt.returns value (token.span.merge previous)) := by
    refine .bind .look fun _ => .bind .look fun _ => .bind .look fun _ => .bind .look fun _ =>
      .ite (fun _ => .bind .pure hFinish) fun _ => .bind h.expression hFinish
  exact .ite (fun _ => .bind (widens_reportAt _ _ _) fun _ => hRest) fun _ => hRest

theorem widens_condition : Widens (condition inner) (condition outer) := by
  refine .bind (widens_expect _) fun _ => ?_
  refine .bind h.expression fun _ => ?_
  refine .bind (widens_expect _) fun _ => ?_
  exact .pure

/-- A chain of branches uses no level of its own. -/
theorem widens_branchLoop (pl : Placement) (fuel : Nat) :
    Widens (branchLoop inner pl fuel) (branchLoop outer pl fuel) := by
  induction fuel with
  | zero => exact .fail
  | succ fuel ih =>
    refine .bind widens_advance fun token => .bind (widens_condition h) fun test =>
      .bind (widens_block h pl) fun consequent => ?_
    -- the three ways to go on, else if, else and neither, end alike
    have hFinish (alternate : Alternate) : Widens
        (do let stop ← previousSpan
            return Branch.mk test consequent alternate (token.span.merge stop))
        (do let stop ← previousSpan
            return Branch.mk test consequent alternate (token.span.merge stop)) :=
      .bind .look fun _ => .pure
    refine .bind (widens_eat _) fun _ => .ite (fun _ => ?_) fun _ => hFinish .absent
    refine .bind .look fun _ => .ite (fun _ => ?_) fun _ => ?_
    · exact .bind ih fun b => hFinish (.branch b)
    · exact .bind (widens_block h pl) fun b => hFinish (.block b)

/-- A loop reads its test and its body below. -/
theorem widens_whileStatement (pl : Placement) :
    Widens (whileStatement inner pl) (whileStatement outer pl) := by
  refine .bind widens_advance fun _ => ?_
  refine .bind (widens_condition h) fun _ => ?_
  refine .bind (widens_block h pl.loop) fun _ => ?_
  refine .bind .look fun _ => ?_
  exact .pure

/-- The first part of a header. -/
theorem widens_loopInit : Widens (loopInit inner) (loopInit outer) := by
  refine .bind (widens_eat _) fun _ => .ite (fun _ => .pure) fun _ => ?_
  refine .bind .look fun _ => .ite (fun _ => ?_) fun _ => ?_
  · exact .bind (widens_declaration h) fun _ => .pure
  · refine .bind .look fun _ => .ite (fun _ => widens_failing _ _) fun _ => ?_
    exact .bind h.expression fun _ => .bind (widens_expect _) fun _ => .pure

/-- The other parts of a header. -/
theorem widens_optionalExpression (close : Symbol) :
    Widens (optionalExpression inner close) (optionalExpression outer close) := by
  have hFinish (e : Option Expr) : Widens (do expect close; return e) (do expect close; return e) :=
    .bind (widens_expect _) fun _ => .pure
  refine .bind .look fun _ => .ite (fun _ => ?_) fun _ => ?_
  · exact .bind .pure hFinish
  · exact .bind (.map h.expression) hFinish

/-- A loop with its header and its body. -/
theorem widens_forStatement (pl : Placement) :
    Widens (forStatement inner pl) (forStatement outer pl) := by
  refine .bind widens_advance fun _ => ?_
  refine .bind (widens_expect _) fun _ => ?_
  refine .bind (widens_loopInit h) fun _ => ?_
  refine .bind (widens_optionalExpression h _) fun _ => ?_
  refine .bind (widens_optionalExpression h _) fun _ => ?_
  refine .bind (widens_block h pl.loop) fun _ => ?_
  refine .bind .look fun _ => ?_
  exact .pure

theorem widens_statement (pl : Placement) : Widens (statement inner pl) (statement outer pl) := by
  have hDeclaration : Widens (variableDeclaration inner) (variableDeclaration outer) :=
    .bind (widens_declaration h) fun _ => .pure
  have hExpression : Widens (expressionStatement inner) (expressionStatement outer) :=
    .bind h.expression fun _ => .bind widens_semicolon fun _ => .pure
  -- `break` and `continue` have no parts, so any bound on their depth will do
  have hJump : Widens (jumpStatement pl) (jumpStatement pl) :=
    .same (Q := fun _ s => s.weigh 0 1 ≤ 4) fun hs => hs.jumpStatement pl (h := 0)
  refine .bind .look fun k => ?_
  split
  · exact hDeclaration
  · exact hDeclaration
  · refine .bind .look fun _ => .ite (fun _ => ?_) fun _ => hExpression
    exact .bind widens_advance fun token => .bind widens_bindingName fun name =>
      .bind (widens_functionRest h (some name) token.span) fun _ => .pure
  · exact widens_returnStatement h pl
  · exact .bind .look fun n => .bind (widens_branchLoop h pl n) fun _ => .pure
  · exact widens_whileStatement h pl
  · exact widens_forStatement h pl
  · exact hJump
  · exact hJump
  · exact .bind widens_advance fun _ => .bind widens_semicolon fun _ => .pure
  · exact .bind (widens_block h pl) fun _ => .pure
  · exact hExpression

/-- Statements up to the end of their block, with recovery behind those that fail. -/
theorem widens_statements (pl : Placement) :
    Widens (statements inner pl) (statements outer pl) := by
  have hLoop (fuel : Nat) (done : List Stmt) :
      Widens (statementLoop inner pl fuel done) (statementLoop outer pl fuel done) := by
    induction fuel generalizing done with
    | zero => exact .pure
    | succ fuel ih =>
      refine .bind .look fun _ => .bind .look fun _ => .bind .look fun _ => .ite (fun _ => .pure)
        fun _ => .bind (widens_eat _) fun _ => .ite (fun _ => ih _) fun _ => ?_
      refine .bind (widens_statement h pl).attempt fun o => ?_
      cases o with
      | some s => exact ih _
      | none => exact .bind (.same fun hs => hs.synchronize) fun _ => ih _
  exact .bind .look fun n => hLoop n []

-- ---------------------------------------------------------------------------
-- Levels
-- ---------------------------------------------------------------------------

omit h in
/-- A level with more room does what one with less does, unless the latter is refused. -/
theorem widens_grammar {n m : Nat} (hLess : n ≤ m) : (grammar n).Widens (grammar m) := by
  induction n generalizing m with
  | zero =>
    refine ⟨.refuse ?_, fun pl => .refuse ?_⟩
    · exact grows_of_steady (Q := fun P => Expr.Within P (4 * m)) fun hs => (hs.grammar m).expression
    · exact grows_of_steady (Q := fun _ ss => ∀ s ∈ ss, s.weigh 0 1 ≤ 4 * m)
        fun hs => (hs.grammar m).statements pl
  | succ n ih =>
    obtain ⟨m, rfl⟩ : ∃ k, m = k + 1 := ⟨m - 1, by omega⟩
    have hInner := ih (Nat.le_of_succ_le_succ hLess)
    exact ⟨widens_assignment hInner, widens_statements hInner⟩

end Parser

end AmbScript
