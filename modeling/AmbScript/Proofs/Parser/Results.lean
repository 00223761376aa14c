import AmbScript.Parser.Basic
import AmbScript.Proofs.Parser.Heights

/-!
# What rules give back

An invariant of the states of a parser that every step keeps is kept by all rules, whether they fail
or not. What they give back starts where a token stands, and it is nested no deeper than the level
that they use and their own nodes allow.

* `Ensures` — a rule keeps an invariant, and its result has a property.
* `Steady` — an invariant that the steps of all rules keep.
* `Steady.assignment`, `Steady.statements` — the two rules of a level.
* `Steady.grammar`, `Steady.program` — levels of any depth, and whole programs.

The invariant is a parameter, so the rules are gone through once. Which invariants are used is for
the modules that follow to say: that every report quotes a line of the source, that no place lies
before the one last read, or that nothing behind the end of the text is looked at. The bound on the
depth is carried along with them, since it follows the same recursion: an expression of a level has
at most the nodes of the level below it and the four that the rules of one level can add.
-/

namespace AmbScript

/-- The expression is in a region of which `P` holds, and a way down from it leads into no more than
`h` deeper levels. -/
structure Expr.Within (P : Span → Prop) (h : Nat) (e : Expr) : Prop where
  span : P e.span
  depth : e.weigh 0 1 ≤ h

namespace Parser

variable {α β : Type}

-- ---------------------------------------------------------------------------
-- Invariants and results
-- ---------------------------------------------------------------------------

/-- Where the invariant holds, the rule keeps it, and its result has the property. -/
def Ensures (I : State → Prop) (x : Parser α) (Q : α → Prop) : Prop :=
  ∀ s, I s → I (x s).2 ∧ ∀ a, (x s).1 = some a → Q a

namespace Ensures

variable {I : State → Prop} {x y : Parser α} {f : α → Parser β} {Q : α → Prop} {R : β → Prop}

/-- A property of the result may be weakened. -/
theorem mono {Q' : α → Prop} (hx : Ensures I x Q) (h : ∀ a, Q a → Q' a) : Ensures I x Q' := by
  intro s hs
  obtain ⟨hState, hResult⟩ := hx s hs
  exact ⟨hState, fun a ha => h a (hResult a ha)⟩

/-- The second rule starts where the invariant holds again, with a result of which the first
property holds. -/
theorem bind (hx : Ensures I x Q) (hf : ∀ a, Q a → Ensures I (f a) R) : Ensures I (x >>= f) R := by
  intro s hs
  obtain ⟨hState, hResult⟩ := hx s hs
  rcases hxs : x s with ⟨- | a, t⟩
  · rw [hxs] at hState
    rw [bind_of_none hxs]
    exact ⟨hState, fun b hb => by cases hb⟩
  · rw [hxs] at hState hResult
    rw [bind_of_some hxs]
    exact hf a (hResult a rfl) t hState

/-- To give a result changes no state. -/
theorem pure {a : α} (h : Q a) : Ensures I (pure a) Q := by
  intro s hs
  refine ⟨hs, fun b hb => ?_⟩
  cases hb
  exact h

/-- A function on results is applied behind the rule. -/
theorem map {g : α → β} (hx : Ensures I x Q) (h : ∀ a, Q a → R (g a)) : Ensures I (g <$> x) R :=
  hx.bind fun a ha => .pure (h a ha)

/-- A rule that fails has no result. -/
theorem fail : Ensures I (fail : Parser α) Q :=
  fun s hs => ⟨hs, fun a ha => by cases ha⟩

/-- Both branches may rely on how the test came out. -/
theorem ite {c : Prop} [Decidable c] (hx : c → Ensures I x Q) (hy : ¬c → Ensures I y Q) :
    Ensures I (if c then x else y) Q := by
  split
  · exact hx ‹c›
  · exact hy ‹¬c›

/-- What is seen in a state of which the invariant holds. -/
theorem look {g : State → α} (h : ∀ s, I s → Q (g s)) : Ensures I (look g) Q := by
  intro s hs
  refine ⟨hs, fun a ha => ?_⟩
  cases ha
  exact h s hs

/-- What is seen, when nothing is to be known of it. -/
theorem seen {g : State → α} : Ensures I (Parser.look g) fun _ => True :=
  .look fun _ _ => trivial

/-- A failure becomes the result `none`, of which nothing is claimed. -/
theorem attempt (hx : Ensures I x Q) : Ensures I (attempt x) fun o => ∀ a, o = some a → Q a := by
  intro s hs
  obtain ⟨hState, hResult⟩ := hx s hs
  refine ⟨hState, fun o ho => ?_⟩
  cases ho
  exact hResult

end Ensures

-- ---------------------------------------------------------------------------
-- Steps
-- ---------------------------------------------------------------------------

/-- The invariant is kept by reading and by reports at regions of which `P` holds, those of the
tokens around the place among them. -/
structure Steady (I : State → Prop) (P : Span → Prop) : Prop where
  current : ∀ s, I s → P s.current.span
  previous : ∀ s, I s → P s.previous
  advanced : ∀ s, I s → I s.advanced
  reported : ∀ s code message span, I s → P span →
    I { s with log := s.log.push (.quoting s.source code message span) }
  merge : ∀ a b, P a → P b → P (a.merge b)

/-- The level keeps the invariant, and what it gives back is nested in at most `h` levels. -/
structure Level.Gives (I : State → Prop) (P : Span → Prop) (h : Nat) (inner : Level) : Prop where
  expression : Ensures I inner.expression (Expr.Within P h)
  statements : ∀ pl, Ensures I (inner.statements pl) fun ss => ∀ s ∈ ss, s.weigh 0 1 ≤ h

namespace Steady

variable {I : State → Prop} {P : Span → Prop} (hs : Steady I P)

include hs

/-- The place of the token that comes next. -/
theorem currentSpan : Ensures I currentSpan P := .look hs.current

/-- The place of the token that was read last. -/
theorem previousSpan : Ensures I previousSpan P := .look hs.previous

/-- The token that is read is at a place of which `P` holds. -/
theorem advance : Ensures I advance fun t => P t.span := by
  intro s hI
  refine ⟨hs.advanced s hI, fun t ht => ?_⟩
  cases ht
  exact hs.current s hI

/-- A report at a place of which `P` holds. -/
theorem reportAt {code : Code} {message : String} {span : Span} (h : P span) :
    Ensures I (reportAt code message span) fun _ => True := by
  intro s hI
  refine ⟨hs.reported s code message span hI h, ?_⟩
  intro _ _
  exact trivial

/-- A report at the token that comes next. -/
theorem report (code : Code) (message : String) : Ensures I (report code message) fun _ => True := by
  refine .bind hs.currentSpan fun _ hSpan => ?_
  exact hs.reportAt hSpan

/-- A rule that reports and fails. -/
theorem failing (code : Code) (message : String) {Q : α → Prop} :
    Ensures I (do Parser.report code message; (fail : Parser α)) Q := by
  refine .bind (hs.report code message) fun _ _ => ?_
  exact .fail

/-- Reading a token, if it is the one expected. -/
theorem eat (x : Symbol) : Ensures I (eat x) fun _ => True := by
  refine .bind .seen fun _ _ => ?_
  refine .ite ?_ ?_
  · intro _
    refine .bind hs.advance fun _ _ => ?_
    exact .pure trivial
  · intro _
    exact .pure trivial

theorem expect (x : Symbol) : Ensures I (expect x) fun _ => True := by
  refine .bind (hs.eat x) fun _ _ => .ite (fun _ => .pure trivial) fun _ => ?_
  exact .bind .seen fun _ _ => .bind .seen fun _ _ => hs.failing _ _

/-- The end of a statement, written or left out. -/
theorem semicolon : Ensures I semicolon fun _ => True := by
  refine .bind .seen fun _ _ => .bind .seen fun _ _ => .bind .seen fun _ _ =>
    .bind .seen fun _ _ => .bind (hs.eat _) fun _ _ => .ite (fun _ => .pure trivial) fun _ => ?_
  exact .ite (fun _ => .pure trivial) fun _ => .bind .seen fun _ _ => hs.report _ _

/-- A name stands where its token stands. -/
theorem identifier : Ensures I identifier fun name => P name.span := by
  refine .bind .seen fun k _ => ?_
  split
  · exact .bind hs.advance fun t ht => .pure ht
  · exact .bind .seen fun _ _ => hs.failing _ _

/-- So does a name that is declared; also the word `cut`, which is reported. -/
theorem bindingName : Ensures I bindingName fun name => P name.span := by
  have hRest (name : Ident) (hName : P name.span) : Ensures I
      (do if reservedNames.contains name.name then
            let text := name.name
            Parser.reportAt .reservedName s!"'{text}' is reserved and cannot be declared" name.span
            if text = Symbol.cut.spelling then Parser.fail
          return name) fun name => P name.span := by
    refine .ite (fun _ => .bind (hs.reportAt hName) fun _ _ => ?_) fun _ => .pure hName
    exact .ite (fun _ => .bind (Q := fun _ => True) .fail fun _ _ => .pure hName)
      fun _ => .pure hName
  refine .bind .seen fun _ _ => .ite (fun _ => ?_) fun _ => ?_
  · exact .bind hs.advance fun t ht => hRest ⟨Symbol.cut.spelling, t.span⟩ ht
  · exact .bind hs.identifier hRest

/-- Recovery only reads. -/
theorem synchronizeLoop (fuel : Nat) : Ensures I (synchronizeLoop fuel) fun _ => True := by
  induction fuel with
  | zero => exact .pure trivial
  | succ fuel ih =>
    refine .bind .seen fun _ _ => .ite (fun _ => .pure trivial) fun _ => ?_
    refine .bind (hs.eat _) fun _ _ => .ite (fun _ => .pure trivial) fun _ => ?_
    exact .bind hs.advance fun _ _ => ih

/-- It does so in any number of rounds. -/
theorem synchronize : Ensures I synchronize fun _ => True :=
  .bind .seen fun n _ => hs.synchronizeLoop n

/-- Beyond the limit, a rule reports and fails. -/
theorem refuse {Q : α → Prop} : Ensures I (refuse : Parser α) Q := hs.failing _ _

/-- So the innermost level gives nothing back. -/
theorem refused (h : Nat) : Level.refused.Gives I P h := ⟨hs.refuse, fun _ => hs.refuse⟩

-- ---------------------------------------------------------------------------
-- Blocks and functions
-- ---------------------------------------------------------------------------

variable {h : Nat} {inner : Level} (hi : inner.Gives I P h)

/-- The names between the parentheses of a function. -/
theorem paramLoop (fuel : Nat) (done : List Ident) :
    Ensures I (paramLoop fuel done) fun _ => True := by
  induction fuel generalizing done with
  | zero => exact .pure trivial
  | succ fuel ih =>
    have hRest (param : Ident) : Ensures I
        (do if ← Parser.eat .comma then Parser.paramLoop fuel (param :: done)
            else return (param :: done).reverse) fun _ => True :=
      .bind (hs.eat _) fun _ _ => .ite (fun _ => ih _) fun _ => .pure trivial
    refine .bind hs.bindingName fun param hParam => .ite (fun _ => ?_) fun _ => hRest param
    exact .bind (hs.reportAt hParam) fun _ _ => hRest param

theorem paramList : Ensures I paramList fun _ => True := by
  refine .bind .seen fun _ _ => ?_
  refine .ite ?_ ?_
  · intro _
    exact .pure trivial
  · intro _
    refine .bind .seen fun n _ => ?_
    exact hs.paramLoop n []

include hi

/-- A block is one edge above its statements. -/
theorem block (pl : Placement) : Ensures I (block inner pl) fun b => b.weigh 0 1 ≤ h + 1 := by
  refine .bind .seen fun start _ => .bind (hs.expect _) fun _ _ => .bind (hi.statements pl)
    fun ss hss => .bind (hs.expect _) fun _ _ => .bind .seen fun stop _ => .pure ?_
  have hAll := Stmt.weighAll_le hss
  rw [Block.weigh]
  omega

/-- The body of a function is an edge below it, and its statements another. -/
theorem functionRest (name : Option Ident) {start : Span} (hStart : P start) :
    Ensures I (functionRest inner name start) fun f => P f.span ∧ f.weigh 0 1 ≤ h + 2 := by
  refine .bind (hs.expect _) fun _ _ => .bind hs.paramList fun params _ =>
    .bind (hs.expect _) fun _ _ => .bind (hs.block hi .function) fun body hBody =>
    .bind hs.previousSpan fun stop hStop => .pure ⟨hs.merge _ _ hStart hStop, ?_⟩
  rw [Function.weigh]
  omega

-- ---------------------------------------------------------------------------
-- Expressions
-- ---------------------------------------------------------------------------

/-- Each of the items is an expression of the level. -/
theorem commaLoop (close : Symbol) (fuel : Nat) (done : List Expr)
    (hDone : ∀ e ∈ done, e.Within P h) :
    Ensures I (commaLoop inner close fuel done) fun es => ∀ e ∈ es, e.Within P h := by
  induction fuel generalizing done with
  | zero => exact .pure (by simpa using hDone)
  | succ fuel ih =>
    refine .bind .seen fun _ _ => .ite (fun _ => .pure (by simpa using hDone)) fun _ => ?_
    refine .bind hi.expression fun item hItem => ?_
    have hMore : ∀ e ∈ item :: done, e.Within P h := List.forall_mem_cons.mpr ⟨hItem, hDone⟩
    refine .bind (hs.eat _) fun _ _ => .ite (fun _ => ih _ hMore) fun _ => .pure fun e he => ?_
    exact hMore e (List.mem_reverse.mp he)

/-- The list itself is an edge above its items. -/
theorem commaList (close : Symbol) :
    Ensures I (commaList inner close) fun es => Expr.weighAll 0 1 es ≤ h + 1 := by
  refine .bind .seen fun n _ => .bind (hs.commaLoop hi close n [] fun _ he => ?_) fun es hes =>
    .bind (hs.expect _) fun _ _ => .pure ?_
  · cases he
  · have hAll := Expr.weighAll_le fun e he => (hes e he).depth
    omega

omit hs hi in
/-- An expression of one token stands where that token stands. -/
theorem atom {t : Token} {e : Expr} (he : atom? t = some e) (ht : P t.span) :
    e.Within P (h + 4) := by
  unfold atom? at he
  split at he <;> cases he <;> exact ⟨ht, Nat.zero_le _⟩

/-- An expression in parentheses keeps its own places; arrays and functions reach from their first
token to the one read last. -/
theorem primary : Ensures I (primary inner) (Expr.Within P (h + 4)) := by
  refine .bind (.look (Q := fun t => P t.span) hs.current) fun t ht => ?_
  split
  · rename_i e he
    exact .bind hs.advance fun _ _ => .pure (atom he ht)
  · refine .bind (hs.eat _) fun _ _ => .ite (fun _ => ?_) fun _ => ?_
    -- an array: its items are read at the level, so they may be `h` deep below the list
    · refine .bind (hs.commaList hi _) fun items hItems => .bind hs.previousSpan fun stop hStop =>
        .pure ⟨hs.merge _ _ ht hStop, ?_⟩
      rw [Expr.weigh]
      omega
    · refine .bind (hs.eat _) fun _ _ => .ite (fun _ => ?_) fun _ => ?_
      -- parentheses leave no node, so the depth is that of what they hold
      · refine .bind hi.expression fun e he => .bind (hs.expect _) fun _ _ => .pure ⟨he.span, ?_⟩
        have hDepth := he.depth
        omega
      · refine .bind (hs.eat _) fun _ _ => .ite (fun _ => ?_) fun _ => ?_
        · refine .bind (Q := fun _ => True) ?_ fun name _ => .bind (hs.functionRest hi name ht)
            fun f hf => .pure ⟨hf.1, ?_⟩
          · exact .bind .seen fun _ _ => .ite (fun _ => .bind hs.bindingName fun _ _ => .pure trivial)
              fun _ => .pure trivial
          · have hDepth := hf.2
            rw [Expr.weigh]
            omega
        · exact .bind .seen fun _ _ => .ite (fun _ => hs.failing _ _) fun _ => hs.failing _ _

/-- The rounds lengthen the expression to the right, and what they add is read at the level itself,
so the bound is not used up. -/
theorem postfixLoop (fuel : Nat) (e : Expr) (he : e.Within P (h + 4)) :
    Ensures I (postfixLoop inner fuel e) (Expr.Within P (h + 4)) := by
  -- each round adds a link over what has been read; the arguments and the key nest
  induction fuel generalizing e with
  | zero => exact .pure he
  | succ fuel ih =>
    have hObject := he.depth
    refine .bind (hs.eat _) fun _ _ => .ite (fun _ => ?_) fun _ => ?_
    · refine .bind (hs.commaList hi _) fun args hArgs => .bind hs.previousSpan fun stop hStop =>
        ih _ ⟨hs.merge _ _ he.span hStop, ?_⟩
      rw [Expr.weigh]
      omega
    · refine .bind (hs.eat _) fun _ _ => .ite (fun _ => ?_) fun _ => ?_
      · refine .bind hi.expression fun key hKey => .bind (hs.expect _) fun _ _ =>
          .bind hs.previousSpan fun stop hStop => ih _ ⟨hs.merge _ _ he.span hStop, ?_⟩
        have hKeyDepth := hKey.depth
        rw [Expr.weigh]
        omega
      · refine .bind (hs.eat _) fun _ _ => .ite (fun _ => ?_) fun _ => .pure he
        refine .bind hs.identifier fun name hName => ih _ ⟨hs.merge _ _ he.span hName, ?_⟩
        rw [Expr.weigh]
        omega

/-- An expression with what stands behind it. -/
theorem operation : Ensures I (operation inner) (Expr.Within P (h + 4)) := by
  refine .bind .seen fun n _ => ?_
  refine .bind (hs.primary hi) fun e he => ?_
  exact hs.postfixLoop hi n e he

omit hi in
/-- Each operator is at a place of which `P` holds. -/
theorem unaryOps (fuel : Nat) (done : List (UnaryOp × Span)) (hDone : ∀ op ∈ done, P op.2) :
    Ensures I (unaryOps fuel done) fun ops => ∀ op ∈ ops, P op.2 := by
  induction fuel generalizing done with
  | zero => exact .pure hDone
  | succ fuel ih =>
    refine .bind .seen fun k _ => ?_
    split
    · exact .bind hs.advance fun t ht => ih _ (List.forall_mem_cons.mpr ⟨ht, hDone⟩)
    · exact .pure hDone

omit hi in
/-- An operator reaches from its own place to the end of its operand. It is no edge of the way that
is counted: chains of operators are as long as the text. -/
theorem applyUnary {ops : List (UnaryOp × Span)} {e : Expr} (hOps : ∀ op ∈ ops, P op.2)
    (he : e.Within P h) : (ops.foldl applyUnary e).Within P h := by
  induction ops generalizing e with
  | nil => exact he
  | cons op ops ih =>
    obtain ⟨hOp, hRest⟩ := List.forall_mem_cons.mp hOps
    refine ih hRest ⟨hs.merge _ _ hOp he.span, ?_⟩
    have hDepth := he.depth
    rw [Parser.applyUnary, Expr.weigh]
    omega

/-- Operators, and the expression that they stand before. -/
theorem unary : Ensures I (unary inner) (Expr.Within P (h + 4)) := by
  refine .bind .seen fun n _ => ?_
  refine .bind (hs.unaryOps n [] fun _ hOp => absurd hOp List.not_mem_nil) fun _ hOps => ?_
  refine .bind (hs.operation hi) fun _ he => ?_
  exact .pure (hs.applyUnary hOps he)

omit hi in
/-- An operator between two expressions reaches from the one to the other. -/
theorem infixOp {op : InfixOp} {left right : Expr} (hLeft : left.Within P h)
    (hRight : right.Within P h) : (op.apply left right).Within P h := by
  have hLeftDepth := hLeft.depth
  have hRightDepth := hRight.depth
  cases op <;> refine ⟨hs.merge _ _ hLeft.span hRight.span, ?_⟩ <;> rw [InfixOp.apply, Expr.weigh] <;>
    omega

omit hi in
/-- The loop over operators gives a good tree, if `left` and the right operands are good. -/
theorem climbLoop {operand : Nat → Parser Expr} {least : Nat}
    (ho : ∀ p, least ≤ p → p < InfixOp.tiers → Ensures I (operand (p + 1)) (Expr.Within P h))
    (fuel : Nat) (left : Expr) (hLeft : left.Within P h) :
    Ensures I (climbLoop operand least fuel left) (Expr.Within P h) := by
  induction fuel generalizing left with
  | zero => exact .pure hLeft
  | succ fuel ih =>
    refine .bind .seen fun kind _ => ?_
    cases hOp : InfixOp.ofKind? kind with
    | none => exact .pure hLeft
    | some found =>
      obtain ⟨op, p⟩ := found
      refine .ite (fun _ => .pure hLeft) fun hAbove => ?_
      have hRightOperand := ho p (by omega) (InfixOp.lt_tiers hOp)
      exact .bind hs.advance fun _ _ => .bind hRightOperand fun right hRight =>
        ih _ (hs.infixOp hLeft hRight)

/-- Operators of a precedence of at least `least`. -/
theorem binary (least : Nat) : Ensures I (binary inner least) (Expr.Within P (h + 4)) := by
  induction least using InfixOp.threshold_induction with
  | step least ih =>
    rw [binary_eq]
    exact .bind (hs.unary hi) fun left hLeft => .bind .seen fun fuel _ =>
      hs.climbLoop ih fuel left hLeft

/-- The test is read between operators, the two results at the level. -/
theorem conditional : Ensures I (conditional inner) (Expr.Within P (h + 4)) := by
  refine .bind (hs.binary hi 0) fun test hTest => .bind (hs.eat _) fun _ _ =>
    .ite (fun _ => ?_) fun _ => .pure hTest
  refine .bind hi.expression fun consequent hConsequent => .bind (hs.expect _) fun _ _ =>
    .bind hi.expression fun alternate hAlternate =>
    .pure ⟨hs.merge _ _ hTest.span hAlternate.span, ?_⟩
  have hTestDepth := hTest.depth
  have hConsequentDepth := hConsequent.depth
  have hAlternateDepth := hAlternate.depth
  rw [Expr.weigh]
  omega

/-- A single expression is a body with one `return`. -/
theorem arrowBody : Ensures I (arrowBody inner) fun b => b.weigh 0 1 ≤ h + 2 := by
  refine .bind .seen fun _ _ => .ite (fun _ => ?_) fun _ => ?_
  · exact (hs.block hi .function).mono fun b hb => Nat.le_succ_of_le hb
  · refine .bind hi.expression fun e he => .pure ?_
    have hDepth := he.depth
    simp only [Block.weigh, Stmt.weighAll, Stmt.weigh]
    omega

omit hi in
/-- The parameters of an arrow function give a list of names. -/
theorem arrowParams : Ensures I arrowParams fun _ => True := by
  refine .bind (hs.eat _) fun _ _ => .ite (fun _ => ?_) fun _ => ?_
  · exact .bind hs.paramList fun _ _ => .bind (hs.expect _) fun _ _ => .pure trivial
  · exact .bind hs.bindingName fun _ _ => .pure trivial

/-- An arrow function reaches from its parameters to the end of its body. -/
theorem arrowFunction : Ensures I (arrowFunction inner) (Expr.Within P (h + 4)) := by
  refine .bind hs.currentSpan fun start hStart => .bind hs.arrowParams fun params _ =>
    .bind (hs.expect _) fun _ _ => .bind (hs.arrowBody hi) fun body hBody =>
    .bind hs.previousSpan fun stop hStop => .pure ⟨hs.merge _ _ hStart hStop, ?_⟩
  rw [Expr.weigh, Function.weigh]
  omega

/-- An expression of a level: an arrow function, an assignment, or a conditional. -/
theorem assignment : Ensures I (assignment inner) (Expr.Within P (h + 4)) := by
  refine .bind .seen fun _ _ => .ite (fun _ => hs.arrowFunction hi) fun _ => ?_
  refine .bind (hs.conditional hi) fun target hTarget => .bind (hs.eat _) fun _ _ =>
    .ite (fun _ => ?_) fun _ => .pure hTarget
  split
  · refine .bind hi.expression fun value hValue =>
      .pure ⟨hs.merge _ _ hTarget.span hValue.span, ?_⟩
    have hDepth := hValue.depth
    rw [Expr.weigh]
    omega
  · exact .bind (hs.reportAt hTarget.span) fun _ _ => .fail

-- ---------------------------------------------------------------------------
-- Statements
-- ---------------------------------------------------------------------------

/-- The expression of a declaration is one of the level. -/
theorem declaration :
    Ensures I (declaration inner) fun d => d.2.2.1.weigh 0 1 ≤ h := by
  have hRest : Ensures I (declarationRest inner) fun d => d.2.weigh 0 1 ≤ h := by
    refine .bind hs.bindingName fun name _ => .bind (hs.eat _) fun _ _ => .ite (fun _ => ?_) fun _ => ?_
    · exact .bind hi.expression fun e he => .pure he.depth
    · exact hs.failing _ _
  exact .bind hs.advance fun _ _ => .bind hRest fun d hd => .bind .seen fun _ _ =>
    .bind hs.semicolon fun _ _ => .pure hd

/-- A declaration, with its semicolon. -/
theorem variableDeclaration :
    Ensures I (variableDeclaration inner) fun s => s.weigh 0 1 ≤ h + 4 := by
  refine .bind (hs.declaration hi) fun d hd => ?_
  obtain ⟨isConst, name, init, span⟩ := d
  refine .pure ?_
  simp only at hd
  rw [Stmt.weigh]
  omega

/-- A function with its name. -/
theorem functionDeclaration :
    Ensures I (functionDeclaration inner) fun s => s.weigh 0 1 ≤ h + 4 := by
  refine .bind hs.advance fun t ht => .bind hs.bindingName fun name _ =>
    .bind (hs.functionRest hi (some name) ht) fun f hf => .pure ?_
  have hDepth := hf.2
  rw [Stmt.weigh]
  omega

/-- A `return` gives an expression of the level, or `undefined`. -/
theorem returnStatement (pl : Placement) :
    Ensures I (returnStatement inner pl) fun s => s.weigh 0 1 ≤ h + 4 := by
  refine .bind hs.advance fun t ht => ?_
  -- both ways end alike, with the semicolon and the same span
  have hFinish (value : Expr) (hValue : value.weigh 0 1 ≤ h) : Ensures I
      (do let previous ← Parser.previousSpan
          Parser.semicolon
          return Stmt.returns value (t.span.merge previous)) fun s => s.weigh 0 1 ≤ h + 4 := by
    refine .bind .seen fun _ _ => .bind hs.semicolon fun _ _ => .pure ?_
    rw [Stmt.weigh]
    omega
  have hRest : Ensures I
      (do let bare := (← check .semicolon) || (← check .closeBrace) || (← atEnd) ||
            (← Parser.currentSpan).start.line > t.span.stop.line
          let value ← if bare then pure (.undefined t.span) else inner.expression
          let previous ← Parser.previousSpan
          Parser.semicolon
          return Stmt.returns value (t.span.merge previous)) fun s => s.weigh 0 1 ≤ h + 4 := by
    refine .bind .seen fun _ _ => .bind .seen fun _ _ => .bind .seen fun _ _ =>
      .bind .seen fun _ _ => .ite (fun _ => ?_) fun _ => ?_
    · exact .bind (Q := fun e : Expr => e.weigh 0 1 ≤ h) (.pure (Nat.zero_le _)) hFinish
    · exact .bind hi.expression fun e he => hFinish e he.depth
  exact .ite (fun _ => .bind (hs.reportAt ht) fun _ _ => hRest) fun _ => hRest

omit hi in
/-- `break` and `continue` have nothing below them. -/
theorem jumpStatement (pl : Placement) :
    Ensures I (jumpStatement pl) fun s => s.weigh 0 1 ≤ h + 4 := by
  refine .bind hs.advance fun t ht => ?_
  have hRest : Ensures I
      (do Parser.semicolon
          return if t.kind.is .breakLoop then Stmt.breakLoop t.span else .continueLoop t.span)
      fun s => s.weigh 0 1 ≤ h + 4 := by
    refine .bind hs.semicolon fun _ _ => .pure ?_
    split <;> exact Nat.zero_le _
  exact .ite (fun _ => .bind (hs.reportAt ht) fun _ _ => hRest) fun _ => hRest

omit hi in
theorem cutStatement : Ensures I cutStatement fun s => s.weigh 0 1 ≤ h + 4 := by
  refine .bind hs.advance fun _ _ => ?_
  refine .bind hs.semicolon fun _ _ => ?_
  exact .pure (Nat.zero_le _)

/-- The test of a branch or a loop, in parentheses. -/
theorem condition : Ensures I (condition inner) fun e => e.weigh 0 1 ≤ h := by
  refine .bind (hs.expect _) fun _ _ => ?_
  refine .bind hi.expression fun _ he => ?_
  refine .bind (hs.expect _) fun _ _ => ?_
  exact .pure he.depth

/-- A branch behind an `else if` is no deeper than the one before it. -/
theorem branchLoop (pl : Placement) (fuel : Nat) :
    Ensures I (branchLoop inner pl fuel) fun b => b.weigh 0 1 ≤ h + 2 := by
  induction fuel with
  | zero => exact .fail
  | succ fuel ih =>
    refine .bind hs.advance fun t _ => .bind (hs.condition hi) fun test hTest =>
      .bind (hs.block hi pl) fun consequent hConsequent => ?_
    -- whatever follows `else`, the branch ends at the token read last
    have hFinish (alternate : Alternate) (hAlternate : alternate.weigh 0 1 ≤ h + 2) : Ensures I
        (do let stop ← Parser.previousSpan
            return Branch.mk test consequent alternate (t.span.merge stop))
        fun b => b.weigh 0 1 ≤ h + 2 := by
      refine .bind .seen fun _ _ => .pure ?_
      rw [Branch.weigh]
      omega
    refine .bind (hs.eat _) fun _ _ => .ite (fun _ => ?_) fun _ => ?_
    · refine .bind .seen fun _ _ => .ite (fun _ => ?_) fun _ => ?_
      · refine .bind ih fun b hb => hFinish (.branch b) ?_
        rw [Alternate.weigh]
        omega
      · refine .bind (hs.block hi pl) fun b hb => hFinish (.block b) ?_
        rw [Alternate.weigh]
        omega
    · exact hFinish .absent (Nat.zero_le _)

/-- A branch, as a statement. -/
theorem branchStatement (pl : Placement) :
    Ensures I (branchStatement inner pl) fun s => s.weigh 0 1 ≤ h + 4 := by
  refine .bind .seen fun n _ => .bind (hs.branchLoop hi pl n) fun b hb => .pure ?_
  rw [Stmt.weigh]
  omega

/-- A loop with its test and its body. -/
theorem whileStatement (pl : Placement) :
    Ensures I (whileStatement inner pl) fun s => s.weigh 0 1 ≤ h + 4 := by
  refine .bind hs.advance fun _ _ => .bind (hs.condition hi) fun test hTest =>
    .bind (hs.block hi pl.loop) fun body hBody => .bind .seen fun _ _ => .pure ?_
  rw [Stmt.weigh]
  omega

/-- The first part of a `for` header is a declaration or an expression. -/
theorem loopInit : Ensures I (loopInit inner) fun i => LoopInit.weighOption 0 1 i ≤ h + 2 := by
  refine .bind (hs.eat _) fun _ _ => .ite (fun _ => .pure (Nat.zero_le _)) fun _ => ?_
  refine .bind .seen fun _ _ => .ite (fun _ => ?_) fun _ => ?_
  · refine .bind (hs.declaration hi) fun d hd => ?_
    obtain ⟨isConst, name, init, span⟩ := d
    refine .pure ?_
    simp only [LoopInit.weighOption, LoopInit.weigh] at hd ⊢
    omega
  · refine .bind .seen fun _ _ => .ite (fun _ => hs.failing _ _) fun _ => ?_
    refine .bind hi.expression fun e he => .bind (hs.expect _) fun _ _ => .pure ?_
    have hDepth := he.depth
    simp only [LoopInit.weighOption, LoopInit.weigh]
    omega

/-- The other parts are expressions, or missing. -/
theorem optionalExpression (close : Symbol) :
    Ensures I (optionalExpression inner close) fun e => Expr.weighOption 0 1 e ≤ h + 1 := by
  have hFinish (e : Option Expr) (he : Expr.weighOption 0 1 e ≤ h + 1) : Ensures I
      (do Parser.expect close; return e) fun e => Expr.weighOption 0 1 e ≤ h + 1 :=
    .bind (hs.expect _) fun _ _ => .pure he
  refine .bind .seen fun _ _ => .ite (fun _ => ?_) fun _ => ?_
  · exact .bind (Q := fun e => Expr.weighOption 0 1 e ≤ h + 1) (.pure (Nat.zero_le _)) hFinish
  · refine .bind (.map hi.expression fun e he => ?_) hFinish
    have hDepth := he.depth
    rw [Expr.weighOption]
    omega

/-- A loop with its header and its body. -/
theorem forStatement (pl : Placement) :
    Ensures I (forStatement inner pl) fun s => s.weigh 0 1 ≤ h + 4 := by
  refine .bind hs.advance fun _ _ => .bind (hs.expect _) fun _ _ =>
    .bind (hs.loopInit hi) fun init hInit => .bind (hs.optionalExpression hi _) fun test hTest =>
    .bind (hs.optionalExpression hi _) fun update hUpdate =>
    .bind (hs.block hi pl.loop) fun body hBody => .bind .seen fun _ _ => .pure ?_
  rw [Stmt.weigh]
  omega

/-- A block, as a statement. -/
theorem blockStatement (pl : Placement) :
    Ensures I (blockStatement inner pl) fun s => s.weigh 0 1 ≤ h + 4 := by
  refine .bind (hs.block hi pl) fun b hb => .pure ?_
  rw [Stmt.weigh]
  omega

/-- An expression, as a statement. -/
theorem expressionStatement :
    Ensures I (expressionStatement inner) fun s => s.weigh 0 1 ≤ h + 4 := by
  refine .bind hi.expression fun e he => .bind hs.semicolon fun _ _ => .pure ?_
  have hDepth := he.depth
  rw [Stmt.weigh]
  omega

/-- The token that comes next says which kind of statement is read. -/
theorem statement (pl : Placement) :
    Ensures I (statement inner pl) fun s => s.weigh 0 1 ≤ h + 4 := by
  refine .bind .seen fun k _ => ?_
  split
  · exact hs.variableDeclaration hi
  · exact hs.variableDeclaration hi
  · exact .bind .seen fun _ _ => .ite (fun _ => hs.functionDeclaration hi)
      fun _ => hs.expressionStatement hi
  · exact hs.returnStatement hi pl
  · exact hs.branchStatement hi pl
  · exact hs.whileStatement hi pl
  · exact hs.forStatement hi pl
  · exact hs.jumpStatement pl
  · exact hs.jumpStatement pl
  · exact hs.cutStatement
  · exact hs.blockStatement hi pl
  · exact hs.expressionStatement hi

/-- Statements are put behind those that are there; what failed is left out. -/
theorem statementLoop (pl : Placement) (fuel : Nat) (done : List Stmt)
    (hDone : ∀ s ∈ done, s.weigh 0 1 ≤ h + 4) :
    Ensures I (statementLoop inner pl fuel done) fun ss => ∀ s ∈ ss, s.weigh 0 1 ≤ h + 4 := by
  induction fuel generalizing done with
  | zero => exact .pure (by simpa using hDone)
  | succ fuel ih =>
    refine .bind .seen fun _ _ => .bind .seen fun _ _ => .bind .seen fun _ _ =>
      .ite (fun _ => .pure (by simpa using hDone)) fun _ => ?_
    refine .bind (hs.eat _) fun _ _ => .ite (fun _ => ih done hDone) fun _ => ?_
    refine .bind (hs.statement hi pl).attempt fun o ho => ?_
    split
    · rename_i s
      exact ih _ (List.forall_mem_cons.mpr ⟨ho s rfl, hDone⟩)
    · exact .bind hs.synchronize fun _ _ => ih done hDone

/-- The statements up to the end of their block. -/
theorem statements (pl : Placement) :
    Ensures I (statements inner pl) fun ss => ∀ s ∈ ss, s.weigh 0 1 ≤ h + 4 := by
  refine .bind .seen fun n _ => ?_
  refine hs.statementLoop hi pl n [] fun _ hIn => ?_
  exact absurd hIn List.not_mem_nil

-- ---------------------------------------------------------------------------
-- Levels and programs
-- ---------------------------------------------------------------------------

omit hi in
/-- Each level adds four edges to a way down at most. -/
theorem grammar (n : Nat) : (grammar n).Gives I P (4 * n) := by
  induction n with
  | zero => exact hs.refused _
  | succ n ih => exact ⟨hs.assignment ih, hs.statements ih⟩

omit hi in
/-- The statements of a program, also behind a brace that closes nothing. -/
theorem programLoop (fuel : Nat) (done : List Stmt)
    (hDone : ∀ s ∈ done, s.weigh 0 1 ≤ 4 * maxNestingDepth + 4) :
    Ensures I (programLoop fuel done)
      fun ss => ∀ s ∈ ss, s.weigh 0 1 ≤ 4 * maxNestingDepth + 4 := by
  induction fuel generalizing done with
  | zero => exact .pure hDone
  | succ fuel ih =>
    refine .bind (hs.statements (hs.grammar maxNestingDepth) .program) fun more hMore => ?_
    have hAll := List.forall_mem_append.mpr ⟨hDone, hMore⟩
    refine .bind .seen fun _ _ => .bind .seen fun _ _ => .ite (fun _ => .pure hAll) fun _ => ?_
    exact .bind (hs.report _ _) fun _ _ => .bind hs.advance fun _ _ => ih _ hAll

omit hi in
/-- Whatever else happens, the way down from a program leads into a limited number of levels. -/
theorem program : Ensures I program fun p => p.depth ≤ 4 * maxNestingDepth + 5 := by
  refine .bind .seen fun _ _ => .bind .seen fun n _ =>
    .bind (hs.programLoop n [] fun _ hIn => absurd hIn List.not_mem_nil) fun ss hss =>
    .bind .seen fun _ _ => .pure ?_
  have hAll := Stmt.weighAll_le hss
  rw [Program.depth, Block.weigh]
  omega

end Steady

end Parser

end AmbScript
