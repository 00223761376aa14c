import AmbScript.Proofs.Parser.Progress
import AmbScript.Proofs.Parser.Programs
import AmbScript.Proofs.Parser.Results
import Mathlib.Order.Basic

/-!
# Reading always ends

Without bounds on its loops, the parser ends for all tokens, with the same outcome as with them.
Loops over tokens read one in every round. The loop over statements may also stand still, at a
keyword that no statement takes: then something is reported, and it stops once the log is full.

* `Level.Ends` — the rules of a depth end.
* `ends_assignment`, `ends_statement` — the rules over them end. They read something or report it.
* `advances_statementRound` — so a round of the loop over statements always gets further.
* `ends_grammar`, `ends_program` — the rules of all depths, and the one for a whole program.
* `reading_ends` — reading ends, at the first end of the text at the latest.

The rules without bounds are least fixed points. Each lemma unfolds one of them once, beside the
rule with bounds, and the induction is on those bounds: `Ends n` is needed for fewer rounds behind
every token that is read.
-/

namespace AmbScript.Parser

variable {α β : Type} {b : Bool} {n : Nat}

/-- The tokens that are left, and the reports that may still be made before the log is full. -/
def State.resources (s : State) : Nat × Nat := (s.left.length, maxErrors - s.log.total)

/-- The rules of a depth end, and those for expressions read something. -/
structure Level.Ends (outer : Endless.Level) (inner : Level) : Prop where
  expression : ∀ n, Parser.Ends n true outer.expression inner.expression
  statements : ∀ n pl, Parser.Ends n false (outer.statements pl) (inner.statements pl)

/-- Beyond the limit both refuse. -/
theorem Level.Ends.refused : Level.Ends .refused .refused := by
  constructor
  · intro _
    exact .once (.failing _ _)
  · intro _ _
    exact .once (.failing _ _)

-- ---------------------------------------------------------------------------
-- Blocks and functions
-- ---------------------------------------------------------------------------

/-- Every round reads a name. -/
theorem ends_paramLoop {fuel : Nat} (hFuel : n < fuel) (done : List Ident) :
    Ends n false (Endless.paramLoop bindingName done) (paramLoop fuel done) := by
  induction fuel generalizing n done with
  | zero => omega
  | succ fuel ih =>
    rw [Endless.paramLoop, paramLoop]
    refine .bind (.once .bindingName) fun param => ?_
    have hRest : Ends n false
        (do if ← eat .comma then Endless.paramLoop bindingName (param :: done)
            else return (param :: done).reverse)
        (do if ← eat .comma then paramLoop fuel (param :: done)
            else return (param :: done).reverse) :=
      .bind_eat nofun (fun m hLess => ih (by omega) _) .pure
    exact .ite (fun _ => .bind (.once (.reportAt _ _ _)) fun _ => hRest) fun _ => hRest

/-- The names of parameters, up to the parenthesis. -/
theorem ends_paramList : Ends n false Endless.paramList paramList := by
  refine .bind_check .pure ?_
  refine .bind_rounds fun _ _ hFuel => ?_
  exact ends_paramLoop hFuel []

section Level

variable {outer : Endless.Level} {inner : Level} (h : Level.Ends outer inner)

include h

/-- A block reads its brace. -/
theorem ends_block (pl : Placement) : Ends n true (Endless.block outer pl) (block inner pl) := by
  refine .bind .look fun _ => ?_
  refine .bind_reading (.once (.expect nofun)) fun _ m _ => ?_
  refine .bind (h.statements m pl) fun _ => ?_
  refine .bind (.once (.expect nofun)) fun _ => ?_
  refine .bind .look fun _ => ?_
  exact .pure

/-- Parameters and a body. -/
theorem ends_functionRest (name : Option Ident) (start : Span) :
    Ends n false (Endless.functionRest outer name start) (functionRest inner name start) := by
  refine .bind (.once (.expect nofun)) fun _ => ?_
  refine .bind ends_paramList fun _ => ?_
  refine .bind (.once (.expect nofun)) fun _ => ?_
  refine .bind (ends_block h .function) fun _ => ?_
  refine .bind .look fun _ => ?_
  exact .pure

-- ---------------------------------------------------------------------------
-- Expressions
-- ---------------------------------------------------------------------------

/-- Every round reads an expression. -/
theorem ends_commaLoop (close : Symbol) {fuel : Nat} (hFuel : n < fuel) (done : List Expr) :
    Ends n false (outer.commaLoop close done) (commaLoop inner close fuel done) := by
  induction fuel generalizing n done with
  | zero => omega
  | succ fuel ih =>
    rw [Endless.Level.commaLoop, commaLoop]
    refine .bind_check .pure <| .bind (h.expression n) fun item => .bind_eat nofun ?_ .pure
    exact fun m hLess => ih (by omega) (item :: done)

/-- Items up to the token that closes the list. -/
theorem ends_commaList {close : Symbol} (hClose : close ≠ .eof) :
    Ends n false (Endless.commaList outer close) (commaList inner close) := by
  refine .bind_rounds fun _ _ hFuel => ?_
  refine .bind (ends_commaLoop h close hFuel []) fun _ => ?_
  refine .bind (.once (.expect hClose)) fun _ => ?_
  exact .pure

omit h in
/-- The end of the text is not an expression. -/
theorem ne_eof_of_atom? {t : Token} {e : Expr} (hAtom : atom? t = some e) :
    t.kind ≠ .symbol .eof := by
  intro hEnd
  simp [atom?, hEnd] at hAtom

/-- What begins an expression reads a token. -/
theorem ends_primary : Ends n true (Endless.primary outer) (primary inner) := by
  refine .bind_look fun token s hToken hs hn => ?_
  cases hAtom : atom? token with
  | some e =>
    have hEnd : s.current.kind ≠ .symbol .eof := hToken ▸ ne_eof_of_atom? hAtom
    exact .bind_advance hs hn hEnd fun _ _ _ => .pure
  | none =>
    refine (?_ : Ends n true _ _) s hs hn
    refine .bind_eat nofun (fun m _ => ?_) <| .bind_eat nofun (fun m _ => ?_) <|
      .bind_eat nofun (fun m _ => ?_) ?_
    · exact .bind (ends_commaList h nofun) fun _ => .bind .look fun _ => .pure
    · exact .bind (h.expression m) fun _ => .bind (.once (.expect nofun)) fun _ => .pure
    · exact .bind (.once .functionName?) fun _ => .bind (ends_functionRest h _ _) fun _ => .pure
    · exact .bind_check (.failing _ _) (.failing _ _)

/-- Every round reads what it begins with: a parenthesis, a bracket or a dot. -/
theorem ends_postfixLoop {fuel : Nat} (hFuel : n < fuel) (e : Expr) :
    Ends n false (outer.postfixLoop e) (postfixLoop inner fuel e) := by
  induction fuel generalizing n e with
  | zero => omega
  | succ fuel ih =>
    rw [Endless.Level.postfixLoop, postfixLoop]
    refine .bind_eat nofun (fun m hLess => ?_) <| .bind_eat nofun (fun m hLess => ?_) <|
      .bind_eat nofun (fun m hLess => ?_) .pure
    · exact .bind (ends_commaList h nofun) fun _ => .bind .look fun _ => ih (by omega) _
    · exact .bind (h.expression m) fun _ => .bind (.once (.expect nofun)) fun _ =>
        .bind .look fun _ => ih (by omega) _
    · exact .bind (.once .identifier) fun _ => ih (by omega) _

omit h in
/-- Every round reads an operator. -/
theorem ends_unaryOps {fuel : Nat} (hFuel : n < fuel) (done : List (UnaryOp × Span)) :
    Ends n false (Endless.unaryOps advance done) (unaryOps fuel done) := by
  induction fuel generalizing n done with
  | zero => omega
  | succ fuel ih =>
    rw [Endless.unaryOps, unaryOps]
    refine .bind_look fun k s hKind hs hn => ?_
    cases hOp : unaryOp? k with
    | some op =>
      refine .bind_advance hs hn (fun hEnd => ?_) fun t m hLess => ih (by omega) _
      rw [← hKind, hEnd] at hOp
      cases hOp
    | none => exact Ends.pure s hs hn

/-- An expression with what stands behind it. -/
theorem ends_operation : Ends n true (Endless.operation outer) (operation inner) := by
  refine .bind_rounds fun _ _ hFuel => ?_
  refine .bind_reading (ends_primary h) fun e _ hLess => ?_
  exact ends_postfixLoop h (Nat.lt_trans hLess hFuel) e

/-- Operators before an expression. -/
theorem ends_unary : Ends n true (Endless.unary outer) (unary inner) := by
  refine .bind_rounds fun _ _ hFuel => ?_
  refine .bind (ends_unaryOps hFuel []) fun _ => ?_
  refine .bind_reading (ends_operation h) fun _ _ _ => ?_
  exact .pure

omit h in
/-- The loop over operators ends, if the reading of right operands does: every round reads an
operator. -/
theorem ends_climbLoop {u : Endless Expr} {operand : Nat → Parser Expr} {least : Nat}
    (hOperand : ∀ p, least ≤ p → p < InfixOp.tiers →
      ∀ n, Ends n true (Endless.climb u (p + 1)) (operand (p + 1)))
    {fuel : Nat} (hFuel : n < fuel) (left : Expr) :
    Ends n false (Endless.climbLoop u least left) (climbLoop operand least fuel left) := by
  -- by induction on the fuel: an operator has been read before the right operand is, so what is
  -- left is less for the operand and for the next round
  induction fuel generalizing n left with
  | zero => omega
  | succ fuel ih =>
    rw [Endless.climbLoop, climbLoop]
    refine .bind_look fun kind s hKind hs hn => ?_
    cases hOp : InfixOp.ofKind? kind with
    | none => exact Ends.pure s hs hn
    | some found =>
      obtain ⟨op, p⟩ := found
      by_cases hBelow : p < least
      · simp only [if_pos hBelow]
        exact Ends.pure s hs hn
      · simp only [if_neg hBelow]
        have hRightOperand := hOperand p (by omega) (InfixOp.lt_tiers hOp)
        refine .bind_advance hs hn (fun hEnd => ?_) fun t m hLess =>
          .bind (hRightOperand m) fun _ => ih (by omega) _
        rw [← hKind, hEnd] at hOp
        cases hOp

/-- The recursion over precedences is bounded by their number, as in the rule with bounds. -/
theorem ends_binary (least : Nat) :
    Ends n true (Endless.binary outer least) (binary inner least) := by
  rw [Endless.binary]
  induction least using InfixOp.threshold_induction generalizing n with
  | step least ih =>
    rw [Endless.climb, binary_eq]
    exact .bind_reading (ends_unary h) fun left _ _ => .bind_rounds fun _ _ hFuel =>
      ends_climbLoop (fun p hReaches hTier _ => ih p hReaches hTier) hFuel left

/-- A test, and the two results if there are any. -/
theorem ends_conditional : Ends n true (Endless.conditional outer) (conditional inner) := by
  refine .bind_reading (ends_binary h 0) fun test m _ =>
    .bind_eat nofun (fun m _ => ?_) .pure
  exact .bind (h.expression m) fun _ => .bind (.once (.expect nofun)) fun _ =>
    .bind (h.expression m) fun _ => .pure

/-- Parameters, the arrow and a body. -/
theorem ends_arrowFunction : Ends n true (Endless.arrowFunction outer) (arrowFunction inner) := by
  have hParams : Ends n true Endless.arrowParams arrowParams := by
    refine .bind_eat nofun (fun m _ => ?_) ?_
    · exact .bind ends_paramList fun _ => .bind (.once (.expect nofun)) fun _ => .pure
    · exact .bind_reading (.once .bindingName) fun _ _ _ => .pure
  have hBody {m : Nat} : Ends m false (Endless.arrowBody outer) (arrowBody inner) :=
    .bind_check (.weaken (ends_block h .function)) <| .bind (h.expression m) fun _ => .pure
  exact .bind .look fun _ => .bind_reading hParams fun _ _ _ => .bind (.once (.expect nofun))
    fun _ => .bind hBody fun _ => .bind .look fun _ => .pure

/-- Every kind of expression reads something. -/
theorem ends_assignment : Ends n true (Endless.assignment outer) (assignment inner) := by
  refine .bind .look fun _ => .ite (fun _ => ends_arrowFunction h) fun _ => ?_
  refine .bind_reading (ends_conditional h) fun target m _ => .bind_eat nofun (fun m _ => ?_) .pure
  cases target.ident? with
  | some name => exact .bind (h.expression m) fun _ => .pure
  | none => exact .once (.failingAt _ _ _)

-- ---------------------------------------------------------------------------
-- Statements
-- ---------------------------------------------------------------------------

/-- A declaration reads its word. -/
theorem ends_declaration : Ends n true (Endless.declaration outer) (declaration inner) := by
  have hRest : Ends n true (Endless.declarationRest outer) (declarationRest inner) := by
    refine .bind_reading (.once .bindingName) fun name m _ => .bind_eat nofun (fun m _ => ?_) ?_
    · exact .bind (h.expression m) fun _ => .pure
    · exact .failing _ _
  exact .bind (.once .advance) fun _ => .bind_reading hRest fun _ _ _ => .bind .look fun _ =>
    .bind (.once .semicolon) fun _ => .pure

/-- A `return` reads its word; whether an expression follows is seen from the token that comes
next. -/
theorem ended_returnStatement (pl : Placement) {s : State} (hs : s.Roomy) (hn : s.credit ≤ n)
    (hHere : s.current.kind ≠ .symbol .eof) :
    Ended true s (Endless.returnStatement outer pl s) (returnStatement inner pl s) := by
  refine .bind_advance hs hn hHere fun token m _ => ?_
  have hFinish (value : Expr) : Ends m false
      (do let previous ← previousSpan
          semicolon
          return Stmt.returns value (token.span.merge previous))
      (do let previous ← previousSpan
          semicolon
          return Stmt.returns value (token.span.merge previous)) :=
    .bind .look fun _ => .bind (.once .semicolon) fun _ => .pure
  -- the value may be absent, and outside a function its place is reported first
  have hRest : Ends m false
      (do let bare := (← check .semicolon) || (← check .closeBrace) || (← atEnd) ||
            (← currentSpan).start.line > token.span.stop.line
          let value ← if bare then pure (.undefined token.span) else outer.expression
          let previous ← previousSpan
          semicolon
          return Stmt.returns value (token.span.merge previous))
      (do let bare := (← check .semicolon) || (← check .closeBrace) || (← atEnd) ||
            (← currentSpan).start.line > token.span.stop.line
          let value ← if bare then pure (.undefined token.span) else inner.expression
          let previous ← previousSpan
          semicolon
          return Stmt.returns value (token.span.merge previous)) := by
    refine .bind .look fun _ => .bind .look fun _ => .bind .look fun _ => .bind .look fun _ =>
      .ite (fun _ => .bind .pure hFinish) fun _ => .bind (h.expression m) hFinish
  exact .ite (fun _ => .bind (.once (.reportAt _ _ _)) fun _ => hRest) fun _ => hRest

/-- The test of a branch or a loop. -/
theorem ends_condition : Ends n true (Endless.condition outer) (condition inner) := by
  refine .bind_reading (.once (.expect nofun)) fun _ m _ => ?_
  refine .bind (h.expression m) fun _ => ?_
  refine .bind (.once (.weaken (.expect nofun))) fun _ => ?_
  exact .pure

/-- Every `else if` reads its words. -/
theorem ends_branchLoop (pl : Placement) {fuel : Nat} (hFuel : n < fuel) :
    Ends n true (outer.branchLoop pl) (branchLoop inner pl fuel) := by
  induction fuel generalizing n with
  | zero => omega
  | succ fuel ih =>
    rw [Endless.Level.branchLoop, branchLoop]
    refine .bind (.once .advance) fun token => .bind_reading (ends_condition h) fun test m hLess =>
      .bind (ends_block h pl) fun consequent => ?_
    -- the three ways to go on end alike, and only `else if` comes back to the loop
    have hFinish {k : Nat} (alternate : Alternate) : Ends k false
        (do let stop ← previousSpan
            return Branch.mk test consequent alternate (token.span.merge stop))
        (do let stop ← previousSpan
            return Branch.mk test consequent alternate (token.span.merge stop)) :=
      .bind .look fun _ => .pure
    refine .bind_eat nofun (fun k hLess' => .bind_check ?_ ?_) (hFinish .absent)
    · exact .bind (ih (by omega)) fun b => hFinish (.branch b)
    · exact .bind (ends_block h pl) fun b => hFinish (.block b)

/-- A loop reads its word. -/
theorem ends_whileStatement (pl : Placement) :
    Ends n true (Endless.whileStatement outer pl) (whileStatement inner pl) := by
  refine .bind (.once .advance) fun _ => ?_
  refine .bind_reading (ends_condition h) fun _ _ _ => ?_
  refine .bind (ends_block h pl.loop) fun _ => ?_
  refine .bind .look fun _ => ?_
  exact .pure

/-- The first part of a header may be missing. -/
theorem ends_loopInit : Ends n false (Endless.loopInit outer) (loopInit inner) := by
  refine .bind_eat nofun (fun _ _ => .pure) <| .bind_check ?_ <| .bind_check (.failing _ _) ?_
  · exact .bind (ends_declaration h) fun _ => .pure
  · exact .bind (h.expression n) fun _ => .bind (.once (.expect nofun)) fun _ => .pure

theorem ends_optionalExpression {close : Symbol} (hClose : close ≠ .eof) :
    Ends n false (Endless.optionalExpression outer close) (optionalExpression inner close) := by
  have hFinish (e : Option Expr) : Ends n false (do expect close; return e)
      (do expect close; return e) :=
    .bind (.once (.expect hClose)) fun _ => .pure
  refine .bind_check (.bind .pure hFinish) (.bind (.map (h.expression n)) hFinish)

/-- A loop reads its word. -/
theorem ends_forStatement (pl : Placement) :
    Ends n true (Endless.forStatement outer pl) (forStatement inner pl) := by
  refine .bind (.once .advance) fun _ => ?_
  refine .bind_reading (.once (.expect nofun)) fun _ _ _ => ?_
  refine .bind (ends_loopInit h) fun _ => ?_
  refine .bind (ends_optionalExpression h nofun) fun _ => ?_
  refine .bind (ends_optionalExpression h nofun) fun _ => ?_
  refine .bind (ends_block h pl.loop) fun _ => ?_
  refine .bind .look fun _ => ?_
  exact .pure

/-- Every statement reads something: a word, a brace, or an expression. -/
theorem ends_statement (pl : Placement) :
    Ends n true (Endless.statement outer pl) (statement inner pl) := by
  have hDeclaration : Ends n true (Endless.variableDeclaration outer) (variableDeclaration inner) :=
    .bind_reading (ends_declaration h) fun _ _ _ => .pure
  have hFunction : Ends n true (Endless.functionDeclaration outer) (functionDeclaration inner) :=
    .bind (.once .advance) fun _ => .bind_reading (.once .bindingName) fun _ _ _ =>
      .bind (ends_functionRest h _ _) fun _ => .pure
  have hExpression : Ends n true (Endless.expressionStatement outer) (expressionStatement inner) :=
    .bind_reading (h.expression n) fun _ _ _ => .bind (.once .semicolon) fun _ => .pure
  refine .bind_look fun k s hKind hs hn => ?_
  cases k with
  | number _ | string _ | name _ => exact hExpression s hs hn
  | symbol z =>
    -- a keyword in front rules out the end of the text, so reading it is progress
    have hHere : z ≠ .eof → s.current.kind ≠ .symbol .eof := by
      rw [hKind]
      exact fun hEnd h => hEnd (Token.Kind.symbol.inj h)
    cases z
    case letDecl | constDecl => exact hDeclaration s hs hn
    case function =>
      refine (?_ : Ends n true _ _) s hs hn
      exact .bind .look fun _ => .ite (fun _ => hFunction) fun _ => hExpression
    case returns => exact ended_returnStatement h pl hs hn (hHere nofun)
    case ifBranch =>
      refine (?_ : Ends n true _ _) s hs hn
      exact .bind_rounds fun _ _ hFuel => .bind_reading (ends_branchLoop h pl hFuel) fun _ _ _ =>
        .pure
    case whileLoop => exact ends_whileStatement h pl s hs hn
    case forLoop => exact ends_forStatement h pl s hs hn
    case breakLoop | continueLoop => exact ⟨rfl, proceeded_jumpStatement pl (hHere nofun)⟩
    case cut => exact ⟨rfl, proceeded_cutStatement (hHere nofun)⟩
    case openBrace => exact Ends.bind_reading (ends_block h pl) (fun _ _ _ => .pure) s hs hn
    all_goals exact hExpression s hs hn

end Level

-- ---------------------------------------------------------------------------
-- Loops over statements
-- ---------------------------------------------------------------------------

/-- Recovery reads in every round, and stops before the end of the text. -/
theorem ends_synchronizeLoop {fuel : Nat} (hFuel : n < fuel) :
    Ends n false (Endless.skip advance) (synchronizeLoop fuel) := by
  induction fuel generalizing n with
  | zero => omega
  | succ fuel ih =>
    rw [Endless.skip, synchronizeLoop]
    refine .bind_look fun k s hKind hs hn => ?_
    by_cases hStop : isBoundary k
    · rw [if_pos hStop, if_pos hStop]
      exact Ends.pure s hs hn
    -- recovery stops at the end of the text, so elsewhere there is a token to skip
    · have hEnd : s.current.kind ≠ .symbol .eof := by
        rw [hKind]
        rintro rfl
        exact hStop rfl
      rw [if_neg hStop, if_neg hStop]
      exact .bind_eat nofun hs hn (fun _ _ => .pure) <|
        .bind_advance hs hn hEnd fun _ m hLess => ih (by omega)

/-- Recovery, with as many rounds as there are. -/
theorem ends_synchronize : Ends n false Endless.synchronize synchronize := by
  refine .bind_rounds fun _ _ hFuel => ?_
  exact ends_synchronizeLoop hFuel

/-- Recovery never fails. -/
theorem synchronizeLoop_passes (fuel : Nat) (s : State) : (synchronizeLoop fuel s).1 = some () := by
  induction fuel generalizing s with
  | zero => rfl
  | succ fuel ih =>
    show ((if isBoundary s.current.kind then _ else _ : Parser Unit) s).1 = some ()
    split
    · rfl
    · by_cases hHere : s.current.kind.is .semicolon
      · rw [bind_of_some ((eat_apply _ s).trans (if_pos hHere))]
        rfl
      · rw [bind_of_some ((eat_apply _ s).trans (if_neg hHere))]
        exact ih s.advanced

/-- What a round of the loop over statements does, with bounds. -/
def statementRound (inner : Level) (placement : Placement) : Parser (Option Stmt) := do
  if ← eat .semicolon then return none
  else
    match ← attempt (statement inner placement) with
    | some s => return some s
    | none =>
      synchronize
      return none

/-- Sequences of rules may be read in both ways. -/
theorem bind_assoc {γ : Type} (x : Parser α) (f : α → Parser β) (g : β → Parser γ) :
    x >>= f >>= g = x >>= fun a => f a >>= g := by
  funext s
  rcases hxs : x s with ⟨- | a, t⟩
  · rw [bind_of_none hxs, bind_of_none (bind_of_none hxs)]
  · rw [bind_of_some hxs]
    rcases hft : f a t with ⟨- | c, u⟩
    · rw [bind_of_none hft, bind_of_none ((bind_of_some hxs).trans hft)]
    · rw [bind_of_some hft, bind_of_some ((bind_of_some hxs).trans hft)]

/-- A round of the loop over statements is `statementRound`, unless the loop stops. -/
theorem statementLoop_succ (inner : Level) (pl : Placement) (fuel : Nat) (done : List Stmt) :
    statementLoop inner pl (fuel + 1) done = (do
      if (← check .closeBrace) || (← atEnd) || (← logIsFull) then return done.reverse
      let read ← statementRound inner pl
      statementLoop inner pl fuel (read.elim done (· :: done))) := by
  rw [statementLoop, statementRound]
  refine congrArg (check .closeBrace >>= ·) (funext fun _ => congrArg (atEnd >>= ·) (funext fun _ =>
    congrArg (logIsFull >>= ·) (funext fun _ => ?_)))
  split
  · rfl
  · rw [bind_assoc]
    refine congrArg (eat .semicolon >>= ·) (funext fun e => ?_)
    -- a stray semicolon, a statement, or a failure that is recovered from: what follows is the loop
    -- again
    cases e with
    | true => rfl
    | false =>
      show attempt (statement inner pl) >>= _ = attempt (statement inner pl) >>= _ >>= _
      rw [bind_assoc]
      refine congrArg (attempt (statement inner pl) >>= ·) (funext fun o => ?_)
      cases o with
      | some s => rfl
      | none =>
        show synchronize >>= _ = synchronize >>= _ >>= _
        rw [bind_assoc]
        rfl

/-- A round of the loop over statements ends. It reads something, or it reports something. -/
structure Advances (s : State) (o : Option (Option (Option Stmt) × State))
    (y : Option (Option Stmt) × State) : Prop where
  ends : o = some y
  passed : y.1.isSome
  precedes : s.Precedes y.2
  further : y.2.left.length < s.left.length ∨ s.log.total < y.2.log.total

/-- A failure that is caught. -/
theorem attempt_of_eq {x : Parser α} {s t : State} {o : Option α} (h : x s = (o, t)) :
    attempt x s = (some o, t) := by
  show (some (x s).1, (x s).2) = _
  rw [h]

theorem Endless.attempt_of_eq {u : Endless α} {s t : State} {o : Option α} (h : u s = some (o, t)) :
    Endless.attempt u s = some (some o, t) := by
  show (u s).map _ = _
  rw [h]
  rfl

/-- A round reads a statement, or it reports something. What it reads in the second case is not
known: `statementRound_stands` shows that it can be nothing. -/
theorem advances_statementRound {outer : Endless.Level} {inner : Level} (h : Level.Ends outer inner)
    (pl : Placement) {s : State} (hs : s.Roomy) :
    Advances s (Endless.statementRound outer pl s) (statementRound inner pl s) := by
  by_cases hHere : s.current.kind.is .semicolon
  -- an empty statement: the semicolon itself is what was read
  · have hEat : eat .semicolon s = (some true, s.advanced) := (eat_apply _ s).trans (if_pos hHere)
    have hEnd : s.current.kind ≠ .symbol .eof := by
      rw [Token.Kind.is_iff.mp hHere]
      nofun
    rw [Endless.statementRound, statementRound, bind_of_some hEat,
      Endless.bind_of_some (congrArg some hEat)]
    exact ⟨rfl, rfl, .advanced s, .inl (State.left_advanced_lt hEnd)⟩
  · have hEat : eat .semicolon s = (some false, s) := (eat_apply _ s).trans (if_neg hHere)
    rw [Endless.statementRound, statementRound, bind_of_some hEat,
      Endless.bind_of_some (congrArg some hEat)]
    obtain ⟨hEnds, hRead⟩ := ends_statement h pl s hs (Nat.le_refl _)
    match hOutcome : statement inner pl s with
    -- a statement was read
    | (some stmt, t) =>
      rw [hOutcome] at hEnds hRead
      have hAttempt := attempt_of_eq hOutcome
      have hAttempt' := Endless.attempt_of_eq hEnds
      show Advances s ((Endless.attempt (Endless.statement outer pl) >>= _) s)
        ((attempt (statement inner pl) >>= _) s)
      rw [bind_of_some hAttempt, Endless.bind_of_some hAttempt']
      exact ⟨rfl, rfl, hRead.precedes, .inl (hRead.reads rfl stmt rfl)⟩
    | (none, t) =>
      rw [hOutcome] at hEnds hRead
      have hAttempt := attempt_of_eq hOutcome
      have hAttempt' := Endless.attempt_of_eq hEnds
      show Advances s ((Endless.attempt (Endless.statement outer pl) >>= _) s)
        ((attempt (statement inner pl) >>= _) s)
      rw [bind_of_some hAttempt, Endless.bind_of_some hAttempt']
      -- it stands where it failed, or further on, with one more report at least
      obtain ⟨hEnds, hSkipped⟩ := ends_synchronize t (hRead.precedes.roomy hs) (Nat.le_refl _)
      have hPasses : (synchronize t).1 = some () := synchronizeLoop_passes t.rounds t
      have hPair : synchronize t = (some (), (synchronize t).2) := Prod.ext hPasses rfl
      show Advances s ((Endless.synchronize >>= _) t) ((synchronize >>= _) t)
      rw [hPair] at hEnds
      rw [bind_of_some hPair, Endless.bind_of_some hEnds]
      exact ⟨rfl, rfl, hRead.precedes.trans hSkipped.precedes,
        .inr (Nat.lt_of_lt_of_le (hRead.failed rfl) hSkipped.precedes.total_le)⟩

/-- A function expression that there is no room for is not read, and it is where recovery stops. The
round reads nothing, and it reports the limit. -/
theorem statementRound_stands (pl : Placement) {s : State}
    (hHere : s.current.kind = .symbol .function)
    (hName : s.ahead.head?.any (·.kind.isName) = false) :
    ∃ d : Diagnostic, d.code = .nestingLimit ∧
      statementRound (grammar 0) pl s = (some none, { s with log := s.log.push d }) := by
  have hEat : eat .semicolon s = (some false, s) := by
    rw [eat_apply, hHere]
    rfl
  have hKind : currentKind s = (some (.symbol .function), s) :=
    congrArg (fun k => (some k, s)) hHere
  have hNext : nextIsName s = (some false, s) := congrArg (fun b => (some b, s)) hName
  -- `function` without a name begins an expression, and there is no level to read it at
  obtain ⟨d, hCode, hRefused⟩ : ∃ d : Diagnostic, d.code = .nestingLimit ∧
      statement (grammar 0) pl s = (none, { s with log := s.log.push d }) := by
    rw [statement, bind_of_some hKind]
    show ∃ d : Diagnostic, d.code = .nestingLimit ∧ (nextIsName >>= _) s = _
    rw [bind_of_some hNext]
    exact ⟨_, rfl, rfl⟩
  -- the word is a boundary, so recovery does not move
  have hSkipped (t : State) (hThere : t.current.kind = .symbol .function) :
      synchronize t = (some (), t) := by
    show synchronizeLoop t.rounds t = _
    cases t.rounds with
    | zero => rfl
    | succ fuel =>
      show (if isBoundary t.current.kind then _ else _ : Parser Unit) t = _
      rw [hThere]
      rfl
  refine ⟨d, hCode, ?_⟩
  rw [statementRound, bind_of_some hEat]
  show (attempt (statement (grammar 0) pl) >>= _) s = _
  rw [bind_of_some (attempt_of_eq hRefused)]
  show (synchronize >>= _) { s with log := s.log.push d } = _
  rw [bind_of_some (hSkipped { s with log := s.log.push d } hHere)]
  rfl

/-- Where the log has room, a round uses up a token or a place in it. -/
theorem Advances.credit_lt {s : State} {o : Option (Option (Option Stmt) × State)}
    {y : Option (Option Stmt) × State} (h : Advances s o y) (hFull : s.log.total < maxErrors) :
    y.2.credit < s.credit := by
  have hLeft := h.precedes.left.length_le
  have hTotal := h.precedes.total_le
  have hFurther := h.further
  unfold State.credit
  omega

theorem Advances.resources_lt {s : State} {o : Option (Option (Option Stmt) × State)}
    {y : Option (Option Stmt) × State} (h : Advances s o y) (hFull : s.log.total < maxErrors) :
    y.2.resources < s.resources := by
  have hLeft := h.precedes.left.length_le
  have hTotal := h.precedes.total_le
  refine Prod.lt_iff.mpr (h.further.imp (fun hLess => ⟨hLess, ?_⟩) fun hMore => ⟨hLeft, ?_⟩)
  · exact Nat.sub_le_sub_left hTotal maxErrors
  · exact Nat.sub_lt_sub_left hFull hMore

/-- The loop stops at a brace, at the end of the text, or when the log is full. Otherwise its round
uses something up. -/
theorem ends_statementLoop {outer : Endless.Level} {inner : Level} (h : Level.Ends outer inner)
    (pl : Placement) {fuel : Nat} (hFuel : n < fuel) (done : List Stmt) :
    Ends n false (outer.statementLoop pl done) (statementLoop inner pl fuel done) := by
  induction fuel generalizing n done with
  | zero => omega
  | succ fuel ih =>
    rw [Endless.Level.statementLoop, statementLoop_succ]
    refine .bind .look fun _ => .bind .look fun _ => .bind_look fun full s hFull hs hn => ?_
    split
    · exact Ends.pure s hs hn
    · rename_i hStop
      have hRound := advances_statementRound h pl hs
      -- the log is not full, so the round shrinks what is left of tokens and of room for errors
      have hLess : (statementRound inner pl s).2.credit < n := by
        have hFull : s.log.total < maxErrors := by
          have hNot : full = false := by simp_all
          rw [← hFull] at hNot
          simpa [DiagnosticLog.isFull] using hNot
        exact Nat.lt_of_lt_of_le (hRound.credit_lt hFull) hn
      obtain ⟨o, hPassed⟩ := Option.isSome_iff_exists.mp hRound.passed
      have hPair : statementRound inner pl s = (some o, (statementRound inner pl s).2) :=
        Prod.ext hPassed rfl
      have hEnds := hRound.ends.trans (congrArg some hPair)
      rw [bind_of_some hPair, Endless.bind_of_some hEnds]
      have hRoomy := hRound.precedes.roomy hs
      have hRest := ih (by omega) (o.elim done (· :: done)) _ hRoomy (Nat.le_refl _)
      exact ⟨hRest.ends, hRest.proceeded.behind hRound.precedes⟩

/-- The rules of all depths end, by induction on the depth. -/
theorem ends_grammar (n : Nat) : Level.Ends (Endless.grammar n) (grammar n) := by
  induction n with
  | zero => exact .refused
  | succ n ih =>
    refine ⟨fun _ => ends_assignment ih, fun _ pl => ?_⟩
    exact .bind_rounds fun _ _ hFuel => ends_statementLoop ih pl hFuel []

-- ---------------------------------------------------------------------------
-- Programs
-- ---------------------------------------------------------------------------

/-- Behind a brace that closes nothing, which is reported and read, statements may follow. -/
theorem ends_programLoop {fuel : Nat} (hFuel : n < fuel) (done : List Stmt) :
    Ends n false (Endless.programLoop (Endless.statements Endless.outermost .program) done)
      (programLoop fuel done) := by
  induction fuel generalizing n done with
  | zero => omega
  | succ fuel ih =>
    rw [Endless.programLoop, programLoop]
    have hStatements : Ends n false (Endless.statements Endless.outermost .program)
        (statements outermost .program) :=
      .bind_rounds fun _ _ hFuel => ends_statementLoop (ends_grammar maxNestingDepth) _ hFuel []
    refine .bind hStatements fun more => .bind_look fun closes s hCloses hs hn => ?_
    show Ended false s ((if !closes || s.log.isFull then _ else _ : Endless (List Stmt)) s)
      ((if !closes || s.log.isFull then _ else _ : Parser (List Stmt)) s)
    split
    · exact Ends.pure s hs hn
    · rename_i hStop
      have hHere : s.current.kind.is .closeBrace := by
        rw [show s.current.kind.is .closeBrace = closes from hCloses]
        simp_all
      have hEnd : s.current.kind ≠ .symbol .eof := by
        rw [Token.Kind.is_iff.mp hHere]
        nofun
      -- the brace is reported before it is read
      have hReported := (Proceeds.report .unexpectedToken "unmatched '\x7d'" s).precedes
      have hRest := Ended.bind_advance (b := false)
        (f := fun _ =>
          Endless.programLoop (Endless.statements Endless.outermost .program) (done ++ more))
        (g := fun _ => programLoop fuel (done ++ more)) (hReported.roomy hs)
        (Nat.le_trans hReported.credit_le hn) hEnd fun _ m hLess => ih (by omega) _
      exact ⟨hRest.ends, hRest.proceeded.behind hReported⟩

/-- A whole program. -/
theorem ends_program : Ends n false Endless.program program := by
  refine .bind .look fun _ => ?_
  refine .bind_rounds fun _ _ hFuel => ?_
  refine .bind (ends_programLoop hFuel []) fun _ => ?_
  refine .bind .look fun _ => ?_
  exact .pure

-- ---------------------------------------------------------------------------
-- Where reading stops
-- ---------------------------------------------------------------------------

/-- The tokens up to an end of the text. Where it is missing, it has the last one's place. -/
def closed (tokens : List Token) : List Token :=
  match tokens.getLast? with
  | some t => if t.kind.is .eof then tokens else tokens ++ [.eof t.span]
  | none => [.eof (.point ⟨1, 1⟩)]

/-- Only the last token matters. -/
theorem closed_cons_cons (t u : Token) (ts : List Token) :
    closed (t :: u :: ts) = t :: closed (u :: ts) := by
  unfold closed
  rw [List.getLast?_cons_cons]
  cases hLast : (u :: ts).getLast? with
  | some v =>
    dsimp only
    split <;> rfl
  | none => exact absurd (List.getLast?_eq_none_iff.mp hLast) (List.cons_ne_nil u ts)

/-- A last token that is no end gets one behind it. -/
theorem closed_single {t : Token} (h : t.kind ≠ .symbol .eof) :
    closed [t] = t :: closed [.eof t.span] := by
  have hNot : ¬t.kind.is .eof = true := mt Token.Kind.is_iff.mp h
  show (if t.kind.is .eof then [t] else [t, .eof t.span]) = t :: closed [.eof t.span]
  rw [if_neg hNot]
  rfl

/-- What has been read and what is to come are the tokens of the text, and no end of the text is
among what has been read. -/
def State.Within (tokens : List Token) (s : State) : Prop :=
  ∃ read : List Token, closed tokens = read ++ closed (s.current :: s.ahead) ∧
    ∀ t ∈ read, t.kind ≠ .symbol .eof

/-- Nothing has been read at the start. -/
theorem within_ofTokens (source : Source) (tokens : List Token) :
    (State.ofTokens source tokens).Within tokens := by
  refine ⟨[], ?_, fun _ h => absurd h List.not_mem_nil⟩
  cases tokens with
  | nil => rfl
  | cons t ts => rfl

/-- The token that is read is not an end of the text, for at one nothing is read. -/
theorem State.Within.advanced {tokens : List Token} {s : State} (h : s.Within tokens) :
    s.advanced.Within tokens := by
  by_cases hEnd : s.current.kind = .symbol .eof
  · rwa [State.advanced_eq_self hEnd]
  · obtain ⟨read, hTokens, hRead⟩ := h
    have hMore : ∀ t ∈ read ++ [s.current], t.kind ≠ .symbol .eof :=
      List.forall_mem_append.mpr ⟨hRead, List.forall_mem_singleton.mpr hEnd⟩
    refine ⟨read ++ [s.current], ?_, hMore⟩
    rw [hTokens, List.append_assoc]
    cases hAhead : s.ahead with
    | nil => rw [State.advanced_of_ahead_nil hEnd hAhead, hAhead, closed_single hEnd]; rfl
    | cons t ts => rw [State.advanced_of_ahead_cons hEnd hAhead, closed_cons_cons]; rfl

/-- The end of the text is where every rule stops. -/
theorem steady_within (tokens : List Token) : Steady (State.Within tokens) fun _ => True where
  current _ _ := trivial
  previous _ _ := trivial
  advanced _ h := h.advanced
  reported _ _ _ _ h _ := h
  merge _ _ _ _ := trivial

/-- The rounds at the start are enough for every loop. -/
theorem roomy_ofTokens (source : Source) (tokens : List Token) :
    (State.ofTokens source tokens).Roomy := by
  have hLeft := (List.takeWhile_prefix (l := tokens) (!·.kind.is .eof)).length_le
  show (State.ofTokens source tokens).left.length + (maxErrors - 0) < tokens.length + maxErrors + 2
  rw [State.left_ofTokens]
  omega

/-- A round keeps to the text, since every rule does. -/
theorem within_statementRound (tokens : List Token) (n : Nat) (pl : Placement) :
    Ensures (State.Within tokens) (statementRound (grammar n) pl) fun _ => True := by
  have hSteady := steady_within tokens
  refine .bind (hSteady.eat _) fun _ _ => .ite (fun _ => .pure trivial) fun _ => ?_
  refine .bind (hSteady.statement (hSteady.grammar n) pl).attempt fun o _ => ?_
  cases o with
  | some s => exact .pure trivial
  | none => exact .bind hSteady.synchronize fun _ _ => .pure trivial

/-- Reading ends for all tokens, at the first end of the text at the latest. In a round of a loop
over statements something is read or reported: of the tokens that are left and the reports that may
still be made there are never more, and fewer of one of them. -/
theorem reading_ends (source : Source) (tokens : List Token) :
    Endless.parseTokens source tokens = some (parseTokens source tokens) ∧
      (program (.ofTokens source tokens)).2.Within tokens ∧
      ∀ s, (State.ofTokens source tokens).Precedes s → s.Within tokens → ¬s.log.isFull → ∀ n pl,
        ∃ o t, Endless.statementRound (Endless.grammar n) pl s = some (some o, t) ∧
          t.Within tokens ∧ t.resources < s.resources := by
  have hRoomy := roomy_ofTokens source tokens
  refine ⟨?_, ?_, fun s hLater hWithin hFull n pl => ?_⟩
  · have hEnded := ends_program (.ofTokens source tokens) hRoomy (Nat.le_refl _)
    rw [Endless.parseTokens, hEnded.ends]
    rfl
  · exact ((steady_within tokens).program _ (within_ofTokens source tokens)).1
  -- a round reads a token or reports, and there is room for reports as long as the log is not full
  · have hRound := advances_statementRound (ends_grammar n) pl (hLater.roomy hRoomy)
    obtain ⟨o, hPassed⟩ := Option.isSome_iff_exists.mp hRound.passed
    have hNotFull : s.log.total < maxErrors := by simpa [DiagnosticLog.isFull] using hFull
    refine ⟨o, (statementRound (grammar n) pl s).2, ?_, ?_, hRound.resources_lt hNotFull⟩
    · exact hRound.ends.trans (congrArg some (Prod.ext hPassed rfl))
    · exact (within_statementRound tokens n pl s hWithin).1

/-- A function expression, cut off. Its end of the text is missing. -/
def refusedFunction : List Token := Token.onLine 1 [.symbol .function, .symbol .openParen]

/-- With no level left, the round over `function (` reports and stands still. -/
theorem refusedFunction_advances :
    Endless.parseTokens default refusedFunction = some (parseTokens default refusedFunction) ∧
      ∃ o t, Endless.statementRound (Endless.grammar 0) .program
          (.ofTokens default refusedFunction) = some (some o, t) ∧
        t.Within refusedFunction ∧
        t.resources < (State.ofTokens default refusedFunction).resources :=
  have hEnds := reading_ends default refusedFunction
  ⟨hEnds.1, hEnds.2.2 _ (.refl _) (within_ofTokens default refusedFunction) (by decide) 0 .program⟩

end AmbScript.Parser
