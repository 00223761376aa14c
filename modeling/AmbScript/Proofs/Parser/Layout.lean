import AmbScript.Proofs.Parser.Alike
import AmbScript.Proofs.Parser.Programs

/-!
# What a parser sees of the layout

Of where tokens stand, a parser sees the line breaks between them. All other use that is made of
their places is for the places in trees and reports. So text that is laid out in another way, with
the same line breaks, gives the same program or the same reports.

* `Level.Blind` — the rules of one depth that the rules around them use are blind.
* `blind_assignment`, `blind_statements` — the two rules of a level, if those of the next level are.
* `parseTokens_sameLayout` — programs and reports of two token lists with the same layout.

Two rules look at lines: a semicolon may be left out at a line break, and so may the value of a
`return`. Both look at the line between the token read last and the next one. Hence the two flags of
`Blind`: whether that line is known to be broken alike before the rule, and whether it is behind it.
It is known wherever a token was read just before. After a failure it is not, since recovery may
stop before a token that another rule has looked at.
-/

namespace AmbScript

-- ---------------------------------------------------------------------------
-- Trees without places
-- ---------------------------------------------------------------------------

/-- The recursion over items is a map. -/
theorem Expr.allWithoutSpans_eq_map (es : List Expr) :
    Expr.allWithoutSpans es = es.map Expr.withoutSpans := by
  induction es with
  | nil => rfl
  | cons e es ih => rw [Expr.allWithoutSpans, List.map_cons, ih]

theorem Stmt.allWithoutSpans_eq_map (ss : List Stmt) :
    Stmt.allWithoutSpans ss = ss.map Stmt.withoutSpans := by
  induction ss with
  | nil => rfl
  | cons s ss ih => rw [Stmt.allWithoutSpans, List.map_cons, ih]

theorem Expr.optionWithoutSpans_eq_map (e : Option Expr) :
    Expr.optionWithoutSpans e = e.map Expr.withoutSpans := by
  cases e <;> rfl

/-- Whether an expression is a name can be seen without places. -/
theorem Expr.ident?_withoutSpans (e : Expr) :
    e.withoutSpans.ident? = e.ident?.map Ident.withoutSpan := by
  cases e <;> rfl

namespace Parser

variable {b : Bool}

/-- Tokens of one kind make up the same expression. -/
theorem withoutSpans_atom? {t t' : Token} (h : t.kind = t'.kind) :
    (atom? t).map Expr.withoutSpans = (atom? t').map Expr.withoutSpans := by
  unfold atom?
  rw [h]
  split <;> rfl

/-- The places of operators go into the spans alone. -/
theorem withoutSpans_foldl_applyUnary {ops ops' : List (UnaryOp × Span)} {e e' : Expr}
    (hOps : ops.map Prod.fst = ops'.map Prod.fst) (h : e.withoutSpans = e'.withoutSpans) :
    (ops.foldl applyUnary e).withoutSpans = (ops'.foldl applyUnary e').withoutSpans := by
  induction ops generalizing ops' e e' with
  | nil =>
    obtain rfl := List.map_eq_nil_iff.mp hOps.symm
    exact h
  | cons op ops ih =>
    obtain ⟨op', ops', rfl, hOp, hRest⟩ := List.map_eq_cons_iff.mp hOps.symm
    rw [List.foldl_cons, List.foldl_cons]
    refine ih hRest.symm ?_
    show Expr.unary op.1 e.withoutSpans _ = Expr.unary op'.1 e'.withoutSpans _
    rw [hOp, h]

/-- An operator puts two expressions together in the same way wherever they stand. -/
theorem withoutSpans_apply (op : InfixOp) {left left' right right' : Expr}
    (hLeft : left.withoutSpans = left'.withoutSpans)
    (hRight : right.withoutSpans = right'.withoutSpans) :
    (op.apply left right).withoutSpans = (op.apply left' right').withoutSpans := by
  cases op <;> simp only [InfixOp.apply, Expr.withoutSpans, hLeft, hRight]

-- ---------------------------------------------------------------------------
-- Blocks and functions
-- ---------------------------------------------------------------------------

/-- The rules of the level are blind, and those for expressions read something. -/
structure Level.Blind (inner : Level) : Prop where
  expression : Parser.Blind false true Expr.withoutSpans inner.expression inner.expression
  statements : ∀ pl, Parser.Blind false false Stmt.allWithoutSpans (inner.statements pl)
    (inner.statements pl)

/-- The names of parameters. One that is there already is reported, in both texts or in neither, for
the names are the same. -/
theorem blind_paramLoop (fuel : Nat) {done done' : List Ident}
    (hDone : done.map Ident.withoutSpan = done'.map Ident.withoutSpan) :
    Blind b false (List.map Ident.withoutSpan) (paramLoop fuel done) (paramLoop fuel done') := by
  induction fuel generalizing b done done' with
  | zero =>
    exact .later (.pure (by rw [List.map_reverse, List.map_reverse, hDone]))
  | succ fuel ih =>
    refine .bind blind_bindingName fun param param' hParam => ?_
    have hMore :
        (param :: done).map Ident.withoutSpan = (param' :: done').map Ident.withoutSpan := by
      rw [List.map_cons, List.map_cons, hParam, hDone]
    -- whether the name was there already depends on the names alone
    have hTaken : done.any (·.name == param.name) = done'.any (·.name == param'.name) := by
      have hText : param.name = param'.name := (Ident.mk.inj hParam).1
      have := congrArg (List.any · (·.name == param.name)) hDone
      rw [hText] at this ⊢
      rwa [List.any_map, List.any_map] at this
    have hRest : Blind true false (List.map Ident.withoutSpan)
        (do if ← eat .comma then paramLoop fuel (param :: done)
            else return (param :: done).reverse)
        (do if ← eat .comma then paramLoop fuel (param' :: done')
            else return (param' :: done').reverse) :=
      .bind_eat (ih hMore) <| .later (.pure (by rw [List.map_reverse, List.map_reverse, hMore]))
    rw [hTaken]
    refine .ite (fun _ => ?_) fun _ => hRest
    have hText : param.name = param'.name := (Ident.mk.inj hParam).1
    rw [hText]
    exact .bind (blind_reportAt _ _ _ _) fun _ _ _ => hRest

/-- The parameters of a function. -/
theorem blind_paramList :
    Blind b false (List.map Ident.withoutSpan) paramList paramList := by
  refine .bind_check (.later (.pure rfl)) ?_
  refine .bind_same blind_rounds fun n => ?_
  exact blind_paramLoop n rfl

/-- A function has a name if one stands behind its word. -/
theorem blind_functionName? :
    Blind true true (Option.map Ident.withoutSpan) functionName? functionName? := by
  refine .bind_same blind_currentKind fun _ => ?_
  refine .ite ?_ ?_
  · intro _
    refine .bind blind_bindingName fun _ _ hName => ?_
    exact .pure (congrArg some hName)
  · intro _
    exact .pure rfl

/-- Beyond the limit both texts are refused. -/
theorem Level.Blind.refused : Level.refused.Blind := by
  refine ⟨blind_failing _ _, ?_⟩
  intro _
  exact blind_failing _ _

section Level

variable {inner : Level} (h : inner.Blind)

include h

/-- The statements of a block start behind its brace. -/
theorem blind_block (pl : Placement) :
    Blind b true Block.withoutSpans (block inner pl) (block inner pl) := by
  refine .bind .unseen fun _ _ _ => .bind (blind_expect _) fun _ _ _ =>
    .bind (h.statements pl).later fun ss ss' hStatements => .bind (blind_expect _) fun _ _ _ =>
    .bind .unseen fun _ _ _ => .pure ?_
  rw [Block.withoutSpans, hStatements, Block.withoutSpans]

/-- Parameters and a body, behind a name that is the same in both. -/
theorem blind_functionRest {name name' : Option Ident} {start start' : Span}
    (hName : name.map Ident.withoutSpan = name'.map Ident.withoutSpan) :
    Blind b true Function.withoutSpans (functionRest inner name start)
      (functionRest inner name' start') := by
  refine .bind (blind_expect _) fun _ _ _ => .bind blind_paramList fun _ _ hParams =>
    .bind (blind_expect _) fun _ _ _ => .bind (blind_block h _) fun _ _ hBody =>
    .bind .unseen fun _ _ _ => .pure ?_
  rw [Function.withoutSpans, hName, hParams, hBody, Function.withoutSpans]

-- ---------------------------------------------------------------------------
-- Expressions
-- ---------------------------------------------------------------------------

/-- Items, put behind items that are the same. -/
theorem blind_commaLoop (close : Symbol) (fuel : Nat) {done done' : List Expr}
    (hDone : done.map Expr.withoutSpans = done'.map Expr.withoutSpans) :
    Blind b false (List.map Expr.withoutSpans) (commaLoop inner close fuel done)
      (commaLoop inner close fuel done') := by
  induction fuel generalizing b done done' with
  | zero => exact .later (.pure (by rw [List.map_reverse, List.map_reverse, hDone]))
  | succ fuel ih =>
    refine .bind_check ?_ ?_
    · exact .later (.pure (by rw [List.map_reverse, List.map_reverse, hDone]))
    · refine .bind h.expression.later fun item item' hItem => ?_
      have hMore :
          (item :: done).map Expr.withoutSpans = (item' :: done').map Expr.withoutSpans := by
        rw [List.map_cons, List.map_cons, hItem, hDone]
      refine .bind_eat (ih hMore) <| .later (.pure ?_)
      rw [List.map_reverse, List.map_reverse, hMore]

/-- Items up to the token that closes the list. -/
theorem blind_commaList (close : Symbol) :
    Blind b true (List.map Expr.withoutSpans) (commaList inner close) (commaList inner close) := by
  refine .bind_same blind_rounds fun n => ?_
  refine .bind (blind_commaLoop h close n rfl) fun _ _ hItems => ?_
  refine .bind (blind_expect _) fun _ _ _ => ?_
  exact .pure hItems

/-- The kind of the next token decides between the ways to begin an expression. -/
theorem blind_primary : Blind b true Expr.withoutSpans (primary inner) (primary inner) := by
  refine .bind (v := Token.kind) (.look fun _ _ hStates => hStates.kind) fun t t' hKind => ?_
  have hAtom := withoutSpans_atom? hKind
  match atom? t, atom? t', hAtom with
  | some e, some e', hAtom => exact .bind blind_advance fun _ _ _ => .pure (Option.some.inj hAtom)
  | none, none, _ =>
    refine .bind_eat ?_ (.bind_eat ?_ (.bind_eat ?_ ?_))
    -- an array
    · refine .bind (blind_commaList h _) fun es es' hItems => .bind .unseen fun _ _ _ => .pure ?_
      rw [Expr.withoutSpans, Expr.allWithoutSpans_eq_map, hItems, Expr.withoutSpans,
        Expr.allWithoutSpans_eq_map]
    · exact .bind h.expression.later fun _ _ hInside => .bind (blind_expect _) fun _ _ _ =>
        .pure hInside
    · refine .bind blind_functionName? fun _ _ hName => .bind (blind_functionRest h hName)
        fun _ _ hFunction => .pure ?_
      rw [Expr.withoutSpans, hFunction, Expr.withoutSpans]
    · rw [hKind]
      exact .bind_check (blind_failing _ _) (blind_failing _ _)

/-- What stands behind an expression that is the same in both. -/
theorem blind_postfixLoop (fuel : Nat) {e e' : Expr} (he : e.withoutSpans = e'.withoutSpans) :
    Blind true true Expr.withoutSpans (postfixLoop inner fuel e) (postfixLoop inner fuel e') := by
  induction fuel generalizing e e' with
  | zero => exact .pure he
  | succ fuel ih =>
    refine .bind_eat ?_ (.bind_eat ?_ (.bind_eat ?_ (.pure he)))
    · refine .bind (blind_commaList h _) fun _ _ hArgs => .bind .unseen fun _ _ _ => ih ?_
      rw [Expr.withoutSpans, he, Expr.allWithoutSpans_eq_map, hArgs, Expr.withoutSpans,
        Expr.allWithoutSpans_eq_map]
    · refine .bind h.expression.later fun _ _ hKey => .bind (blind_expect _) fun _ _ _ =>
        .bind .unseen fun _ _ _ => ih ?_
      rw [Expr.withoutSpans, he, hKey, Expr.withoutSpans]
    · refine .bind blind_identifier fun _ _ hProperty => ih ?_
      rw [Expr.withoutSpans, he, hProperty, Expr.withoutSpans]

omit h in
/-- The operators are the same; their places differ. -/
theorem blind_unaryOps (fuel : Nat) {done done' : List (UnaryOp × Span)}
    (hDone : done.map Prod.fst = done'.map Prod.fst) :
    Blind b false (List.map Prod.fst) (unaryOps fuel done) (unaryOps fuel done') := by
  induction fuel generalizing b done done' with
  | zero => exact .later (.pure hDone)
  | succ fuel ih =>
    refine .bind_same blind_currentKind fun k => ?_
    cases unaryOp? k with
    | some op =>
      refine .bind blind_advance fun _ _ _ => ih ?_
      rw [List.map_cons, List.map_cons, hDone]
    | none => exact .later (.pure hDone)

/-- Operators and what they stand before. -/
theorem blind_unary : Blind b true Expr.withoutSpans (unary inner) (unary inner) := by
  refine .bind_same blind_rounds fun n => .bind (blind_unaryOps n rfl) fun _ _ hOps => ?_
  refine .bind ?_ fun _ _ he => .pure (withoutSpans_foldl_applyUnary hOps he)
  exact .bind_same blind_rounds fun n => .bind (blind_primary h) fun _ _ he =>
    blind_postfixLoop h n he

omit h in
/-- The loop over operators sees no places, if what reads the right operands sees none. -/
theorem blind_climbLoop {operand : Nat → Parser Expr} {least : Nat}
    (hOperand : ∀ p, least ≤ p → p < InfixOp.tiers →
      Blind true true Expr.withoutSpans (operand (p + 1)) (operand (p + 1)))
    (fuel : Nat) {left left' : Expr} (hLeft : left.withoutSpans = left'.withoutSpans) :
    Blind true true Expr.withoutSpans (climbLoop operand least fuel left)
      (climbLoop operand least fuel left') := by
  induction fuel generalizing left left' with
  | zero => exact .pure hLeft
  | succ fuel ih =>
    refine .bind_same blind_currentKind fun kind => ?_
    cases hOp : InfixOp.ofKind? kind with
    | none => exact .pure hLeft
    | some found =>
      obtain ⟨op, p⟩ := found
      refine .ite (fun _ => .pure hLeft) fun hAbove => ?_
      have hRightOperand := hOperand p (by omega) (InfixOp.lt_tiers hOp)
      exact .bind blind_advance fun _ _ _ => .bind hRightOperand fun _ _ hRight =>
        ih (withoutSpans_apply op hLeft hRight)

/-- An expression of operators of a precedence of at least `least`. -/
theorem blind_binary (least : Nat) :
    Blind b true Expr.withoutSpans (binary inner least) (binary inner least) := by
  induction least using InfixOp.threshold_induction generalizing b with
  | step least ih =>
    rw [binary_eq]
    refine .bind (blind_unary h) fun _ _ hLeft => .bind_same blind_rounds fun fuel => ?_
    exact blind_climbLoop (fun p hReaches hTier => ih p hReaches hTier) fuel hLeft

/-- A test, and the two results if a question mark follows. -/
theorem blind_conditional :
    Blind b true Expr.withoutSpans (conditional inner) (conditional inner) := by
  refine .bind (blind_binary h 0) fun _ _ hTest => .bind_eat ?_ (.pure hTest)
  refine .bind h.expression.later fun _ _ hConsequent => .bind (blind_expect _) fun _ _ _ =>
    .bind h.expression.later fun _ _ hAlternate => .pure ?_
  rw [Expr.withoutSpans, hTest, hConsequent, hAlternate, Expr.withoutSpans]

omit h in
/-- What the next token is can be seen from the kinds alone. -/
theorem headIs_eq {ts ts' : List Token} (hKinds : ts.map (·.kind) = ts'.map (·.kind)) (x : Symbol) :
    headIs x ts = headIs x ts' :=
  any_head? hKinds (·.is x)

omit h in
theorem namesThenArrow_eq {ts ts' : List Token} (hKinds : ts.map (·.kind) = ts'.map (·.kind)) :
    namesThenArrow ts = namesThenArrow ts' := by
  induction ts using namesThenArrow.induct generalizing ts' with
  | case1 name mark rest ih =>
    obtain ⟨name', ts', rfl, hName, hTail⟩ := List.map_eq_cons_iff.mp hKinds.symm
    obtain ⟨mark', rest', rfl, hMark, hRest⟩ := List.map_eq_cons_iff.mp hTail
    rw [namesThenArrow, namesThenArrow, show name'.kind = name.kind from hName,
      show mark'.kind = mark.kind from hMark, ih hRest.symm, headIs_eq hRest.symm]
  | case2 ts hShort =>
    have hShort' : ∀ name mark rest, ts' = name :: mark :: rest → False := by
      rintro name mark rest rfl
      obtain ⟨name', ts', rfl, -, hTail⟩ := List.map_eq_cons_iff.mp hKinds
      obtain ⟨mark', rest', rfl, -, -⟩ := List.map_eq_cons_iff.mp hTail
      exact hShort _ _ _ rfl
    rw [namesThenArrow.eq_2 ts hShort, namesThenArrow.eq_2 ts' hShort']

omit h in
/-- Looking ahead for an arrow looks at kinds. -/
theorem blind_atArrow : Blind b b id (look State.atArrow) (look State.atArrow) := by
  refine .look fun s s' hStates => ?_
  have hAhead := hStates.tokens.tail.kinds
  have hBehind : (s.ahead.drop 1).map (·.kind) = (s'.ahead.drop 1).map (·.kind) := by
    rw [List.map_drop, List.map_drop, hAhead]
  show s.atArrow = s'.atArrow
  rw [State.atArrow, State.atArrow, hStates.kind, namesThenArrow_eq hAhead, headIs_eq hAhead,
    headIs_eq hAhead, headIs_eq hBehind]

omit h in
/-- The parameters of an arrow function. -/
theorem blind_arrowParams :
    Blind b true (List.map Ident.withoutSpan) arrowParams arrowParams := by
  refine .bind_eat ?_ ?_
  · exact .bind blind_paramList fun _ _ hParams => .bind (blind_expect _) fun _ _ _ => .pure hParams
  · exact .bind blind_bindingName fun _ _ hParam => .pure (congrArg (fun p => [p]) hParam)

/-- An arrow function has the span of its text, which is forgotten here. -/
theorem blind_arrowFunction :
    Blind b true Expr.withoutSpans (arrowFunction inner) (arrowFunction inner) := by
  have hBody : Blind true true Block.withoutSpans (arrowBody inner) (arrowBody inner) := by
    refine .bind_check (blind_block h _) ?_
    refine .bind h.expression.later fun _ _ hValue => .pure ?_
    simp only [Block.withoutSpans, Stmt.allWithoutSpans, Stmt.withoutSpans, hValue]
  refine .bind .unseen fun _ _ _ => .bind blind_arrowParams fun _ _ hParams =>
    .bind (blind_expect _) fun _ _ _ => .bind hBody fun _ _ hBody => .bind .unseen fun _ _ _ =>
    .pure ?_
  simp only [Expr.withoutSpans, Function.withoutSpans, hParams, hBody]

/-- The target of an assignment is seen in the tree, where the name is the same. -/
theorem blind_assignment :
    Blind b true Expr.withoutSpans (assignment inner) (assignment inner) := by
  refine .bind_same blind_atArrow fun _ => .ite (fun _ => blind_arrowFunction h) fun _ => ?_
  refine .bind (blind_conditional h) fun target target' hTarget => .bind_eat ?_ (.pure hTarget)
  have hName : target.ident?.map Ident.withoutSpan = target'.ident?.map Ident.withoutSpan := by
    rw [← Expr.ident?_withoutSpans, hTarget, Expr.ident?_withoutSpans]
  match target.ident?, target'.ident?, hName with
  | some name, some name', hName =>
    refine .bind h.expression.later fun _ _ hValue => .pure ?_
    rw [Expr.withoutSpans, Option.some.inj hName, hValue, Expr.withoutSpans]
  | none, none, _ => exact .bind (blind_reportAt _ _ _ _) fun _ _ _ => .fail

-- ---------------------------------------------------------------------------
-- Statements
-- ---------------------------------------------------------------------------

/-- What is declared, up to places. -/
def declared (d : Bool × Ident × Expr × Span) : Bool × Ident × Expr :=
  (d.1, d.2.1.withoutSpan, d.2.2.1.withoutSpans)

/-- What is declared, and as what. -/
theorem blind_declaration : Blind b true declared (declaration inner) (declaration inner) := by
  have hRest : Blind true true (fun d => (d.1.withoutSpan, d.2.withoutSpans))
      (declarationRest inner) (declarationRest inner) := by
    refine .bind blind_bindingName fun name name' hName => .bind_eat ?_ ?_
    · exact .bind h.expression.later fun _ _ hInit => .pure (by rw [hName, hInit])
    · have hText : name.name = name'.name := (Ident.mk.inj hName).1
      rw [hText]
      exact blind_failing _ _
  refine .bind blind_advance fun keyword keyword' hKeyword => .bind hRest fun d d' hDeclared =>
    .bind .unseen fun _ _ _ => .bind blind_semicolon fun _ _ _ => .pure ?_
  obtain ⟨hName, hInit⟩ := Prod.mk.inj hDeclared
  rw [declared, declared, hKeyword, hName, hInit]

/-- Behind `return`, whether a line ends there decides if a value is read. -/
theorem agree_returnStatement (pl : Placement) {s s' : State} (hStates : Alike b s s')
    (hHere : s.current.kind = .symbol .returns) :
    Agree true Stmt.withoutSpans (returnStatement inner pl s) (returnStatement inner pl s') := by
  have hFinish (start start' : Span) (value value' : Expr)
      (hValue : value.withoutSpans = value'.withoutSpans) : Blind true true Stmt.withoutSpans
        (do let stop ← previousSpan
            semicolon
            return Stmt.returns value (start.merge stop))
        (do let stop ← previousSpan
            semicolon
            return Stmt.returns value' (start'.merge stop)) :=
    .bind .unseen fun _ _ _ => .bind blind_semicolon fun _ _ _ =>
      .pure (by rw [Stmt.withoutSpans, hValue, Stmt.withoutSpans])
  -- the word `return` is the previous token, also where it has been reported
  have hRest {u u' : State} (hStates : Alike true u u') : Agree true Stmt.withoutSpans
      ((do let bare := (← check .semicolon) || (← check .closeBrace) || (← atEnd) ||
              (← currentSpan).start.line > u.previous.stop.line
           let value ← if bare then pure (.undefined u.previous) else inner.expression
           let stop ← previousSpan
           semicolon
           return Stmt.returns value (u.previous.merge stop) : Parser Stmt) u)
      ((do let bare := (← check .semicolon) || (← check .closeBrace) || (← atEnd) ||
              (← currentSpan).start.line > u'.previous.stop.line
           let value ← if bare then pure (.undefined u'.previous) else inner.expression
           let stop ← previousSpan
           semicolon
           return Stmt.returns value (u'.previous.merge stop) : Parser Stmt) u') := by
    -- at the end of the text the line does not matter, and elsewhere it is known
    have hBare : (u.current.kind.is .semicolon || u.current.kind.is .closeBrace ||
        u.current.kind.is .eof || u.breaks) = (u'.current.kind.is .semicolon ||
        u'.current.kind.is .closeBrace || u'.current.kind.is .eof || u'.breaks) := by
      by_cases hEnd : u.current.kind = .symbol .eof
      · rw [← hStates.kind, hEnd]
        rfl
      · rw [hStates.breaks rfl hEnd, hStates.kind]
    show Agree true Stmt.withoutSpans
      ((if (u.current.kind.is .semicolon || u.current.kind.is .closeBrace ||
        u.current.kind.is .eof || u.breaks) = true then _ else _ : Parser Stmt) u)
      ((if (u'.current.kind.is .semicolon || u'.current.kind.is .closeBrace ||
        u'.current.kind.is .eof || u'.breaks) = true then _ else _ : Parser Stmt) u')
    rw [← hBare]
    split
    · exact hFinish u.previous u'.previous (.undefined u.previous) (.undefined u'.previous) rfl u u'
        hStates
    · exact Blind.bind h.expression.later (hFinish u.previous u'.previous) u u' hStates
  have hPrevious {u : State} (hKind : u.current.kind = .symbol .returns) :
      u.advanced.previous = u.current.span :=
    (State.reads_advanced (by rw [hKind]; nofun)).2
  have hStart := hPrevious hHere
  have hStart' := hPrevious (hStates.kind ▸ hHere)
  have hAdvanced := hStates.advanced
  rw [returnStatement, bind_of_some (rfl : advance s = (some s.current, s.advanced)),
    bind_of_some (rfl : advance s' = (some s'.current, s'.advanced)), ← hStart, ← hStart']
  split
  · exact hRest (hAdvanced.reported _ _ _ _)
  · exact hRest hAdvanced

omit h in
/-- `break` and `continue` are reported outside of loops, which the placement decides. -/
theorem blind_jumpStatement (pl : Placement) :
    Blind b true Stmt.withoutSpans (jumpStatement pl) (jumpStatement pl) := by
  refine .bind blind_advance fun t t' hKind => ?_
  rw [hKind]
  have hRest : Blind true true Stmt.withoutSpans
      (do semicolon
          return if t'.kind.is .breakLoop then Stmt.breakLoop t.span else Stmt.continueLoop t.span)
      (do semicolon
          return if t'.kind.is .breakLoop then Stmt.breakLoop t'.span
            else Stmt.continueLoop t'.span) := by
    refine .bind blind_semicolon fun _ _ _ => .pure ?_
    split <;> rfl
  exact .ite (fun _ => .bind (blind_reportAt _ _ _ _) fun _ _ _ => hRest) fun _ => hRest

/-- The test of a branch or a loop. -/
theorem blind_condition : Blind b true Expr.withoutSpans (condition inner) (condition inner) := by
  refine .bind (blind_expect _) fun _ _ _ => ?_
  refine .bind h.expression.later fun _ _ hTest => ?_
  refine .bind (blind_expect _) fun _ _ _ => ?_
  exact .pure hTest

/-- A branch; behind `else`, the next token decides between a block and a further branch. -/
theorem blind_branchLoop (pl : Placement) (fuel : Nat) :
    Blind b true Branch.withoutSpans (branchLoop inner pl fuel) (branchLoop inner pl fuel) := by
  induction fuel generalizing b with
  | zero => exact .fail
  | succ fuel ih =>
    refine .bind blind_advance fun token token' _ => .bind (blind_condition h)
      fun test test' hTest => .bind (blind_block h pl) fun consequent consequent' hConsequent => ?_
    -- the three ways to go on, else if, else and neither, end alike
    have hFinish (alternate alternate' : Alternate)
        (hAlternate : alternate.withoutSpans = alternate'.withoutSpans) :
        Blind true true Branch.withoutSpans
          (do let stop ← previousSpan
              return Branch.mk test consequent alternate (token.span.merge stop))
          (do let stop ← previousSpan
              return Branch.mk test' consequent' alternate' (token'.span.merge stop)) :=
      .bind .unseen fun _ _ _ => .pure
        (by rw [Branch.withoutSpans, hTest, hConsequent, hAlternate, Branch.withoutSpans])
    refine .bind_eat (.bind_check ?_ ?_)
      (.bind (v := Alternate.withoutSpans) (.pure rfl) hFinish)
    · refine .bind ih fun _ _ hBranch => .bind (v := Alternate.withoutSpans) (.pure ?_) hFinish
      rw [Alternate.withoutSpans, hBranch, Alternate.withoutSpans]
    · refine .bind (blind_block h pl) fun _ _ hBlock =>
        .bind (v := Alternate.withoutSpans) (.pure ?_) hFinish
      rw [Alternate.withoutSpans, hBlock, Alternate.withoutSpans]

/-- A loop with its test and its body. -/
theorem blind_whileStatement (pl : Placement) :
    Blind b true Stmt.withoutSpans (whileStatement inner pl) (whileStatement inner pl) := by
  refine .bind blind_advance fun _ _ _ => .bind (blind_condition h) fun _ _ hTest =>
    .bind (blind_block h pl.loop) fun _ _ hBody => .bind .unseen fun _ _ _ => .pure ?_
  rw [Stmt.withoutSpans, hTest, hBody, Stmt.withoutSpans]

/-- The first part of a `for` header. -/
theorem blind_loopInit :
    Blind b false LoopInit.optionWithoutSpans (loopInit inner) (loopInit inner) := by
  refine .bind_eat (.later (.pure rfl)) <| .bind_check ?_ <| .bind_check (blind_failing _ _) ?_
  · refine .bind (blind_declaration h) fun d d' hDeclared => .later (.pure ?_)
    obtain ⟨-, hDeclared⟩ := Prod.mk.inj hDeclared
    obtain ⟨hName, hInit⟩ := Prod.mk.inj hDeclared
    simp only [LoopInit.optionWithoutSpans, LoopInit.withoutSpans, hName, hInit]
  · refine .bind h.expression.later fun _ _ he => .bind (blind_expect _) fun _ _ _ =>
      .later (.pure ?_)
    simp only [LoopInit.optionWithoutSpans, LoopInit.withoutSpans, he]

/-- The other parts of the header. -/
theorem blind_optionalExpression (close : Symbol) :
    Blind b true Expr.optionWithoutSpans (optionalExpression inner close)
      (optionalExpression inner close) := by
  have hFinish {c : Bool} (e e' : Option Expr)
      (he : e.map Expr.withoutSpans = e'.map Expr.withoutSpans) :
      Blind c true Expr.optionWithoutSpans (do expect close; return e)
        (do expect close; return e') :=
    .bind (blind_expect _) fun _ _ _ => .pure (by
      rw [Expr.optionWithoutSpans_eq_map, he, Expr.optionWithoutSpans_eq_map])
  refine .bind_check ?_ ?_
  · exact .bind (v := Option.map Expr.withoutSpans) (.pure rfl) hFinish
  · exact .bind (.map (w := Option.map Expr.withoutSpans) h.expression.later
      fun _ _ he => congrArg some he) hFinish

/-- A loop with its header and its body. -/
theorem blind_forStatement (pl : Placement) :
    Blind b true Stmt.withoutSpans (forStatement inner pl) (forStatement inner pl) := by
  refine .bind blind_advance fun _ _ _ => .bind (blind_expect _) fun _ _ _ =>
    .bind (blind_loopInit h) fun _ _ hInit => .bind (blind_optionalExpression h _) fun _ _ hTest =>
    .bind (blind_optionalExpression h _) fun _ _ hUpdate => .bind (blind_block h pl.loop)
    fun _ _ hBody => .bind .unseen fun _ _ _ => .pure ?_
  rw [Stmt.withoutSpans, hInit, hTest, hUpdate, hBody, Stmt.withoutSpans]

/-- The next token decides which kind of statement is read. -/
theorem blind_statement (pl : Placement) :
    Blind b true Stmt.withoutSpans (statement inner pl) (statement inner pl) := by
  have hDeclaration : Blind b true Stmt.withoutSpans (variableDeclaration inner)
      (variableDeclaration inner) := by
    refine .bind (blind_declaration h) fun d d' hDeclared => .pure ?_
    obtain ⟨hConst, hDeclared⟩ := Prod.mk.inj hDeclared
    obtain ⟨hName, hInit⟩ := Prod.mk.inj hDeclared
    simp only [Stmt.withoutSpans, hConst, hName, hInit]
  have hExpression : Blind b true Stmt.withoutSpans (expressionStatement inner)
      (expressionStatement inner) := by
    refine .bind h.expression.later fun _ _ he => .bind blind_semicolon fun _ _ _ => .pure ?_
    rw [Stmt.withoutSpans, he, Stmt.withoutSpans]
  have hFunction : Blind b true Stmt.withoutSpans (functionDeclaration inner)
      (functionDeclaration inner) := by
    refine .bind blind_advance fun _ _ _ => .bind blind_bindingName fun _ _ hName =>
      .bind (blind_functionRest h (congrArg some hName)) fun _ _ hFunction => .pure ?_
    rw [Stmt.withoutSpans, hFunction, Stmt.withoutSpans]
  -- both runs see the same kind, so they take the same branch
  refine .bind_kind fun k s s' hStates hHere => ?_
  split
  · exact hDeclaration s s' hStates
  · exact hDeclaration s s' hStates
  · refine Blind.bind_same blind_nextIsName (fun _ => ?_) s s' hStates
    exact .ite (fun _ => hFunction) fun _ => hExpression
  · exact agree_returnStatement h pl hStates hHere
  · refine Blind.bind_same blind_rounds (fun n => ?_) s s' hStates
    refine .bind (blind_branchLoop h pl n) fun _ _ hBranch => .pure ?_
    rw [Stmt.withoutSpans, hBranch, Stmt.withoutSpans]
  · exact blind_whileStatement h pl s s' hStates
  · exact blind_forStatement h pl s s' hStates
  · exact blind_jumpStatement pl s s' hStates
  · exact blind_jumpStatement pl s s' hStates
  · refine Blind.bind blind_advance (fun _ _ _ => ?_) s s' hStates
    exact .bind blind_semicolon fun _ _ _ => .pure rfl
  · refine Blind.bind (blind_block h pl) (fun _ _ hBlock => .pure ?_) s s' hStates
    rw [Stmt.withoutSpans, hBlock, Stmt.withoutSpans]
  · exact hExpression s s' hStates

/-- Statements up to the end of a block. A statement that fails leaves nothing behind, and recovery
goes to the same token in both texts. -/
theorem blind_statements (pl : Placement) :
    Blind b false Stmt.allWithoutSpans (statements inner pl) (statements inner pl) := by
  have hLoop (fuel : Nat) {done done' : List Stmt}
      (hDone : done.map Stmt.withoutSpans = done'.map Stmt.withoutSpans) :
      Blind false false Stmt.allWithoutSpans (statementLoop inner pl fuel done)
        (statementLoop inner pl fuel done') := by
    have hStop {done done' : List Stmt}
        (hDone : done.map Stmt.withoutSpans = done'.map Stmt.withoutSpans) :
        Stmt.allWithoutSpans done.reverse = Stmt.allWithoutSpans done'.reverse := by
      rw [Stmt.allWithoutSpans_eq_map, Stmt.allWithoutSpans_eq_map, List.map_reverse,
        List.map_reverse, hDone]
    induction fuel generalizing done done' with
    | zero => exact .pure (hStop hDone)
    | succ fuel ih =>
      refine .bind_same (blind_check _) fun _ => .bind_same (blind_check _) fun _ =>
        .bind_same blind_logIsFull fun _ => .ite (fun _ => .pure (hStop hDone)) fun _ => ?_
      -- a semicolon alone, or a statement; what follows may start anywhere
      refine .bind_eat (.later (ih hDone)) <| .bind (blind_statement h pl).attempt
        fun o o' hRead => ?_
      match o, o', hRead with
      | some s, some s', hRead =>
        exact ih (by rw [List.map_cons, List.map_cons, Option.some.inj hRead, hDone])
      | none, none, _ => exact .bind blind_synchronize fun _ _ _ => ih hDone
  exact .later (.bind_same blind_rounds fun n => hLoop n rfl)

end Level

-- ---------------------------------------------------------------------------
-- Programs
-- ---------------------------------------------------------------------------

/-- The rules of all depths are blind, by induction on the depth. -/
theorem blind_grammar (n : Nat) : (grammar n).Blind := by
  induction n with
  | zero => exact .refused
  | succ n ih => exact ⟨blind_assignment ih, blind_statements ih⟩

/-- Behind a brace that closes nothing, which is reported in both texts, statements may follow. -/
theorem blind_programLoop (fuel : Nat) {done done' : List Stmt}
    (hDone : Stmt.allWithoutSpans done = Stmt.allWithoutSpans done') :
    Blind b false Stmt.allWithoutSpans (programLoop fuel done) (programLoop fuel done') := by
  induction fuel generalizing b done done' with
  | zero => exact .later (.pure hDone)
  | succ fuel ih =>
    have hLevel : outermost.Blind := blind_grammar maxNestingDepth
    refine .bind (blind_statements hLevel .program) fun ss ss' hMore => ?_
    have hAll : Stmt.allWithoutSpans (done ++ ss) = Stmt.allWithoutSpans (done' ++ ss') := by
      rw [Stmt.allWithoutSpans_eq_map, Stmt.allWithoutSpans_eq_map] at hDone hMore ⊢
      rw [List.map_append, List.map_append, hDone, hMore]
    refine .bind_same (blind_check _) fun _ => .bind_same blind_logIsFull fun _ =>
      .ite (fun _ => .pure hAll) fun _ => ?_
    exact .bind (blind_report _ _) fun _ _ _ => .bind blind_advance fun _ _ _ => ih hAll

/-- A whole program. -/
theorem blind_program : Blind b false Program.withoutSpans program program := by
  refine .bind .unseen fun _ _ _ => .bind_same blind_rounds fun n =>
    .bind (blind_programLoop n rfl) fun _ _ hStatements => .bind .unseen fun _ _ _ => .pure ?_
  simp only [Program.withoutSpans, Block.withoutSpans, hStatements]

/-- At the start nothing was read, so the line before the first token is of no account. -/
theorem alike_ofTokens (source source' : Source) {ts ts' : List Token}
    (hLayout : SameLayout ts ts') :
    Alike false (.ofTokens source ts) (.ofTokens source' ts') := by
  have hLength : ts.length = ts'.length := by simpa using congrArg List.length hLayout.kinds
  have hTokens : SameLayout
      ((State.ofTokens source ts).current :: (State.ofTokens source ts).ahead)
      ((State.ofTokens source' ts').current :: (State.ofTokens source' ts').ahead) := by
    cases ts with
    | nil =>
      obtain rfl := List.map_eq_nil_iff.mp hLayout.kinds.symm
      exact .single rfl
    | cons t ts =>
      obtain ⟨t', ts', rfl, -, -⟩ := List.map_eq_cons_iff.mp hLayout.kinds.symm
      exact hLayout
  exact ⟨hTokens, congrArg (· + maxErrors + 2) hLength, rfl, rfl, nofun⟩

end Parser

/-- Two token lists of the same layout make up the same program, or neither of them makes up one,
and as much is reported of the one as of the other: the same faults in the same order. -/
theorem parseTokens_sameLayout (source source' : Source) {ts ts' : List Token}
    (hLayout : SameLayout ts ts') :
    (parseTokens source ts).program.map Program.withoutSpans =
        (parseTokens source' ts').program.map Program.withoutSpans ∧
      (parseTokens source ts).log.total = (parseTokens source' ts').log.total ∧
      (parseTokens source ts).log.kept.map Diagnostic.statement =
        (parseTokens source' ts').log.kept.map Diagnostic.statement := by
  have hAgree := Parser.blind_program _ _ (Parser.alike_ofTokens source source' hLayout)
  unfold parseTokens
  generalize Parser.program (.ofTokens source ts) = y at hAgree ⊢
  generalize Parser.program (.ofTokens source' ts') = y' at hAgree ⊢
  cases hAgree with
  | failed hStates => exact ⟨by simp, hStates.total, hStates.reports⟩
  | @passed a a' t t' hResults hStates =>
    -- a program is given exactly if nothing was reported, and the reports are equally many
    have hErrors : t.log.hasErrors = t'.log.hasErrors :=
      congrArg (fun n => decide (n > 0)) hStates.total
    refine ⟨?_, hStates.total, hStates.reports⟩
    dsimp only
    rw [hErrors]
    split
    · rfl
    · exact congrArg some hResults

/-- Two names on two lines, which are two statements. -/
def twoLines (first second : Nat) : List Token :=
  Token.onLine first [.name "a"] ++ Token.onLine second [.name "b", .symbol .eof]

/-- On lines one and two, or on lines four and nine: the text has the same layout. -/
theorem twoLines_sameLayout :
    SameLayout (twoLines 1 2) (twoLines 4 9) ∧
      (parseTokens default (twoLines 1 2)).program.map Program.withoutSpans =
        (parseTokens default (twoLines 4 9)).program.map Program.withoutSpans ∧
      (parseTokens default (twoLines 1 2)).log.total =
        (parseTokens default (twoLines 4 9)).log.total ∧
      (parseTokens default (twoLines 1 2)).log.kept.map Diagnostic.statement =
        (parseTokens default (twoLines 4 9)).log.kept.map Diagnostic.statement :=
  have hLayout : SameLayout (twoLines 1 2) (twoLines 4 9) := ⟨rfl, rfl⟩
  ⟨hLayout, parseTokens_sameLayout default default hLayout⟩

end AmbScript
