import AmbScript.Parser.Expression
import AmbScript.Proofs.Parser.Acceptance

/-!
# Reading rendered expressions

The rule for expressions reads the rendering of an expression back, if the rules of the level below
read those that are nested in it.

* `Level.Accepts` — a level reads what is rendered with at most so much nesting.
* `Stops` — the tokens that may follow a whole expression.
* `accepts_primary` — an expression in its parentheses, whatever follows.
* `accepts_inside` — what stands between those parentheses.

An operand is always in parentheses, so the loops over operators have one round at most, and the
thresholds of precedence are never decisive. What has to be followed is what comes behind each part:
`NoPostfix` and `NoInfix` say that a loop will stop there, and `Stops` is what follows an expression
that is not an operand.
-/

namespace AmbScript.Parser

open Token (Kind)

-- ---------------------------------------------------------------------------
-- What follows
-- ---------------------------------------------------------------------------

/-- The marks that stand behind whole expressions. No expression goes on with one of them. -/
def stoppers : List Symbol := [.closeParen, .closeBracket, .comma, .colon, .semicolon]

/-- One of these marks comes next. -/
def Stops (rest : List Kind) : Prop := ∃ x ∈ stoppers, nextKind rest = .symbol x

/-- Whatever comes next. -/
def Anything (_ : List Kind) : Prop := True

/-- The end of a block or of the text comes next. -/
def EndsBlock (rest : List Kind) : Prop :=
  nextKind rest = .symbol .closeBrace ∨ nextKind rest = .symbol .eof

/-- A mark that is there comes next. -/
theorem stops_cons {x : Symbol} {ks : List Kind} (h : x ∈ stoppers) : Stops (.symbol x :: ks) :=
  ⟨x, h, rfl⟩

/-- No operation goes on behind an operand. -/
def NoPostfix (rest : List Kind) : Prop :=
  ∀ x ∈ [Symbol.openParen, .openBracket, .dot], nextKind rest ≠ .symbol x

/-- No operator comes next that binds at least as tightly as `least`. -/
def NoInfix (least : Nat) (rest : List Kind) : Prop :=
  ∀ op p, InfixOp.ofKind? (nextKind rest) = some (op, p) → p < least

/-- Where no operator comes next, none does that binds tightly enough. -/
theorem noInfix_of_none {rest : List Kind} (h : InfixOp.ofKind? (nextKind rest) = none)
    (least : Nat) : NoInfix least rest := by
  intro op p hOp
  rw [h] at hOp
  cases hOp

/-- None of the marks goes on with an operand. -/
theorem Stops.noPostfix {rest : List Kind} (h : Stops rest) : NoPostfix rest := by
  obtain ⟨x, hx, hn⟩ := h
  simp only [stoppers, List.mem_cons, List.not_mem_nil, or_false] at hx
  rcases hx with rfl | rfl | rfl | rfl | rfl <;> simp [NoPostfix, hn]

/-- None of them is an operator. -/
theorem Stops.noInfix {rest : List Kind} (h : Stops rest) (least : Nat) : NoInfix least rest := by
  obtain ⟨x, hx, hn⟩ := h
  refine noInfix_of_none ?_ least
  rw [hn]
  simp only [stoppers, List.mem_cons, List.not_mem_nil, or_false] at hx
  rcases hx with rfl | rfl | rfl | rfl | rfl <;> rfl

/-- Any other symbol does not come next. -/
theorem Stops.ne {rest : List Kind} (h : Stops rest) {x : Symbol}
    (hx : x ∉ stoppers) :
    nextKind rest ≠ .symbol x := by
  obtain ⟨y, hy, hn⟩ := h
  rw [hn]
  rintro h
  cases h
  exact hx hy

-- ---------------------------------------------------------------------------
-- Levels
-- ---------------------------------------------------------------------------

/-- The same expression but for its places in a text. -/
def SameExpr (e a : Expr) : Prop := a.withoutSpans = e.withoutSpans

/-- The same statements but for their places. -/
def SameStmts (ss as : List Stmt) : Prop := Stmt.allWithoutSpans as = Stmt.allWithoutSpans ss

/-- The same block but for its places. -/
def SameBlock (b a : Block) : Prop := a.withoutSpans = b.withoutSpans

/-- The rules of a level read what is rendered with no more than `n` expressions and blocks open at
once. -/
structure Level.Accepts (line n : Nat) (level : Level) : Prop where
  inside : ∀ e : Expr, e.Valid → e.nesting + 1 ≤ n →
    Parser.Accepts line Stops level.expression e.inside (SameExpr e)
  expression : ∀ e : Expr, e.Valid → e.nesting + 2 ≤ n →
    Parser.Accepts line Stops level.expression e.rendering (SameExpr e)
  statements : ∀ pl ss, Stmt.AllValid ss pl → Stmt.allNesting ss + 1 ≤ n →
    Parser.Accepts line EndsBlock (level.statements pl) (Stmt.renderAll ss) (SameStmts ss)

variable {line n : Nat} {inner : Level} {α : Type}

-- ---------------------------------------------------------------------------
-- Blocks and functions
-- ---------------------------------------------------------------------------

/-- A block is read back, whatever follows it. -/
theorem accepts_block (hi : inner.Accepts line n) {b : Block} {pl : Placement} (valid : b.Valid pl)
    (le : b.nesting ≤ n) : Accepts line Anything (block inner pl) b.rendering (SameBlock b) := by
  obtain ⟨ss, span⟩ := b
  refine .seen fun start => .expect (.bind (hi.statements pl ss valid le) (fun _ _ => .inl rfl)
    fun as same => .expect (.seen fun stop => .pure ?_))
  show Block.withoutSpans _ = _
  rw [Block.withoutSpans, same, Block.withoutSpans]

/-- Names that are the same but for their places have the same text. -/
theorem name_of_withoutSpan {a b : Ident} (h : a.withoutSpan = b.withoutSpan) :
    a.name = b.name := by
  simpa [Ident.withoutSpan] using h

/-- Parameters behind those that are `done`. -/
theorem accepts_paramLoop {names : List Ident} (nonempty : names ≠ [])
    (declarable : ∀ n ∈ names, n.Declarable) (done : List Ident)
    (distinct : ((done.reverse ++ names).map (·.name)).Nodup) (fuel : Nat)
    (enough : (renderParams names).length < fuel) :
    Accepts line (fun rest => nextKind rest = .symbol .closeParen) (paramLoop fuel done)
      (renderParams names) fun as =>
        as.map Ident.withoutSpan = (done.reverse ++ names).map Ident.withoutSpan := by
  induction names generalizing done fuel with
  | nil => exact absurd rfl nonempty
  | cons name names ih =>
    obtain ⟨fuel, rfl⟩ : ∃ m, fuel = m + 1 := ⟨fuel - 1, by omega⟩
    refine .bindingName (declarable name (by simp)) fun n same => ?_
    have named : n.name = name.name := name_of_withoutSpan same
    -- the names differ, so none of those that are there already is found
    have fresh : ¬done.any (·.name == n.name) = true := by
      simp only [List.map_append, List.map_cons, List.nodup_append] at distinct
      simp only [List.any_eq_true, beq_iff_eq, not_exists, not_and]
      intro d hd hn
      exact distinct.2.2 d.name (by simpa using ⟨d, hd, rfl⟩) name.name (by simp) (hn.trans named)
    refine .ite_neg fresh ?_
    cases names with
    | nil =>
      refine .eat_ne (fun rest h => by simp [comma, renderParams, h]) (.pure ?_)
      simp [same]
    | cons next names =>
      have others : ∀ m ∈ next :: names, m.Declarable := fun m hm => declarable m (by simp [hm])
      refine .eat_is ((ih (by simp) others (n :: done) ?_ fuel ?_).mono (fun _ h => h)
        fun as h => ?_)
      · simpa [named] using distinct
      · simp only [renderParams, comma, List.length_cons, List.length_append] at enough ⊢
        omega
      · rw [h]
        simp [same]

/-- Parameters up to the closing parenthesis. -/
theorem accepts_paramList {params : List Ident} (valid : ValidParams params) :
    Accepts line (fun rest => nextKind rest = .symbol .closeParen) paramList (renderParams params)
      fun as => as.map Ident.withoutSpan = params.map Ident.withoutSpan := by
  cases params with
  | nil => exact .check_is (fun _ h => h) (.ite_pos rfl (.pure rfl))
  | cons name names =>
    refine .check_ne (by simp [renderParams]) (.ite_neg (by simp) (.rounds fun fuel enough => ?_))
    exact accepts_paramLoop (by simp) valid.1 [] valid.2 fuel enough

/-- The parameters and the body of a function. -/
theorem accepts_functionRest (hi : inner.Accepts line n) {params : List Ident} {body : Block}
    (valid : ValidParams params) (validBody : body.Valid .function) (le : body.nesting ≤ n)
    (name : Option Ident) (start : Span) :
    Accepts line Anything (functionRest inner name start)
      (parens (renderParams params) ++ body.rendering)
      fun f => ∃ as b sp, f = .mk name as b sp ∧
        as.map Ident.withoutSpan = params.map Ident.withoutSpan ∧ SameBlock body b := by
  rw [parens_append]
  refine .expect (.bind (accepts_paramList valid) (fun _ _ => rfl) fun as same => .expect ?_)
  exact .last (accepts_block hi validBody le) (fun _ _ => trivial) fun b sameBody =>
    .seen fun stop => .pure ⟨as, b, _, rfl, same, sameBody⟩

/-- The name of a function is read if there is one. -/
theorem accepts_functionName (name : Option Ident) (declarable : ∀ n ∈ name, n.Declarable) :
    Accepts line (fun rest => nextKind rest = .symbol .openParen) functionName? (renderName name)
      fun a => a.map Ident.withoutSpan = name.map Ident.withoutSpan := by
  cases name with
  | none =>
    exact .currentKind (k := .symbol .openParen) (fun _ h => h)
      (.ite_neg (by simp [Kind.isName, Kind.name?]) (.pure rfl))
  | some name =>
    refine .currentKind (k := .name name.name) (fun _ _ => rfl) (.ite_pos rfl ?_)
    exact .bindingName (declarable name rfl) fun n same => .pure (congrArg some same)

-- ---------------------------------------------------------------------------
-- Lists
-- ---------------------------------------------------------------------------

/-- The closing marks of lists of expressions. -/
def closers : List Symbol := [.closeParen, .closeBracket]

/-- They end expressions as well. -/
theorem mem_stoppers : ∀ x ∈ closers, x ∈ stoppers := by decide

/-- They are neither an opening parenthesis nor a comma, so the loop over items knows them. -/
theorem ne_of_mem_closers : ∀ x ∈ closers, x ≠ .openParen ∧ x ≠ .comma := by decide

/-- Items behind those that are `done`. -/
theorem accepts_commaLoop (hi : inner.Accepts line n) {close : Symbol} (hc : close ∈ closers)
    {es : List Expr} (valid : Expr.AllValid es) (le : Expr.itemsNesting es ≤ n) (done : List Expr)
    (fuel : Nat) (enough : (Expr.renderItems es).length < fuel) :
    Accepts line (fun rest => nextKind rest = .symbol close) (commaLoop inner close fuel done)
      (Expr.renderItems es) fun as =>
        ∃ more, as = done.reverse ++ more ∧
          Expr.allWithoutSpans more = Expr.allWithoutSpans es := by
  obtain ⟨notOpen, notComma⟩ := ne_of_mem_closers close hc
  induction es generalizing done fuel with
  | nil =>
    obtain ⟨fuel, rfl⟩ : ∃ m, fuel = m + 1 := ⟨fuel - 1, by omega⟩
    exact .check_is (fun _ h => h) (.ite_pos rfl (.pure ⟨[], by simp, rfl⟩))
  | cons e es ih =>
    obtain ⟨fuel, rfl⟩ : ∃ m, fuel = m + 1 := ⟨fuel - 1, by omega⟩
    simp only [Expr.itemsNesting] at le
    have first := hi.expression e valid.1 (by omega)
    refine .check_ne (fun rest _ => ?_) (.ite_neg (by simp)
      (.bind first (fun rest h => ?_) fun a same => ?_))
    · simpa [Expr.renderItems, parens] using Ne.symm notOpen
    -- behind an item stands the mark that closes the list, or a comma
    · cases es with
      | nil => exact ⟨close, mem_stoppers close hc, h⟩
      | cons e' es => exact stops_cons (by decide)
    · cases es with
      | nil =>
        refine .eat_ne (fun rest h => ?_) (.pure ⟨[a], by simp, ?_⟩)
        · show nextKind rest ≠ _
          rw [show nextKind rest = .symbol close from h]
          simpa using notComma
        · simp only [Expr.allWithoutSpans, SameExpr] at same ⊢
          rw [same]
      | cons e' es =>
        refine .eat_is ((ih valid.2 (by omega) (a :: done) fuel ?_).mono (fun _ h => h) ?_)
        · simp only [Expr.renderItems, comma, parens, List.length_cons, List.length_append]
            at enough ⊢
          omega
        · rintro as ⟨more, rfl, h⟩
          refine ⟨a :: more, by simp, ?_⟩
          rw [Expr.allWithoutSpans, Expr.allWithoutSpans, h, same]

/-- A list of expressions and the mark that closes it. -/
theorem accepts_commaList (hi : inner.Accepts line n) {close : Symbol} (hc : close ∈ closers)
    {es : List Expr} (valid : Expr.AllValid es) (le : Expr.itemsNesting es ≤ n) :
    Accepts line Anything (commaList inner close) (Expr.renderItems es ++ [.symbol close])
      fun as => Expr.allWithoutSpans as = Expr.allWithoutSpans es := by
  refine .rounds fun fuel enough => ?_
  rw [List.length_append] at enough
  refine .bind (accepts_commaLoop hi hc valid le [] fuel (by omega)) (fun _ _ => rfl) fun as h => ?_
  obtain ⟨more, rfl, same⟩ := h
  exact .expect (.pure same)

-- ---------------------------------------------------------------------------
-- Expressions without loose ends
-- ---------------------------------------------------------------------------

/-- An expression in its parentheses, whatever follows. -/
theorem accepts_primary (hi : inner.Accepts line n) {e : Expr} (valid : e.Valid)
    (le : e.nesting + 1 ≤ n) :
    Accepts line Anything (primary inner) e.rendering (SameExpr e) := by
  refine .current fun token kind _ _ => ?_
  have notAtom : atom? token = none := by simp [atom?, kind]
  rw [notAtom]
  refine .eat_ne (by simp) (.eat_is ?_)
  exact .bind (hi.inside e valid le) (fun _ _ => stops_cons (by decide))
    fun a same => .expect (.pure same)

/-- A single token that is an expression. -/
theorem accepts_atom {k : Kind} {e : Expr}
    (h : ∀ span, ∃ a, atom? ⟨k, span⟩ = some a ∧ SameExpr e a) :
    Accepts line Anything (primary inner) [k] (SameExpr e) := by
  refine .current fun token kind _ _ => ?_
  obtain ⟨a, ha, same⟩ := h token.span
  rw [← kind] at ha
  rw [ha]
  exact .advance fun _ _ _ _ => .pure same

/-- An array in its brackets. -/
theorem accepts_array (hi : inner.Accepts line n) {es : List Expr} (span : Span)
    (valid : Expr.AllValid es) (le : Expr.itemsNesting es ≤ n) :
    Accepts line Anything (primary inner) (brackets (Expr.renderItems es))
      (SameExpr (.array es span)) := by
  refine .current fun token kind _ _ => ?_
  have notAtom : atom? token = none := by simp [atom?, kind]
  rw [notAtom]
  refine .eat_is (.last (accepts_commaList hi (by decide) valid le) (fun _ _ => trivial)
    fun as same => .seen fun stop => .pure ?_)
  rw [SameExpr, Expr.withoutSpans, same, Expr.withoutSpans]

/-- A function with its word. -/
theorem accepts_function (hi : inner.Accepts line n) {f : Function} (valid : f.Valid)
    (le : f.nesting ≤ n) :
    Accepts line Anything (primary inner) f.rendering (SameExpr (.function f)) := by
  obtain ⟨name, params, body, span⟩ := f
  refine .current fun token kind _ _ => ?_
  have notAtom : atom? token = none := by simp [atom?, kind]
  rw [notAtom]
  refine .eat_ne (by simp) (.eat_ne (by simp) (.eat_is ?_))
  refine .bind (accepts_functionName name valid.1) (fun _ _ => rfl) fun as same => ?_
  refine .last (accepts_functionRest hi valid.2.1 valid.2.2 le as token.span) (fun _ _ => trivial)
    fun f h => .pure ?_
  obtain ⟨ps, b, sp, rfl, sameParams, sameBody⟩ := h
  rw [SameExpr, Expr.withoutSpans, Function.withoutSpans, same, sameParams, sameBody,
    Expr.withoutSpans, Function.withoutSpans]

-- ---------------------------------------------------------------------------
-- Looser ranks
-- ---------------------------------------------------------------------------

variable {F : List Kind → Prop} {ks : List Kind} {Q : Expr → Prop}

/-- Where no operation goes on, the loop reads nothing. -/
theorem accepts_postfixLoop (hF : ∀ rest, F rest → NoPostfix rest) (fuel : Nat) (e : Expr)
    (h : Q e) : Accepts line F (postfixLoop inner fuel e) [] Q := by
  cases fuel with
  | zero => exact .pure h
  | succ fuel =>
    exact .eat_ne (fun rest hr => hF rest hr _ (by simp))
      (.eat_ne (fun rest hr => hF rest hr _ (by simp))
        (.eat_ne (fun rest hr => hF rest hr _ (by simp)) (.pure h)))

/-- So what begins an expression is all of it. -/
theorem accepts_operation (hF : ∀ rest, F rest → NoPostfix rest)
    (hx : Accepts line F (primary inner) ks Q) : Accepts line F (operation inner) ks Q := by
  exact .rounds fun fuel _ => .last hx (fun _ h => h) fun e he => accepts_postfixLoop hF fuel e he

/-- Where no operator comes next, none is read. -/
theorem accepts_unaryOps_nil (fuel : Nat) (done : List (UnaryOp × Span)) :
    Accepts line (fun rest => unaryOp? (nextKind rest) = none) (unaryOps fuel done) []
      (· = done) := by
  cases fuel with
  | zero => exact .pure rfl
  | succ fuel =>
    refine .currentKind_of (unaryOp? · = none) (fun _ h => h) fun k hk => ?_
    rw [hk]
    exact .pure rfl

/-- So an operand alone is read without one. -/
theorem accepts_unary (hk : ∀ rest, F rest → unaryOp? (nextKind (ks ++ rest)) = none)
    (hx : Accepts line F (operation inner) ks Q) : Accepts line F (unary inner) ks Q := by
  refine .rounds fun fuel _ => ?_
  rw [← List.nil_append ks]
  refine .bind (accepts_unaryOps_nil fuel []) hk fun ops empty => ?_
  rw [empty]
  exact .last hx (fun _ h => h) fun e he => .pure he

/-- The token of an operator is known as that operator. -/
theorem unaryOp?_symbol (op : UnaryOp) : unaryOp? (.symbol op.symbol) = some op := by
  cases op <;> rfl

/-- A unary operator before an operand in parentheses. -/
theorem accepts_unary_of (hi : inner.Accepts line n) (op : UnaryOp) {e : Expr} (valid : e.Valid)
    (le : e.nesting + 1 ≤ n) (span : Span) :
    Accepts line Stops (unary inner) (.symbol op.symbol :: e.rendering)
      (SameExpr (.unary op e span)) := by
  refine .rounds fun fuel enough => ?_
  obtain ⟨fuel, rfl⟩ : ∃ m, fuel = m + 1 := ⟨fuel - 1, by omega⟩
  -- the operand is in parentheses, so exactly one operator is read
  have ops : Accepts line (fun rest => unaryOp? (nextKind rest) = none) (unaryOps (fuel + 1) [])
      [.symbol op.symbol] fun ops => ∃ sp, ops = [(op, sp)] := by
    refine .currentKind (k := .symbol op.symbol) (fun _ _ => rfl) ?_
    rw [unaryOp?_symbol]
    exact .advance fun t _ _ _ =>
      (accepts_unaryOps_nil fuel _).mono (fun _ h => h) fun _ h => ⟨t.span, h⟩
  refine .one ops (fun _ _ => rfl) fun _ h => ?_
  obtain ⟨sp, rfl⟩ := h
  have operand : Accepts line Stops (operation inner) e.rendering (SameExpr e) :=
    accepts_operation (fun _ h => h.noPostfix)
      ((accepts_primary hi valid le).mono (fun _ _ => trivial) fun _ h => h)
  refine .last operand (fun _ h => h) fun a same => .pure ?_
  rw [SameExpr] at same ⊢
  simp only [List.foldl_cons, List.foldl_nil, applyUnary, Expr.withoutSpans, same]

/-- Where no operator follows that reaches the threshold, the loop reads nothing. -/
theorem accepts_climbLoop_nil {operand : Nat → Parser Expr} {least : Nat} (fuel : Nat) (e : Expr)
    (h : Q e) : Accepts line (NoInfix least) (climbLoop operand least fuel e) [] Q := by
  intro s rest hrest hs
  refine ⟨e, s, ?_, h, hs⟩
  cases hOp : InfixOp.ofKind? s.current.kind with
  | none => exact climbLoop_of_none hOp
  | some found =>
    rw [hs.kind_eq] at hOp
    have below : found.2 < least := hrest found.1 found.2 hOp
    exact climbLoop_of_lt (hs.kind_eq ▸ hOp) below

/-- A single operand is a chain, where no operator follows that would go on with it. -/
theorem accepts_binary {least : Nat} (hF : ∀ rest, F rest → NoInfix least rest)
    (hx : Accepts line F (unary inner) ks Q) : Accepts line F (binary inner least) ks Q := by
  rw [binary_eq]
  refine .last hx (fun _ h => h) fun e he => .rounds fun fuel _ => ?_
  exact (accepts_climbLoop_nil fuel e he).mono hF fun _ h => h

/-- The mark of an operator. -/
def InfixOp.symbol : InfixOp → Symbol
  | logical op => op.symbol
  | binary op => op.symbol

/-- The token of an operator between expressions is known, with its precedence. -/
theorem InfixOp.ofKind?_symbol (op : InfixOp) :
    ∃ p, ofKind? (.symbol op.symbol) = some (op, p) := by
  rcases op with (_ | _) | (_ | _ | _ | _ | _ | _ | _ | _ | _ | _ | _) <;>
    exact ⟨_, rfl⟩

/-- Such a token does not go on with an operand. -/
theorem InfixOp.noPostfix (op : InfixOp) (ks : List Kind) :
    NoPostfix (.symbol op.symbol :: ks) := by
  rcases op with (_ | _) | (_ | _ | _ | _ | _ | _ | _ | _ | _ | _ | _) <;>
    simp [NoPostfix, symbol, BinaryOp.symbol, LogicalOp.symbol]

/-- An operand in parentheses, where nothing follows that binds it tighter. -/
theorem accepts_operand (hi : inner.Accepts line n) {e : Expr} (valid : e.Valid)
    (le : e.nesting + 1 ≤ n) :
    Accepts line NoPostfix (unary inner) e.rendering (SameExpr e) := by
  have plain := (accepts_primary hi valid le).mono
    (G := NoPostfix) (fun _ _ => trivial) fun _ h => h
  exact accepts_unary (fun _ _ => rfl) (accepts_operation (fun _ h => h) plain)

/-- An operator between two operands in parentheses. -/
theorem accepts_binary_of (hi : inner.Accepts line n) (op : InfixOp) {l r : Expr} (hl : l.Valid)
    (hr : r.Valid) (lel : l.nesting + 1 ≤ n) (ler : r.nesting + 1 ≤ n) :
    Accepts line Stops (binary inner 0) (l.rendering ++ .symbol op.symbol :: r.rendering)
      fun a => ∃ l' r', a = op.apply l' r' ∧ SameExpr l l' ∧ SameExpr r r' := by
  obtain ⟨p, known⟩ := op.ofKind?_symbol
  rw [binary_eq]
  refine .bind (accepts_operand hi hl lel) (fun _ _ => op.noPostfix _) fun l' same =>
    .rounds fun fuel enough => ?_
  obtain ⟨fuel, rfl⟩ : ∃ k, fuel = k + 1 := ⟨fuel - 1, by omega⟩
  refine .currentKind (k := .symbol op.symbol) (fun _ _ => rfl) ?_
  rw [known]
  refine .ite_neg (Nat.not_lt_zero p) (.advance fun _ _ _ _ => ?_)
  -- the right operand is rendered so that it is read at any threshold
  have right : Accepts line Stops (binary inner (p + 1)) r.rendering (SameExpr r) :=
    accepts_binary (fun _ h => h.noInfix _)
      ((accepts_operand hi hr ler).mono (fun _ h => h.noPostfix) fun _ h => h)
  refine .last right (fun _ h => h) fun r' same' => ?_
  exact (accepts_climbLoop_nil fuel _ ⟨l', r', rfl, same, same'⟩).mono
    (fun _ h => h.noInfix 0) fun _ h => h

-- ---------------------------------------------------------------------------
-- Whole expressions
-- ---------------------------------------------------------------------------

/-- Where no question mark follows, there is only the test. -/
theorem accepts_conditional (hF : ∀ rest, F rest → nextKind rest ≠ .symbol .question)
    (hx : Accepts line F (binary inner 0) ks Q) :
    Accepts line F (conditional inner) ks Q := by
  refine .last hx ?_ ?_
  · intro _ h
    exact h
  · intro _ he
    exact .eat_ne hF (.pure he)

/-- A symbol that is not among the tokens is not the first of them. -/
theorem headIs_eq_false {x : Symbol} {ts : List Token} (h : ∀ t ∈ ts, t.kind ≠ .symbol x) :
    headIs x ts = false := by
  cases ts with
  | nil => rfl
  | cons t ts => exact Kind.is_eq_false.mpr (h t (by simp))

/-- Where there is no arrow, none is seen behind names. -/
theorem namesThenArrow_eq_false {ts : List Token} (h : ∀ t ∈ ts, t.kind ≠ .symbol .arrow) :
    namesThenArrow ts = false := by
  fun_induction namesThenArrow ts with
  | case1 name mark rest ih =>
    rw [ih fun t ht => h t (by simp [ht]), headIs_eq_false fun t ht => h t (by simp [ht])]
    simp
  | case2 => rfl

/-- No arrow function starts where no arrow follows. -/
theorem State.Upcoming.not_atArrow {s : State} (h : s.Upcoming line ks) : s.atArrow = false := by
  unfold State.atArrow
  split
  · exact headIs_eq_false h.noArrow
  · split
    · split
      · exact headIs_eq_false fun t ht => h.noArrow t (List.mem_of_mem_drop ht)
      · exact namesThenArrow_eq_false h.noArrow
    · rfl

/-- Where no arrow follows, an expression is a conditional one. -/
theorem accepts_assignment (hF : ∀ rest, F rest → nextKind rest ≠ .symbol .assign)
    (hx : Accepts line F (conditional inner) ks Q) : Accepts line F (assignment inner) ks Q := by
  refine .look false ?_ ?_
  · intro _ _ _ hs
    exact hs.not_atArrow
  · refine .ite_neg (by simp) ?_
    refine .last hx ?_ ?_
    · intro _ h
      exact h
    · intro _ he
      exact .eat_ne hF (.pure he)

/-- An operand with an operator before it is a whole expression. -/
theorem accepts_assignment_of_unary (hx : Accepts line Stops (unary inner) ks Q) :
    Accepts line Stops (assignment inner) ks Q := by
  refine accepts_assignment ?_ ?_
  · intro _ h
    exact h.ne (by decide)
  · refine accepts_conditional ?_ ?_
    · intro _ h
      exact h.ne (by decide)
    · exact accepts_binary (fun _ h => h.noInfix _) hx

/-- What begins an expression is a whole one, if an end of expressions follows. -/
theorem accepts_assignment_of_primary
    (hk : ∀ rest, Stops rest → unaryOp? (nextKind (ks ++ rest)) = none)
    (hx : Accepts line Anything (primary inner) ks Q) :
    Accepts line Stops (assignment inner) ks Q := by
  refine accepts_assignment_of_unary ?_
  refine accepts_unary hk ?_
  refine accepts_operation ?_ ?_
  · intro _ h
    exact h.noPostfix
  · refine hx.mono ?_ ?_
    · intro _ _
      exact trivial
    · intro _ h
      exact h

/-- What is the same as a name is a name. -/
theorem SameExpr.eq_ident {name : Ident} {a : Expr} (h : SameExpr (.ident name) a) :
    ∃ m : Ident, a = .ident m ∧ m.withoutSpan = name.withoutSpan := by
  cases a with
  | ident m => exact ⟨m, rfl, by simpa [SameExpr, Expr.withoutSpans] using h⟩
  | _ => simp [SameExpr, Expr.withoutSpans] at h

/-- An assignment of an expression in parentheses. -/
theorem accepts_assignment_of (hi : inner.Accepts line n) (name : Ident) {e : Expr}
    (valid : e.Valid) (le : e.nesting + 2 ≤ n) (span : Span) :
    Accepts line Stops (assignment inner) (.name name.name :: .symbol .assign :: e.rendering)
      (SameExpr (.assign name e span)) := by
  have target : Accepts line (fun rest => nextKind rest = .symbol .assign) (conditional inner)
      [.name name.name] (SameExpr (.ident name)) := by
    refine accepts_conditional (fun rest h => by simp [h]) (accepts_binary (fun rest h => ?_)
      (accepts_unary (fun _ _ => rfl) (accepts_operation (fun rest h => ?_)
        ((accepts_atom (e := .ident name)
          fun sp => ⟨.ident ⟨name.name, sp⟩, rfl, rfl⟩).mono (fun _ _ => trivial) fun _ h => h))))
    · exact noInfix_of_none (by rw [h]; rfl) 0
    · simp [NoPostfix, h]
  refine .look false (fun _ _ _ hs => hs.not_atArrow) (.ite_neg (by simp) (.one target
    (fun _ _ => rfl) fun a same => .eat_is ?_))
  obtain ⟨m, rfl, sameName⟩ := same.eq_ident
  refine .last (hi.expression e valid le) (fun _ h => h) fun v sameValue => .pure ?_
  rw [SameExpr] at sameValue ⊢
  rw [Expr.withoutSpans, sameName, sameValue, Expr.withoutSpans]

/-- An operator between two expressions in parentheses is a whole expression. -/
theorem accepts_assignment_of_infix (hi : inner.Accepts line n) (op : InfixOp) {l r : Expr}
    (hl : l.Valid) (hr : r.Valid) (le : max (l.nesting + 1) (r.nesting + 1) ≤ n)
    (hQ : ∀ l' r', SameExpr l l' → SameExpr r r' → Q (op.apply l' r')) :
    Accepts line Stops (assignment inner) (l.rendering ++ .symbol op.symbol :: r.rendering) Q := by
  obtain ⟨lel, ler⟩ := Nat.max_le.mp le
  have chain := (accepts_binary_of hi op hl hr lel ler).mono (fun _ h => h)
    fun _ ⟨l', r', ha, samel, samer⟩ => ha ▸ hQ l' r' samel samer
  exact accepts_assignment (fun _ h => h.ne (by decide))
    (accepts_conditional (fun _ h => h.ne (by decide)) chain)

/-- A test between operators and two whole expressions. -/
theorem accepts_conditional_of (hi : inner.Accepts line n) {t x y : Expr} (ht : t.Valid)
    (hx : x.Valid) (hy : y.Valid) (leTest : t.nesting + 1 ≤ n) (lex : x.nesting + 2 ≤ n)
    (ley : y.nesting + 2 ≤ n) (span : Span) :
    Accepts line Stops (assignment inner)
      (t.rendering ++ .symbol .question :: (x.rendering ++ .symbol .colon :: y.rendering))
      (SameExpr (.conditional t x y span)) := by
  refine accepts_assignment (fun _ h => h.ne (by decide)) ?_
  have test : Accepts line (fun rest => nextKind rest = .symbol .question) (binary inner 0)
      t.rendering (SameExpr t) := by
    refine accepts_binary (fun rest h => noInfix_of_none (by rw [h]; rfl) 0) ?_
    exact (accepts_operand hi ht leTest).mono (fun rest h => by simp [NoPostfix, h]) fun _ h => h
  refine .bind test (fun _ _ => rfl) fun t' sameTest => .eat_is ?_
  · refine .bind (hi.expression x hx lex) (fun _ _ => stops_cons (by decide)) fun x' samex =>
      .expect (.last (hi.expression y hy ley) (fun _ h => h) fun y' samey => .pure ?_)
    rw [SameExpr] at *
    rw [Expr.withoutSpans, sameTest, samex, samey, Expr.withoutSpans]

/-- An operation on an expression in parentheses is a whole expression. -/
theorem accepts_assignment_of_operation (hi : inner.Accepts line n) {e : Expr} (valid : e.Valid)
    (le : e.nesting + 1 ≤ n) {ks : List Kind} {Q : Expr → Prop}
    (hf : ∀ a fuel, SameExpr e a → Accepts line Stops (postfixLoop inner (fuel + 1) a) ks Q) :
    Accepts line Stops (assignment inner) (e.rendering ++ ks) Q := by
  refine accepts_assignment_of_unary (accepts_unary (fun _ _ => rfl) (.rounds fun fuel enough =>
    .bind (accepts_primary hi valid le) (fun _ _ => trivial) fun a same => ?_))
  obtain ⟨fuel, rfl⟩ : ∃ k, fuel = k + 1 := ⟨fuel - 1, by omega⟩
  exact hf a fuel same

/-- A call of what is in parentheses. -/
theorem accepts_call (hi : inner.Accepts line n) {f : Expr} {es : List Expr} (valid : f.Valid)
    (validArgs : Expr.AllValid es) (le : f.nesting + 1 ≤ n) (leArgs : Expr.itemsNesting es ≤ n)
    (span : Span) :
    Accepts line Stops (assignment inner) (f.rendering ++ parens (Expr.renderItems es))
      (SameExpr (.call f es span)) := by
  refine accepts_assignment_of_operation hi valid le fun a fuel same => .eat_is ?_
  refine .last (accepts_commaList hi (by decide) validArgs leArgs) (fun _ _ => trivial)
    fun as sameArgs => .seen fun stop => accepts_postfixLoop (fun _ h => h.noPostfix) fuel _ ?_
  rw [SameExpr] at *
  rw [Expr.withoutSpans, same, sameArgs, Expr.withoutSpans]

/-- An access by a key. -/
theorem accepts_index (hi : inner.Accepts line n) {o k : Expr} (valid : o.Valid)
    (validKey : k.Valid) (le : o.nesting + 1 ≤ n) (leKey : k.nesting + 2 ≤ n) (span : Span) :
    Accepts line Stops (assignment inner) (o.rendering ++ brackets k.rendering)
      (SameExpr (.index o k span)) := by
  refine accepts_assignment_of_operation hi valid le fun a fuel same =>
    .eat_ne (by simp [brackets]) (.eat_is ?_)
  refine .bind (hi.expression k validKey leKey) (fun _ _ => stops_cons (by decide))
    fun k' sameKey => .expect (.seen fun stop =>
      accepts_postfixLoop (fun _ h => h.noPostfix) fuel _ ?_)
  rw [SameExpr] at *
  rw [Expr.withoutSpans, same, sameKey, Expr.withoutSpans]

/-- An access by a name. -/
theorem accepts_member (hi : inner.Accepts line n) {o : Expr} (valid : o.Valid)
    (le : o.nesting + 1 ≤ n) (name : Ident) (span : Span) :
    Accepts line Stops (assignment inner) (o.rendering ++ [.symbol .dot, .name name.name])
      (SameExpr (.member o name span)) := by
  refine accepts_assignment_of_operation hi valid le fun a fuel same =>
    .eat_ne (by simp) (.eat_ne (by simp) (.eat_is (.identifier fun m hm =>
      accepts_postfixLoop (fun _ h => h.noPostfix) fuel _ ?_)))
  rw [SameExpr] at *
  rw [Expr.withoutSpans, same, Expr.withoutSpans, Ident.withoutSpan, hm]
  rfl

/-- What stands between an expression's parentheses is read back. -/
theorem accepts_inside (hi : inner.Accepts line n) {e : Expr} (valid : e.Valid)
    (le : e.nesting ≤ n) : Accepts line Stops (assignment inner) e.inside (SameExpr e) := by
  -- most kinds of expressions without parts are single tokens
  have atom {k : Kind} (h : ∀ span, ∃ a, atom? ⟨k, span⟩ = some a ∧ SameExpr e a)
      (hk : unaryOp? k = none) : Accepts line Stops (assignment inner) [k] (SameExpr e) :=
    accepts_assignment_of_primary (fun _ _ => hk) (accepts_atom h)
  cases e with
  | number | string | null | undefined | ident => exact atom (fun _ => ⟨_, rfl, rfl⟩) rfl
  | bool b => cases b <;> exact atom (fun _ => ⟨_, rfl, rfl⟩) rfl
  | array es span =>
    exact accepts_assignment_of_primary (fun _ _ => rfl) (accepts_array hi span valid le)
  | function f =>
    refine accepts_assignment_of_primary (fun _ _ => ?_) (accepts_function hi valid le)
    obtain ⟨name, params, body, span⟩ := f
    rfl
  | assign name e span => exact accepts_assignment_of hi name (e := e) valid le span
  | unary op e span =>
    exact accepts_assignment_of_unary (accepts_unary_of hi op (e := e) valid le span)
  | binary op l r span =>
    refine accepts_assignment_of_infix hi (.binary op) valid.1 valid.2 le fun l' r' samel samer => ?_
    rw [SameExpr] at *
    rw [InfixOp.apply, Expr.withoutSpans, samel, samer, Expr.withoutSpans]
  | logical op l r span =>
    refine accepts_assignment_of_infix hi (.logical op) valid.1 valid.2 le fun l' r' samel samer => ?_
    rw [SameExpr] at *
    rw [InfixOp.apply, Expr.withoutSpans, samel, samer, Expr.withoutSpans]
  | conditional t x y span =>
    obtain ⟨leTest, le⟩ := Nat.max_le.mp le
    obtain ⟨lex, ley⟩ := Nat.max_le.mp le
    exact accepts_conditional_of hi valid.1 valid.2.1 valid.2.2 leTest lex ley span
  | call f es span =>
    obtain ⟨lef, leArgs⟩ := Nat.max_le.mp le
    exact accepts_call hi valid.1 valid.2 lef leArgs span
  | index o k span =>
    obtain ⟨leo, lek⟩ := Nat.max_le.mp le
    exact accepts_index hi valid.1 valid.2 leo lek span
  | member o name span => exact accepts_member hi (o := o) valid le name span

/-- A whole expression in its parentheses is read back. -/
theorem accepts_rendering (hi : inner.Accepts line n) {e : Expr} (valid : e.Valid)
    (le : e.nesting + 1 ≤ n) :
    Accepts line Stops (assignment inner) e.rendering (SameExpr e) :=
  accepts_assignment_of_primary (fun _ _ => rfl) (accepts_primary hi valid le)

end AmbScript.Parser
