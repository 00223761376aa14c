import AmbScript.Proofs.Parser.Reading

/-!
# Rules for expressions and the grammar

Each rule for expressions derives what it gives back, if the rules of the level below do.

* `Level.Derives` — the rules of a level derive what they give back.
* `respects_block`, `respects_functionRest` — blocks and functions.
* `respects_assignment` — whole expressions.

The grammar is layered: a chain of operators of one precedence is made of chains of the next higher
one. The rule is not: it is one loop with a threshold. `Joins` connects the two. A loop with
threshold `least` derives a chain of the layer `tiers - least`, and it stops where no operator of
that layer or of a tighter one follows, which is what the loop above it needs to go on.
-/

namespace AmbScript.Parser

/-- Where nothing is reported, what the rules of a level give back is what the tokens they read
spell. -/
structure Level.Derives (lenient : Bool) (text : List Token) (level : Level) : Prop where
  expression : Respects text level.expression fun p e q =>
    (Phrase.expr .whole e).Derives lenient p q
  statements : ∀ pl, Respects text (level.statements pl) fun p ss q =>
    (Phrase.stmts pl ss).Derives lenient p q

/-- To refuse is to report, so nothing is to be shown. -/
theorem respects_refuse {α : Type} {text : List Token} {R : Place → α → Place → Prop} :
    Respects text refuse R := .failing respects_report

/-- Beyond the limit nothing is given back. -/
theorem Level.derives_refused {lenient : Bool} {text : List Token} :
    Level.refused.Derives lenient text := ⟨respects_refuse, fun _ => respects_refuse⟩

/-- A level that derives what it reads in a text does so in what is left of it. -/
theorem Level.Derives.shorter {lenient : Bool} {text text' : List Token} {level : Level}
    (h : level.Derives lenient text) (le : text' <:+ text) : level.Derives lenient text' := by
  refine ⟨h.expression.shorter le, ?_⟩
  intro pl
  exact (h.statements pl).shorter le

variable {lenient : Bool} {text : List Token} {inner : Level}

-- ---------------------------------------------------------------------------
-- Blocks and functions
-- ---------------------------------------------------------------------------

/-- The statements between braces. -/
theorem respects_block (hi : inner.Derives lenient text) (pl : Placement) :
    Respects text (block inner pl) fun p b q => (Phrase.block pl b).Derives lenient p q := by
  refine .bind respects_currentSpan fun start => .bind (respects_expect (by decide)) fun _ =>
    .bind (hi.statements pl) fun ss => .bind (respects_expect (by decide)) fun _ =>
    .bind respects_previousSpan fun stop => .pure ?_
  rintro q _ ⟨rfl, rfl⟩ r closing m statements p opening _ ⟨rfl, spans⟩
  rw [spans _ _ opening]
  exact .block opening statements closing

/-- A repeated name is reported. What is read behind `done` are more names. -/
theorem respects_paramLoop (fuel : Nat) (done : List Ident) :
    Respects text (paramLoop fuel done) fun p names q =>
      p.left.length < fuel → (done.map (·.name)).Nodup →
        ∃ more, names = done.reverse ++ more ∧ Names more p q ∧ (names.map (·.name)).Nodup := by
  -- by induction on the fuel, the names before this one reversed in the accumulator
  induction fuel generalizing done with
  | zero => exact .pure fun p h => absurd h (Nat.not_lt_zero _)
  | succ fuel ih =>
    refine .bind respects_bindingName fun param => ?_
    have rest : Respects text
        (do if ← eat .comma then paramLoop fuel (param :: done) else return (param :: done).reverse)
        fun m names q => ∀ p, p.Binds param m → p.left.length < fuel + 1 →
          ((param :: done).map (·.name)).Nodup →
          ∃ more, names = done.reverse ++ more ∧ Names more p q ∧ (names.map (·.name)).Nodup := by
      refine .bind (respects_eat (by decide)) fun b => .ite (fun eaten => ?_) fun last => .pure ?_
      · refine (ih (param :: done)).mono fun r names q h m comma p binds fuel distinct => ?_
        obtain ⟨more, rfl, read, all⟩ := h (by grind) distinct
        refine ⟨param :: more, by simp, .more binds (comma.1 eaten) read, all⟩
      · intro q m eat p binds fuel distinct
        obtain ⟨rfl, -⟩ := eat.2 last
        refine ⟨[param], by simp, .one binds, ?_⟩
        rw [List.map_reverse]
        exact (List.reverse_perm _).symm.nodup distinct
    -- a repeated name is reported, and a reported text derives nothing
    refine .ite (fun _ => .bind respects_reportAt fun _ => rest.mono ?_) fun fresh => rest.mono ?_
    · exact fun _ _ _ _ _ h => h.elim
    · intro m names q h p binds fuel distinct
      refine h p binds fuel ?_
      rw [List.map_cons, List.nodup_cons]
      refine ⟨?_, distinct⟩
      simpa using fresh

/-- Names up to the closing parenthesis, or none. -/
theorem respects_paramList : Respects text paramList fun p names q => Params names p q := by
  refine .bind respects_check fun closes => .ite (fun _ => .pure ?_) fun _ => ?_
  · rintro q p ⟨rfl, -⟩
    exact .none q
  · refine .bind respects_rounds fun n => (respects_paramLoop n []).mono ?_
    rintro p names q h _ ⟨rfl, fuel⟩ _ ⟨rfl, -⟩
    obtain ⟨more, rfl, read, distinct⟩ := h fuel List.nodup_nil
    exact .some read distinct

/-- The parameters and the body of a function, whose span begins at `start`. -/
theorem respects_functionRest (hi : inner.Derives lenient text) (name : Option Ident)
    (start : Span) :
    Respects text (functionRest inner name start) fun p f q =>
      (Phrase.function start name f).Derives lenient p q := by
  refine .bind (respects_expect (by decide)) fun _ => .bind respects_paramList fun params =>
    .bind (respects_expect (by decide)) fun _ => .bind (respects_block hi .function) fun body =>
    .bind respects_previousSpan fun stop => .pure ?_
  rintro q _ ⟨rfl, rfl⟩ r body s closing m params p opening
  exact .function opening params closing body

-- ---------------------------------------------------------------------------
-- Lists
-- ---------------------------------------------------------------------------

/-- Items behind those that are `done`, with a comma behind each but the last. -/
theorem respects_commaLoop (hi : inner.Derives lenient text) (close : Symbol) (fuel : Nat)
    (done : List Expr) :
    Respects text (commaLoop inner close fuel done) fun p es q =>
      ∃ more, es = done.reverse ++ more ∧ (Phrase.items more).Derives lenient p q := by
  induction fuel generalizing done with
  | zero => exact .pure fun p => ⟨[], by simp, .noItems p⟩
  | succ fuel ih =>
    refine .bind respects_check fun closes => .ite (fun _ => .pure ?_) fun _ => ?_
    · rintro q p ⟨rfl, -⟩
      exact ⟨[], by simp, .noItems q⟩
    · refine .bind hi.expression fun item => .bind (respects_eat (by decide)) fun b =>
        .ite (fun eaten => (ih (item :: done)).mono ?_) fun last => .pure ?_
      · rintro r es q ⟨more, rfl, read⟩ m comma p read' _ ⟨rfl, -⟩
        exact ⟨item :: more, by simp, .moreItems read' (comma.1 eaten) read⟩
      · rintro q m comma p read _ ⟨rfl, -⟩
        obtain ⟨rfl, -⟩ := comma.2 last
        exact ⟨[item], by simp, .lastItem read⟩

/-- Items and the mark that closes the list. -/
theorem respects_commaList (hi : inner.Derives lenient text) {close : Symbol}
    (hc : close ≠ .eof) :
    Respects text (commaList inner close) fun p es q =>
      ∃ m, (Phrase.items es).Derives lenient p m ∧ m.Reads (.symbol close) q := by
  refine .bind respects_rounds fun n => .bind (respects_commaLoop hi close n []) fun items =>
    .bind (respects_expect hc) fun _ => .pure ?_
  rintro q m closing p ⟨more, rfl, read⟩ _ ⟨rfl, -⟩
  exact ⟨m, read, closing⟩

-- ---------------------------------------------------------------------------
-- Expressions without loose ends, calls and access
-- ---------------------------------------------------------------------------

/-- The end of the text is not an expression. -/
theorem atom?_eof {t : Token} (h : t.kind = .symbol .eof) : atom? t = none := by
  simp [atom?, h]

/-- A name is read where one stands; otherwise nothing is. -/
theorem respects_functionName? :
    Respects text functionName? fun p name q =>
      (∀ n, name = some n → p.Binds n q) ∧ (name = none → q = p) := by
  refine .bind respects_currentKind fun k => .ite (fun _ => ?_) fun _ => .pure ?_
  · refine .bind respects_bindingName fun name => .pure ?_
    rintro q p binds _ ⟨rfl, -⟩
    exact ⟨fun n h => Option.some.inj h ▸ binds, by simp⟩
  · rintro q _ ⟨rfl, -⟩
    exact ⟨by simp, fun _ => rfl⟩

/-- What begins an expression: a token, or something between brackets, parentheses or braces. -/
theorem respects_primary (hi : inner.Derives lenient text) :
    Respects text (primary inner) fun p e q => (Phrase.expr .primary e).Derives lenient p q := by
  refine .bind respects_current fun token => ?_
  cases atom : atom? token with
  | some e =>
    refine .bind respects_advance fun t => .pure ?_
    rintro q p ⟨same, read⟩ _ ⟨rfl, kind, spans⟩
    have here : p.kind ≠ .symbol .eof := fun h => by simp [atom?_eof (kind.trans h)] at atom
    obtain ⟨read, -⟩ := read here
    rw [same, ← kind] at read
    have : token = ⟨token.kind, q.previous⟩ := by rw [← spans _ _ read]
    exact .atom read (this ▸ atom)
  | none =>
    refine .bind (respects_eat (by decide)) fun bracket => .ite (fun eaten => ?_) fun _ =>
      .bind (respects_eat (by decide)) fun paren => .ite (fun eaten => ?_) fun _ =>
      .bind (respects_eat (by decide)) fun function => .ite (fun eaten => ?_) fun _ =>
      .bind respects_check fun cut => .ite (fun _ => .failing respects_report) fun _ =>
        .failing respects_report
    -- an array
    · refine .bind (respects_commaList hi (by decide)) fun items =>
        .bind respects_previousSpan fun stop => .pure ?_
      rintro q _ ⟨rfl, rfl⟩ m ⟨r, items, closing⟩ p opening _ ⟨rfl, -, spans⟩
      rw [spans _ _ (opening.1 eaten)]
      exact .array (opening.1 eaten) items closing
    -- an expression in parentheses
    · refine .bind hi.expression fun e => .bind (respects_expect (by decide)) fun _ => .pure ?_
      rintro q r closing m read p opening p' bracket _ ⟨rfl, -⟩
      obtain ⟨rfl, -⟩ := bracket.2 ‹_›
      exact .parens (opening.1 eaten) read closing
    · refine .bind respects_functionName? fun name =>
        .bind (respects_functionRest hi name token.span) fun f => .pure ?_
      rintro q r rest m ⟨named, anonymous⟩ p keyword p₁ paren p₂ bracket _ ⟨rfl, -, spans⟩
      obtain ⟨rfl, -⟩ := paren.2 ‹_›
      obtain ⟨rfl, -⟩ := bracket.2 ‹_›
      have keyword := keyword.1 eaten
      rw [spans _ _ keyword] at rest
      cases name with
      | none =>
        obtain rfl := anonymous rfl
        exact .anonymousFunction keyword rest
      | some name => exact .namedFunction keyword (named name rfl) rest

/-- Calls and accesses behind an expression that is derived already. -/
theorem respects_postfixLoop (hi : inner.Derives lenient text) (fuel : Nat) (e : Expr) :
    Respects text (postfixLoop inner fuel e) fun m e' q =>
      ∀ p, (Phrase.expr .operation e).Derives lenient p m →
        (Phrase.expr .operation e').Derives lenient p q := by
  induction fuel generalizing e with
  | zero => exact .pure fun p _ h => h
  | succ fuel ih =>
    refine .bind (respects_eat (by decide)) fun paren => .ite (fun eaten => ?_) fun noCall =>
      .bind (respects_eat (by decide)) fun bracket => .ite (fun eaten => ?_) fun noIndex =>
      .bind (respects_eat (by decide)) fun dot => .ite (fun eaten => ?_) fun noMember => .pure ?_
    -- a call
    · refine .bind (respects_commaList hi (by decide)) fun args =>
        .bind respects_previousSpan fun stop => (ih _).mono ?_
      rintro _ e' q h r ⟨rfl, rfl⟩ m ⟨s, args, closing⟩ l opening p callee
      exact h p (.call callee (opening.1 eaten) args closing)
    -- an access by a key
    · refine .bind hi.expression fun key => .bind (respects_expect (by decide)) fun _ =>
        .bind respects_previousSpan fun stop => (ih _).mono ?_
      rintro _ e' q h r ⟨rfl, rfl⟩ s closing m key l opening l' paren p object
      obtain ⟨rfl, -⟩ := paren.2 noCall
      exact h p (.index object (opening.1 eaten) key closing)
    -- an access by a name
    · refine .bind respects_identifier fun name => (ih _).mono ?_
      rintro r e' q h m ⟨property, span⟩ l opening l' bracket l'' paren p object
      obtain ⟨rfl, -⟩ := bracket.2 noIndex
      obtain ⟨rfl, -⟩ := paren.2 noCall
      have : name = ⟨name.name, r.previous⟩ := by rw [← span]
      rw [this] at h
      exact h p (.member object (opening.1 eaten) property)
    · rintro q l dot l' bracket l'' paren p read
      obtain ⟨rfl, -⟩ := dot.2 noMember
      obtain ⟨rfl, -⟩ := bracket.2 noIndex
      obtain ⟨rfl, -⟩ := paren.2 noCall
      exact read

/-- An expression with what stands behind it. -/
theorem respects_operation (hi : inner.Derives lenient text) :
    Respects text (operation inner)
      fun p e q => (Phrase.expr .operation e).Derives lenient p q := by
  refine .bind respects_rounds fun n => .bind (respects_primary hi) fun e =>
    (respects_postfixLoop hi n e).mono ?_
  rintro m e' q h p read _ ⟨rfl, -⟩
  exact h _ (.looser rfl read)

-- ---------------------------------------------------------------------------
-- Operators
-- ---------------------------------------------------------------------------

/-- The operators that are read apply to whatever operand follows them. -/
theorem respects_unaryOps (lenient : Bool) (fuel : Nat) (done : List (UnaryOp × Span)) :
    Respects text (unaryOps fuel done) fun p ops q =>
      ∃ more, ops = more ++ done ∧ ∀ e r, (Phrase.expr (.tier 0) e).Derives lenient q r →
        (Phrase.expr (.tier 0) (more.foldl applyUnary e)).Derives lenient p r := by
  -- by induction on the fuel; the operators read later are applied first
  induction fuel generalizing done with
  | zero => exact .pure fun p => ⟨[], rfl, fun _ _ h => h⟩
  | succ fuel ih =>
    refine .bind respects_currentKind fun k => ?_
    cases isOp : unaryOp? k with
    | none =>
      refine .pure ?_
      rintro q p ⟨rfl, -⟩
      exact ⟨[], rfl, fun _ _ h => h⟩
    | some op =>
      have hk : k ≠ .symbol .eof := fun h => by simp [h, unaryOp?] at isOp
      refine .bind (respects_advance_of hk) fun t => (ih _).mono ?_
      rintro m ops q ⟨more, rfl, h⟩ p read _ ⟨rfl, here⟩
      obtain ⟨read, -, span⟩ := read here.symm
      refine ⟨more ++ [(op, t.span)], by simp, fun e r operand => ?_⟩
      rw [List.foldl_append, List.foldl_cons, List.foldl_nil, applyUnary, span]
      exact .unary read isOp (h e r operand)

/-- Operators and what they stand before are of the tightest layer. -/
theorem respects_unary (hi : inner.Derives lenient text) :
    Respects text (unary inner) fun p e q => (Phrase.expr (.tier 0) e).Derives lenient p q := by
  refine .bind respects_rounds fun n => .bind (respects_unaryOps lenient n []) fun ops =>
    .bind (respects_operation hi) fun e => .pure ?_
  rintro q m read p ⟨more, rfl, h⟩ _ ⟨rfl, -⟩
  rw [List.append_nil]
  exact h e q (.looser rfl read)

/-- A chain of fewer precedences is one of more. -/
theorem derives_looser {m n : Nat} {e : Expr} {p q : Place} (hLess : m ≤ n)
    (h : (Phrase.expr (.tier m) e).Derives lenient p q) :
    (Phrase.expr (.tier n) e).Derives lenient p q := by
  induction hLess with
  | refl => exact h
  | step _ ih => exact .looser rfl ih

/-- Between the two places stands a chain of the operators that reach the threshold, and behind it
none of them. -/
def Joins (lenient : Bool) (least : Nat) (p : Place) (e : Expr) (q : Place) : Prop :=
  (Phrase.expr (.tier (InfixOp.tiers - least)) e).Derives lenient p q ∧
    ∀ op k, InfixOp.ofKind? q.kind = some (op, k) → k < least

/-- Behind `left` the loop reads all operators that reach the threshold, if `left` can be the left
operand of the first of them. Every round reads an operator, so there are rounds enough. -/
theorem respects_climbLoop {operand : Nat → Parser Expr} {least : Nat}
    (hOperand : ∀ k, least ≤ k → k < InfixOp.tiers →
      Respects text (operand (k + 1)) (Joins lenient (k + 1)))
    (fuel : Nat) (left : Expr) :
    Respects text (climbLoop operand least fuel left) fun m e q => m.left.length < fuel →
      ∀ p, (Phrase.expr (.tier (InfixOp.tiers - least)) left).Derives lenient p m →
        (∀ op k, InfixOp.ofKind? m.kind = some (op, k) → least ≤ k →
          (Phrase.expr (.tier (InfixOp.tiers - k)) left).Derives lenient p m) →
        Joins lenient least p e q := by
  induction fuel generalizing left with
  | zero =>
    refine .pure ?_
    intro m hFuel
    omega
  | succ fuel ih =>
    refine .bind respects_currentKind fun kind => ?_
    cases isOp : InfixOp.ofKind? kind with
    | none =>
      refine .pure ?_
      rintro q m ⟨rfl, rfl⟩ _ p read _
      refine ⟨read, fun op k next => ?_⟩
      rw [isOp] at next
      cases next
    | some found =>
      obtain ⟨op, precedence⟩ := found
      refine .ite (fun below => .pure ?_) fun above => ?_
      · rintro q m ⟨rfl, rfl⟩ _ p read _
        refine ⟨read, fun op' k next => ?_⟩
        rw [isOp] at next
        cases next
        exact below
      · have reaches : least ≤ precedence := by omega
        have inTiers : precedence < InfixOp.tiers := InfixOp.lt_tiers isOp
        have notEnd : kind ≠ .symbol .eof := by
          rintro rfl
          cases isOp
        refine .bind (respects_advance_of notEnd) fun t =>
          .bind (hOperand precedence reaches inTiers) fun right => (ih _).mono ?_
        rintro r e q next s ⟨operand, stops⟩ m advanced _ ⟨rfl, rfl⟩ enough p _ asOperand
        obtain ⟨token, -⟩ := advanced rfl
        have shorter := token.length
        have later := operand.length_le
        -- the layers are counted from the tightest one, the thresholds from the loosest
        have tier : InfixOp.tiers - precedence = InfixOp.tiers - 1 - precedence + 1 := by omega
        have joined : (Phrase.expr (.tier (InfixOp.tiers - precedence)) (op.apply left right)).Derives
            lenient p r := by
          have leftOperand := asOperand op precedence isOp reaches
          rw [tier] at leftOperand ⊢
          refine .joined leftOperand token ?_ ?_
          · rw [show InfixOp.tiers - 1 - (InfixOp.tiers - 1 - precedence) = precedence by omega]
            exact InfixOp.ofTier?_of_ofKind? isOp
          · rwa [show InfixOp.tiers - 1 - precedence = InfixOp.tiers - (precedence + 1) by omega]
        refine next (by omega) p (derives_looser (by omega) joined) fun op' k nextOp _ => ?_
        -- the right operand ends at an operator that binds no tighter than this one
        have := stops op' k nextOp
        exact derives_looser (by omega) joined

/-- A chain of the operators that reach the threshold, by induction from the highest threshold
down. -/
theorem respects_binary (hi : inner.Derives lenient text) (least : Nat) :
    Respects text (binary inner least) (Joins lenient least) := by
  induction least using InfixOp.threshold_induction with
  | step least ih =>
    rw [binary_eq]
    refine .bind (respects_unary hi) fun left => .bind respects_rounds fun rounds =>
      (respects_climbLoop ih rounds left).mono ?_
    rintro m e q h _ ⟨rfl, enough⟩ p read
    exact h enough p (derives_looser (Nat.zero_le _) read) fun _ _ _ _ =>
      derives_looser (Nat.zero_le _) read

/-- A chain of any operators, and two results behind a question mark. -/
theorem respects_conditional (hi : inner.Derives lenient text) :
    Respects text (conditional inner) fun p e q =>
      (Phrase.expr .conditional e).Derives lenient p q := by
  refine .bind (respects_binary hi 0) fun test =>
    .bind (respects_eat (by decide)) fun question => .ite (fun eaten => ?_) fun plain => .pure ?_
  · refine .bind hi.expression fun consequent => .bind (respects_expect (by decide)) fun _ =>
      .bind hi.expression fun alternate => .pure ?_
    rintro q d alternate c colon b consequent a question p ⟨test, -⟩
    exact .conditional test (question.1 eaten) consequent colon alternate
  · rintro q a question p ⟨test, -⟩
    obtain ⟨rfl, -⟩ := question.2 plain
    exact .looser rfl test

-- ---------------------------------------------------------------------------
-- Arrow functions and whole expressions
-- ---------------------------------------------------------------------------

/-- A block, or an expression that is returned. -/
theorem respects_arrowBody (hi : inner.Derives lenient text) :
    Respects text (arrowBody inner) fun p b q => (Phrase.body b).Derives lenient p q := by
  refine .bind respects_check fun brace => .ite (fun _ => ?_) fun _ => ?_
  · refine (respects_block hi .function).mono ?_
    rintro p b q read _ ⟨rfl, -⟩
    exact .blockBody read
  · refine .bind hi.expression fun e => .pure ?_
    rintro q p read _ ⟨rfl, -⟩
    exact .exprBody read

/-- One name or names in parentheses, the arrow and a body. -/
theorem respects_arrowFunction (hi : inner.Derives lenient text) :
    Respects text (arrowFunction inner)
      fun p e q => (Phrase.expr .whole e).Derives lenient p q := by
  refine .bind respects_currentSpan fun start => ?_
  -- the parameters are one bare name or a list in parentheses, the rest is the same for both
  refine .bind (R := fun p names q =>
      (∃ name, names = [name] ∧ p.Binds name q) ∨
        ∃ m r, p.Reads (.symbol .openParen) m ∧ Params names m r ∧
          r.Reads (.symbol .closeParen) q) ?_ fun names => ?_
  · refine .bind (respects_eat (by decide)) fun paren => .ite (fun eaten => ?_) fun bare => ?_
    · refine .bind respects_paramList fun names => .bind (respects_expect (by decide)) fun _ =>
        .pure ?_
      intro q r closing m params p opening
      exact .inr ⟨m, r, opening.1 eaten, params, closing⟩
    · refine .bind respects_bindingName fun name => .pure ?_
      intro q m binds p opening
      obtain ⟨rfl, -⟩ := opening.2 bare
      exact .inl ⟨name, rfl, binds⟩
  · refine .bind (respects_expect (by decide)) fun _ => .bind (respects_arrowBody hi) fun body =>
      .bind respects_previousSpan fun stop => .pure ?_
    rintro q _ ⟨rfl, rfl⟩ t body s arrow p params _ ⟨rfl, spans⟩
    rcases params with ⟨name, rfl, binds⟩ | ⟨m, r, opening, params, closing⟩
    · rw [spans _ _ binds.1]
      exact .bareArrow binds arrow body
    · rw [spans _ _ opening]
      exact .arrow opening params closing arrow body

/-- An expression with a name is that name. -/
theorem eq_ident_of_ident? {e : Expr} {name : Ident} (h : e.ident? = some name) :
    e = .ident name := by
  cases e with
  | ident n => exact congrArg Expr.ident (Option.some.inj h)
  | _ => cases h

/-- The rule for a whole expression derives what it gives back. -/
theorem respects_assignment (hi : inner.Derives lenient text) :
    Respects text (assignment inner) fun p e q => (Phrase.expr .whole e).Derives lenient p q := by
  refine .bind (R := fun p _ q => q = p) (.look fun _ _ _ => rfl) fun atArrow =>
    .ite (fun _ => ?_) fun _ => ?_
  · refine (respects_arrowFunction hi).mono ?_
    rintro p e q read _ rfl
    exact read
  · refine .bind (respects_conditional hi) fun target =>
      .bind (respects_eat (by decide)) fun mark => .ite (fun eaten => ?_) fun plain => .pure ?_
    -- what is assigned to must be a name, anything else is reported
    · cases isName : target.ident? with
      | none => exact .failing respects_reportAt
      | some name =>
        obtain rfl := eq_ident_of_ident? isName
        refine .bind hi.expression fun value => .pure ?_
        rintro q r value m mark p target _ rfl
        exact .assign target (mark.1 eaten) value
    · rintro q m mark p target _ rfl
      obtain ⟨rfl, -⟩ := mark.2 plain
      exact .looser rfl target

end AmbScript.Parser
