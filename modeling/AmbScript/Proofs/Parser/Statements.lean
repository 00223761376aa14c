import AmbScript.Proofs.Parser.Expressions

/-!
# Rules for statements and the grammar

Each rule for statements derives what it gives back, if the rules of the level below do.

* `Place.LacksSeparator` — a `for` header goes on behind its `let` without a semicolon. Only where
  one stands is the lenient grammar needed.
* `respects_statement` — single statements.
* `respects_statements` — all statements up to a closing brace or the end of the text.

A statement is derived under the condition that its first token is the one by which its rule was
chosen. The rule itself does not look at that token again.
-/

namespace AmbScript.Parser

/-- A `for` header stands here that takes a line break for the semicolon behind its `let`. What its
parts are is read in either grammar. -/
def Place.LacksSeparator (p : Place) : Prop :=
  ∃ lenient a b c q u v name init test update,
    p.Reads (.symbol .forLoop) a ∧ a.Reads (.symbol .openParen) b ∧ b.Reads (.symbol .letDecl) c ∧
    (Phrase.binding name init).Derives lenient c q ∧ q.kind ≠ .symbol .semicolon ∧ q.MayEnd ∧
    (Phrase.optional .semicolon test).Derives lenient q u ∧
    (Phrase.optional .closeParen update).Derives lenient u v

/-- In `text`, only a `lenient` grammar meets a `for` header without its first separator. -/
def Separated (lenient : Bool) (text : List Token) : Prop :=
  ∀ p : Place, p.left <:+ text → p.LacksSeparator → lenient = true

variable {lenient : Bool} {text : List Token} {inner : Level}

-- ---------------------------------------------------------------------------
-- Declarations
-- ---------------------------------------------------------------------------

/-- A name and the value behind its equals sign. -/
theorem respects_declarationRest (hi : inner.Derives lenient text) :
    Respects text (declarationRest inner) fun p d q =>
      (Phrase.binding d.1 d.2).Derives lenient p q := by
  refine .bind respects_bindingName fun name => .bind (respects_eat (by decide)) fun mark =>
    .ite (fun eaten => ?_) fun _ => .failing respects_report
  refine .bind hi.expression fun init => .pure ?_
  intro q r init m mark p binds
  exact .binding binds (mark.1 eaten) init

/-- A declaration behind whatever keyword stands before it. -/
theorem respects_declaration (hi : inner.Derives lenient text) {x : Symbol} (hx : x ≠ .eof) :
    Respects text (declaration inner) fun p d q =>
      p.kind = .symbol x → ∃ m r, p.Reads (.symbol x) m ∧
        (Phrase.binding d.2.1 d.2.2.1).Derives lenient m r ∧ r.Ends q ∧
        d.1 = (x == .constDecl) ∧ d.2.2.2 = m.previous.merge r.previous := by
  refine .bind (respects_advance_of (k := .symbol x) (by simpa using hx)) fun keyword =>
    .bind (respects_declarationRest hi) fun d => .bind respects_previousSpan fun stop =>
    .bind respects_semicolon fun _ => .pure ?_
  rintro q r ends _ ⟨rfl, rfl⟩ m binding p keyword here
  obtain ⟨keyword, kind, span⟩ := keyword here
  exact ⟨m, r, keyword, binding, ends, by rw [kind]; rfl, by rw [span]⟩

/-- A declaration with `let` or `const` and the end of the statement. -/
theorem respects_variableDeclaration (hi : inner.Derives lenient text) (pl : Placement)
    {x : Symbol} (hx : x = .letDecl ∨ x = .constDecl) :
    Respects text (variableDeclaration inner) fun p s q =>
      p.kind = .symbol x → (Phrase.stmt pl s).Derives lenient p q := by
  have : x ≠ .eof := by rintro rfl; simp at hx
  refine .bind (respects_declaration hi this) fun d => .pure ?_
  intro q p h here
  obtain ⟨m, r, keyword, binding, ends, isConst, span⟩ := h here
  obtain ⟨isConst, name, init, span⟩ := d
  subst isConst span
  rcases hx with rfl | rfl
  · exact .letDecl keyword binding ends
  · exact .constDecl keyword binding ends

/-- The word `function`, a name and the rest of a function. -/
theorem respects_functionDeclaration (hi : inner.Derives lenient text) (pl : Placement) :
    Respects text (functionDeclaration inner) fun p s q =>
      p.kind = .symbol .function → (Phrase.stmt pl s).Derives lenient p q := by
  refine .bind (respects_advance_of (k := .symbol .function) (by simp)) fun keyword =>
    .bind respects_bindingName fun name =>
    .bind (respects_functionRest hi (some name) keyword.span) fun f => .pure ?_
  intro q r rest m binds p keyword here
  obtain ⟨keyword, -, span⟩ := keyword here
  rw [span] at rest
  exact .functionDecl keyword binds rest

-- ---------------------------------------------------------------------------
-- Jumps
-- ---------------------------------------------------------------------------

/-- A `return` with a value or without one. It is bare where the statement may end behind its
word. -/
theorem respects_returnStatement (hi : inner.Derives lenient text) (pl : Placement) :
    Respects text (returnStatement inner pl) fun p s q =>
      p.kind = .symbol .returns → (Phrase.stmt pl s).Derives lenient p q := by
  refine .bind (respects_advance_of (k := .symbol .returns) (by simp)) fun keyword => ?_
  -- both ways end with the end of the statement
  have finish (value : Expr) : Respects text
      (do let previous ← previousSpan
          semicolon
          return Stmt.returns value (keyword.span.merge previous))
      fun m s q => s = .returns value (keyword.span.merge m.previous) ∧ m.Ends q := by
    refine .bind respects_previousSpan fun previous => .bind respects_semicolon fun _ => .pure ?_
    rintro q m ends _ ⟨rfl, rfl⟩
    exact ⟨rfl, ends⟩
  have rest : Respects text
      (do let bare := (← check .semicolon) || (← check .closeBrace) || (← atEnd) ||
            (← currentSpan).start.line > keyword.span.stop.line
          let value ← if bare then pure (.undefined keyword.span) else inner.expression
          let previous ← previousSpan
          semicolon
          return Stmt.returns value (keyword.span.merge previous))
      fun m s q => pl.inFunction = true → ∀ p, p.Reads (.symbol .returns) m →
        keyword.span = m.previous → (Phrase.stmt pl s).Derives lenient p q := by
    refine .bind respects_check fun semi => .bind respects_check fun closes =>
      .bind respects_atEnd fun atEnd => .bind respects_currentSpan fun span =>
      .ite (fun bare => ?_) fun valued => ?_
    · refine .bind (R := fun p e q => q = p ∧ e = .undefined keyword.span)
        (.pure fun _ => ⟨rfl, rfl⟩) fun value => (finish value).mono ?_
      rintro m s q ⟨rfl, ends⟩ _ ⟨rfl, rfl⟩ _ ⟨rfl, -⟩ _ ⟨rfl, -⟩ _ ⟨rfl, -⟩ _ ⟨rfl, -⟩ placed p
        read start
      rw [start]
      exact .bareReturn placed read ends
    · refine .bind hi.expression fun value => (finish value).mono ?_
      rintro r s q ⟨rfl, ends⟩ m value _ ⟨rfl, spans⟩ _ ⟨rfl, ended⟩ _ ⟨rfl, closing⟩ _ ⟨rfl, -⟩
        placed p read start
      simp only [Bool.or_eq_true, decide_eq_true_eq, not_or] at valued
      rw [start] at valued ⊢
      refine .returns placed read ?_ value ends
      rintro (h | h | ⟨t, ht, h⟩)
      · exact valued.1.2 (ended.mpr h)
      · exact valued.1.1.2 (closing.mpr h)
      · obtain ⟨ts, hl⟩ := List.head?_eq_some_iff.mp ht
        have here : span = t.span := spans t.kind ⟨t.span, ts⟩ hl
        exact valued.2 (here ▸ h)
  refine .ite (fun _ => .bind respects_reportAt fun _ => rest.mono ?_) fun placed => rest.mono ?_
  · exact fun _ _ _ _ _ h => h.elim
  · intro m s q h p keyword here
    obtain ⟨keyword, -, span⟩ := keyword here
    exact h (by simpa using placed) p keyword span

/-- `break` or `continue`, in a loop. -/
theorem respects_jumpStatement (pl : Placement) {x : Symbol}
    (hx : x = .breakLoop ∨ x = .continueLoop) :
    Respects text (jumpStatement pl) fun p s q =>
      p.kind = .symbol x → (Phrase.stmt pl s).Derives lenient p q := by
  have hk : Token.Kind.symbol x ≠ .symbol .eof := by rcases hx with rfl | rfl <;> simp
  refine .bind (respects_advance_of hk) fun token => ?_
  have rest : Respects text
      (do semicolon
          return if token.kind.is .breakLoop then Stmt.breakLoop token.span
            else .continueLoop token.span)
      fun m s q => pl.inLoop = true → ∀ p, (p.kind = .symbol x →
        p.Reads (.symbol x) m ∧ token.kind = .symbol x ∧ token.span = m.previous) →
        p.kind = .symbol x → (Phrase.stmt pl s).Derives lenient p q := by
    refine .bind respects_semicolon fun _ => .pure ?_
    intro q m ends placed p keyword here
    obtain ⟨keyword, kind, span⟩ := keyword here
    rw [kind, span]
    rcases hx with rfl | rfl
    · exact .breakLoop placed keyword ends
    · exact .continueLoop placed keyword ends
  -- outside a loop it is reported, and a reported text derives nothing
  refine .ite (fun _ => .bind respects_reportAt fun _ => rest.mono ?_) fun placed => rest.mono ?_
  · exact fun _ _ _ _ _ h => h.elim
  · exact fun m s q h => h (by simpa using placed)

/-- The word `cut`. -/
theorem respects_cutStatement (pl : Placement) :
    Respects text cutStatement fun p s q =>
      p.kind = .symbol .cut → (Phrase.stmt pl s).Derives lenient p q := by
  refine .bind (respects_advance_of (k := .symbol .cut) (by simp)) fun token =>
    .bind respects_semicolon fun _ => .pure ?_
  intro q m ends p keyword here
  obtain ⟨keyword, -, span⟩ := keyword here
  rw [span]
  exact .cut keyword ends

-- ---------------------------------------------------------------------------
-- Branches and loops
-- ---------------------------------------------------------------------------

/-- A test in parentheses. -/
theorem respects_condition (hi : inner.Derives lenient text) :
    Respects text (condition inner) fun p e q => (Phrase.condition e).Derives lenient p q := by
  refine .bind (respects_expect (by decide)) fun _ => .bind hi.expression fun test =>
    .bind (respects_expect (by decide)) fun _ => .pure ?_
  intro q r closing m test p opening
  exact .condition opening test closing

/-- A test and a body that is in a loop. -/
theorem respects_whileStatement (hi : inner.Derives lenient text) (pl : Placement) :
    Respects text (whileStatement inner pl) fun p s q =>
      p.kind = .symbol .whileLoop → (Phrase.stmt pl s).Derives lenient p q := by
  refine .bind (respects_advance_of (k := .symbol .whileLoop) (by simp)) fun keyword =>
    .bind (respects_condition hi) fun test => .bind (respects_block hi pl.loop) fun body =>
    .bind respects_previousSpan fun stop => .pure ?_
  rintro q _ ⟨rfl, rfl⟩ r body m test p keyword here
  obtain ⟨keyword, -, span⟩ := keyword here
  rw [span]
  exact .whileLoop keyword test body

/-- Behind a `let`, the header's first separator may be left out. -/
theorem respects_loopInit (hi : inner.Derives lenient text) :
    Respects text (loopInit inner) fun p i q =>
      (Phrase.init i).Derives lenient p q ∨
        ∃ m name init, i = some (.declare name init (m.previous.merge q.previous)) ∧
          p.Reads (.symbol .letDecl) m ∧ (Phrase.binding name init).Derives lenient m q ∧
          q.kind ≠ .symbol .semicolon ∧ q.MayEnd := by
  refine .bind (respects_eat (by decide)) fun missing => .ite (fun eaten => .pure ?_) fun given =>
    .bind respects_check fun isLet => .ite (fun found => ?_) fun _ =>
    .bind respects_check fun isConst => .ite (fun _ => .failing respects_report) fun _ => ?_
  · intro q p separator
    exact .inl (.noInit (separator.1 eaten))
  · refine .bind (respects_declaration hi (x := .letDecl) (by decide)) fun d => .pure ?_
    rintro q p h _ ⟨rfl, here⟩ l missing
    obtain ⟨rfl, -⟩ := missing.2 given
    obtain ⟨isConst, name, init, span⟩ := d
    obtain ⟨m, r, keyword, binding, ends, -, covered⟩ := h (here.mp found)
    subst covered
    -- the end of a declaration is more than a semicolon, which is where the header is lenient
    rcases ends with separator | ⟨noSeparator, omitted, rfl⟩
    · exact .inl (.letInit keyword binding separator)
    · exact .inr ⟨m, name, init, rfl, keyword, binding, noSeparator, omitted⟩
  · refine .bind hi.expression fun e => .bind (respects_expect (by decide)) fun _ => .pure ?_
    rintro q m separator p init _ ⟨rfl, -⟩ _ ⟨rfl, -⟩ l missing
    obtain ⟨rfl, -⟩ := missing.2 given
    exact .inl (.exprInit init separator)

/-- An expression if one stands before the closing mark, and that mark. -/
theorem respects_optionalExpression (hi : inner.Derives lenient text) {close : Symbol}
    (hc : close ≠ .eof) :
    Respects text (optionalExpression inner close) fun p e q =>
      (Phrase.optional close e).Derives lenient p q := by
  have closing (e : Option Expr) : Respects text (do expect close; return e) fun m e' q =>
      e' = e ∧ m.Reads (.symbol close) q := by
    refine .bind (respects_expect hc) fun _ => .pure ?_
    exact fun q m closing => ⟨rfl, closing⟩
  refine .bind respects_check fun closes => .ite (fun _ => ?_) fun _ => ?_
  · refine .bind (R := fun p e q => q = p ∧ e = none) (.pure fun _ => ⟨rfl, rfl⟩) fun e =>
      (closing e).mono ?_
    rintro m _ q ⟨rfl, closing⟩ _ ⟨rfl, rfl⟩ _ ⟨rfl, -⟩
    exact .absent closing
  · refine .bind (.map hi.expression) fun e => (closing e).mono ?_
    rintro m _ q ⟨rfl, closing⟩ p ⟨e, rfl, inner⟩ _ ⟨rfl, -⟩
    exact .present inner closing

/-- A branch of an `else if` chain has read its keyword before the next one is begun, so it needs
no more rounds than there are tokens. -/
theorem respects_branchLoop (hi : inner.Derives lenient text) (pl : Placement) (fuel : Nat)
    (enough : text.length < fuel) :
    Respects text (branchLoop inner pl fuel) fun p b q =>
      p.kind = .symbol .ifBranch → (Phrase.branch pl b).Derives lenient p q := by
  induction fuel generalizing text with
  | zero => exact absurd enough (Nat.not_lt_zero _)
  | succ fuel ih =>
    refine .bind (respects_advance_of (k := .symbol .ifBranch) (by simp)) fun keyword =>
      .bind (respects_condition hi) fun test => .bind (respects_block hi pl) fun consequent => ?_
    -- the three ways to go on, else if, else and neither, end alike
    have finish {text : List Token} (alternate : Alternate) : Respects text
        (do let stop ← previousSpan
            return Branch.mk test consequent alternate (keyword.span.merge stop))
        fun p b q => q = p ∧ b = .mk test consequent alternate (keyword.span.merge p.previous) := by
      refine .bind respects_previousSpan fun stop => .pure ?_
      rintro q _ ⟨rfl, rfl⟩
      exact ⟨rfl, rfl⟩
    have rest : Respects text
        (do let alternate ← if ← eat .elseBranch then
                if ← check .ifBranch then pure (.branch (← branchLoop inner pl fuel))
                else pure (.block (← block inner pl))
              else pure Alternate.absent
            let stop ← previousSpan
            return Branch.mk test consequent alternate (keyword.span.merge stop))
        fun p b q => ∃ alternate,
          b = .mk test consequent alternate (keyword.span.merge q.previous) ∧
          (Phrase.alternate pl alternate).Derives lenient p q := by
      -- the else read leaves less text, which is what the fuel counts
      refine .bind_eat (by decide) (fun text' le shorter => ?_) ?_
      · refine .bind respects_check fun isIf => .ite (fun found => ?_) fun _ => ?_
        · refine .bind (ih (hi.shorter le) (by omega)) fun b => (finish (.branch b)).mono ?_
          rintro q _ _ ⟨rfl, rfl⟩ m branch _ ⟨rfl, here⟩ p keyword
          exact ⟨_, rfl, .elseIf keyword (branch (here.mp found))⟩
        · refine .bind (respects_block (hi.shorter le) pl) fun b => (finish (.block b)).mono ?_
          rintro q _ _ ⟨rfl, rfl⟩ m block _ ⟨rfl, -⟩ p keyword
          exact ⟨_, rfl, .otherwise keyword block⟩
      · refine (finish .absent).mono ?_
        rintro q _ _ ⟨rfl, rfl⟩ -
        exact ⟨_, rfl, .noAlternate pl _⟩
    refine rest.mono ?_
    rintro s _ q ⟨alternate, rfl, read⟩ r consequent m test p keyword here
    obtain ⟨keyword, -, span⟩ := keyword here
    rw [span]
    exact .branch keyword test consequent read

/-- A branch, as a statement. -/
theorem respects_branchStatement (hi : inner.Derives lenient text) (pl : Placement) :
    Respects text (branchStatement inner pl) fun p s q =>
      p.kind = .symbol .ifBranch → (Phrase.stmt pl s).Derives lenient p q := by
  refine .bind_rounds fun text' n le enough =>
    .bind (respects_branchLoop (hi.shorter le) pl n enough) fun b => .pure ?_
  intro q p branch here
  exact .branchStmt (branch here)

/-- A loop with its header. Where the separator behind its `let` is missing, the grammar is
lenient. -/
theorem respects_forStatement (hs : Separated lenient text) (hi : inner.Derives lenient text)
    (pl : Placement) :
    Respects text (forStatement inner pl) fun p s q =>
      p.kind = .symbol .forLoop → (Phrase.stmt pl s).Derives lenient p q := by
  refine .bind (respects_advance_of (k := .symbol .forLoop) (by simp)).located fun keyword =>
    .bind (respects_expect (by decide)) fun _ => .bind (respects_loopInit hi) fun init =>
    .bind (respects_optionalExpression hi (by decide)) fun test =>
    .bind (respects_optionalExpression hi (by decide)) fun update =>
    .bind (respects_block hi pl.loop) fun body => .bind respects_previousSpan fun stop => .pure ?_
  rintro q _ ⟨rfl, rfl⟩ u body t update s test r init m opening p ⟨located, keyword⟩ here
  obtain ⟨keyword, -, span⟩ := keyword here
  rw [span]
  refine .forLoop keyword opening ?_ test update body
  rcases init with init | ⟨_, name, init, rfl, isLet, binding, noSeparator, omitted⟩
  · exact init
  · refine .brokenInit (hs p located ?_) isLet binding noSeparator omitted
    exact ⟨lenient, _, _, _, _, _, _, _, _, _, _, keyword, opening, isLet, binding, noSeparator,
      omitted, test, update⟩

-- ---------------------------------------------------------------------------
-- Statements
-- ---------------------------------------------------------------------------

/-- A block, as a statement. -/
theorem respects_blockStatement (hi : inner.Derives lenient text) (pl : Placement) :
    Respects text (blockStatement inner pl)
      fun p s q => (Phrase.stmt pl s).Derives lenient p q := by
  refine .bind (respects_block hi pl) fun b => .pure ?_
  intro q p block
  exact .blockStmt block

/-- An expression where no declaration of a function stands. -/
theorem respects_expressionStatement (hi : inner.Derives lenient text) (pl : Placement) :
    Respects text (expressionStatement inner) fun p s q =>
      ¬p.Declares → (Phrase.stmt pl s).Derives lenient p q := by
  refine .bind hi.expression fun e => .bind respects_semicolon fun _ => .pure ?_
  intro q m ends p e undeclared
  exact .expr undeclared e ends

/-- A declaration of a function begins with its word. -/
theorem Place.Declares.kind {p : Place} (h : p.Declares) : p.kind = .symbol .function := by
  obtain ⟨m, q, name, keyword, -⟩ := h
  exact keyword.kind

/-- Which rule a statement is read by depends on its first token and, behind `function`, on the
second. -/
theorem respects_statement (hs : Separated lenient text) (hi : inner.Derives lenient text)
    (pl : Placement) :
    Respects text (statement inner pl) fun p s q => (Phrase.stmt pl s).Derives lenient p q := by
  refine .bind respects_currentKind fun k => ?_
  -- the place where the rule starts is the one whose kind was looked at
  have started {x : Parser Stmt}
      (hx : Respects text x fun p s q => p.kind = k → (Phrase.stmt pl s).Derives lenient p q) :
      Respects text x fun m s q => ∀ p, m = p ∧ k = p.kind →
        (Phrase.stmt pl s).Derives lenient p q :=
    hx.mono fun m s q h p same => same.1 ▸ h (same.1 ▸ same.2.symm)
  split
  · exact started (respects_variableDeclaration hi pl (.inl rfl))
  · exact started (respects_variableDeclaration hi pl (.inr rfl))
  · refine .bind respects_nextIsName fun named => .ite (fun found => ?_) fun missing => ?_
    · refine (respects_functionDeclaration hi pl).mono ?_
      rintro m s q h _ ⟨rfl, -⟩ _ ⟨rfl, here⟩
      exact h here.symm
    · refine (respects_expressionStatement hi pl).mono ?_
      rintro m s q h _ ⟨rfl, declares⟩ _ ⟨rfl, here⟩
      exact h (mt (declares here.symm).mpr missing)
  · exact started (respects_returnStatement hi pl)
  · exact started (respects_branchStatement hi pl)
  · exact started (respects_whileStatement hi pl)
  · exact started (respects_forStatement hs hi pl)
  · exact started (respects_jumpStatement pl (.inl rfl))
  · exact started (respects_jumpStatement pl (.inr rfl))
  · exact started (respects_cutStatement pl)
  · exact started ((respects_blockStatement hi pl).mono fun _ _ _ h _ => h)
  · refine started ((respects_expressionStatement hi pl).mono
      fun p s q h here => h fun declares => ?_)
    have := declares.kind
    simp_all

/-- A place where a list of statements ends: before a closing brace or at the end of the text. -/
def Place.Closes (p : Place) : Prop := p.kind = .symbol .closeBrace ∨ p.left = []

/-- Statements behind those that are `done`, and where the list of them ends. -/
theorem respects_statementLoop (hs : Separated lenient text) (hi : inner.Derives lenient text)
    (pl : Placement) (fuel : Nat) (done : List Stmt) :
    Respects text (statementLoop inner pl fuel done) fun p ss q =>
      p.left.length < fuel → ∃ more, ss = done.reverse ++ more ∧
        (Phrase.stmts pl more).Derives lenient p q ∧ q.Closes := by
  -- by induction on the fuel, the statements before reversed in the accumulator
  induction fuel generalizing done with
  | zero => exact .pure fun p h => absurd h (Nat.not_lt_zero _)
  | succ fuel ih =>
    refine .bind respects_check fun closes => .bind respects_atEnd fun atEnd =>
      .bind respects_logIsFull fun full => .ite (fun stop => .pure ?_) fun _ =>
      .bind (respects_eat (by decide)) fun stray =>
      .ite (fun eaten => (ih done).mono ?_) fun clean =>
      .bind (respects_statement hs hi pl).attempt fun result => ?_
    · rintro q _ ⟨rfl, rfl⟩ _ ⟨rfl, ended⟩ _ ⟨rfl, closing⟩ enough
      simp only [Bool.or_false, Bool.or_eq_true] at stop
      exact ⟨[], by simp, .noStmts pl _, stop.imp closing.mp ended.mp⟩
    · rintro m ss q h p stray _ ⟨rfl, -⟩ _ ⟨rfl, -⟩ _ ⟨rfl, -⟩ enough
      have read := stray.1 eaten
      obtain ⟨more, rfl, rest, closes⟩ := h (by grind)
      exact ⟨more, rfl, .straySemicolon read rest, closes⟩
    · cases result with
      | some s =>
        refine (ih (s :: done)).mono ?_
        -- a statement takes at least one token, so the fuel suffices for the rest
        rintro m ss q h p ⟨s', hs', first⟩ l stray _ ⟨rfl, -⟩ _ ⟨rfl, -⟩ _ ⟨rfl, -⟩ enough
        obtain rfl := Option.some.inj hs'
        obtain ⟨rfl, -⟩ := stray.2 clean
        have shorter := first.length_le
        simp only [Phrase.least] at shorter
        obtain ⟨more, rfl, rest, closes⟩ := h (by omega)
        exact ⟨s :: more, by simp, .moreStmts first rest, closes⟩
      | none =>
        -- a statement that failed was reported
        refine .bind respects_synchronize fun _ => (ih done).mono ?_
        rintro m ss q - l - p ⟨s, hs, -⟩
        cases hs

/-- The statements up to a closing brace or the end of the text. -/
theorem respects_statements (hs : Separated lenient text) (hi : inner.Derives lenient text)
    (pl : Placement) :
    Respects text (statements inner pl) fun p ss q =>
      (Phrase.stmts pl ss).Derives lenient p q ∧ q.Closes := by
  refine .bind respects_rounds fun n => (respects_statementLoop hs hi pl n []).mono ?_
  rintro p ss q h _ ⟨rfl, enough⟩
  obtain ⟨more, rfl, read, closes⟩ := h enough
  exact ⟨read, closes⟩

end AmbScript.Parser
