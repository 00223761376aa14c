import AmbScript.Proofs.Parser.Reading
import AmbScript.Proofs.Parser.Rendering

/-!
# Readings of two texts

Two texts that have the same tokens and break their lines at the same ones are read side by side. Of
the two places where a parser stands, the same can be told but where they are.

* `lineBreaks`, `SameLayout` — where lines are broken, and token lists that do not differ in this.
* `Alike` — states that do not differ but in places.
* `Agree` — outcomes of which the same holds, and whose results are the same up to places.
* `Blind` — a rule leads from states that are alike to outcomes that agree; `Blind.bind` puts such
  rules in a row.
* `blind_…` — the steps that all rules are made of are blind.

The states keep to themselves where they are and which source they quote. A view `v` of results says
how much of them is compared: trees without their spans, names without theirs, or nothing.
-/

namespace AmbScript

/-- Between the two tokens a line ends. -/
def Token.breaksBefore (t u : Token) : Bool := t.span.stop.line < u.span.start.line

/-- Of each token but the first one, whether a line ends before it. -/
def lineBreaks : List Token → List Bool
  | t :: u :: ts => t.breaksBefore u :: lineBreaks (u :: ts)
  | _ => []

/-- The same tokens, with lines that are broken at the same ones. -/
structure SameLayout (ts ts' : List Token) : Prop where
  kinds : ts.map (·.kind) = ts'.map (·.kind)
  breaks : lineBreaks ts = lineBreaks ts'

namespace SameLayout

variable {t t' u u' : Token} {ts ts' : List Token}

/-- The first tokens are of one kind. -/
theorem kind (h : SameLayout (t :: ts) (t' :: ts')) : t.kind = t'.kind :=
  (List.cons.inj h.kinds).1

/-- Before the second tokens a line ends in both, or in neither. -/
theorem breaksBefore (h : SameLayout (t :: u :: ts) (t' :: u' :: ts')) :
    t.breaksBefore u = t'.breaksBefore u' :=
  (List.cons.inj h.breaks).1

/-- Without their first tokens, the texts are laid out alike. -/
theorem tail (h : SameLayout (t :: ts) (t' :: ts')) : SameLayout ts ts' := by
  have hKinds := (List.cons.inj h.kinds).2
  refine ⟨hKinds, ?_⟩
  cases ts with
  | nil =>
    obtain rfl := List.map_eq_nil_iff.mp hKinds.symm
    rfl
  | cons u us =>
    obtain ⟨u', us', rfl, -, -⟩ := List.map_eq_cons_iff.mp hKinds.symm
    exact (List.cons.inj h.breaks).2

/-- One token has no line break before it. -/
theorem single (h : t.kind = t'.kind) : SameLayout [t] [t'] := ⟨congrArg (fun k => [k]) h, rfl⟩

end SameLayout

/-- What a diagnostic says, apart from where. -/
def Diagnostic.statement (d : Diagnostic) : Code × String := (d.code, d.message)

namespace Parser

variable {α β γ δ : Type}

-- ---------------------------------------------------------------------------
-- States
-- ---------------------------------------------------------------------------

/-- Behind the previous token a line ends. -/
def State.breaks (s : State) : Bool := s.previous.stop.line < s.current.span.start.line

/-- The states do not differ but in places, and in the text that is quoted. Where something has been
`read`, they agree on the line break before the current token; at the end of the text it does not
matter. -/
structure Alike (read : Bool) (s s' : State) : Prop where
  tokens : SameLayout (s.current :: s.ahead) (s'.current :: s'.ahead)
  rounds : s.rounds = s'.rounds
  total : s.log.total = s'.log.total
  reports : s.log.kept.map Diagnostic.statement = s'.log.kept.map Diagnostic.statement
  breaks : read = true → s.current.kind ≠ .symbol .eof → s.breaks = s'.breaks

namespace Alike

variable {read : Bool} {s s' : State}

/-- What comes next is the same. -/
theorem kind (h : Alike read s s') : s.current.kind = s'.current.kind := h.tokens.kind

/-- What is known of the line may be forgotten. -/
theorem forget (h : Alike read s s') : Alike false s s' :=
  ⟨h.tokens, h.rounds, h.total, h.reports, nofun⟩

/-- Whatever was known of the line before, it is known once a token is read. -/
theorem advanced (h : Alike read s s') : Alike true s.advanced s'.advanced := by
  by_cases hEnd : s.current.kind = .symbol .eof
  · rw [State.advanced_eq_self hEnd, State.advanced_eq_self (h.kind.symm.trans hEnd)]
    exact ⟨h.tokens, h.rounds, h.total, h.reports, fun _ hNot => absurd hEnd hNot⟩
  · have hEnd' : s'.current.kind ≠ .symbol .eof := h.kind ▸ hEnd
    have hKinds := h.tokens.tail.kinds
    -- at the last token both sides make up an end of the text; the tokens that remain decide, and
    -- they are the same in number
    cases hAhead : s.ahead with
    | nil =>
      rw [hAhead] at hKinds
      rw [State.advanced_of_ahead_nil hEnd hAhead,
        State.advanced_of_ahead_nil hEnd' (List.map_eq_nil_iff.mp hKinds.symm)]
      have hTokens := h.tokens.tail
      rw [hAhead, List.map_eq_nil_iff.mp hKinds.symm] at hTokens
      refine ⟨?_, h.rounds, h.total, h.reports, fun _ hNot => absurd rfl hNot⟩
      show SameLayout (.eof s.current.span :: s.ahead) (.eof s'.current.span :: s'.ahead)
      rw [hAhead, List.map_eq_nil_iff.mp hKinds.symm]
      exact .single rfl
    | cons t ts =>
      rw [hAhead] at hKinds
      obtain ⟨t', ts', hAhead', -, -⟩ := List.map_eq_cons_iff.mp hKinds.symm
      rw [State.advanced_of_ahead_cons hEnd hAhead, State.advanced_of_ahead_cons hEnd' hAhead']
      have hTokens := h.tokens
      rw [hAhead, hAhead'] at hTokens
      exact ⟨hTokens.tail, h.rounds, h.total, h.reports, fun _ _ => hTokens.breaksBefore⟩

/-- The same report in both, quoted from wherever it is. -/
theorem reported (h : Alike read s s') (code : Code) (message : String) (span span' : Span) :
    Alike read { s with log := s.log.push (.quoting s.source code message span) }
      { s' with log := s'.log.push (.quoting s'.source code message span') } := by
  refine ⟨h.tokens, h.rounds, congrArg (· + 1) h.total, ?_, h.breaks⟩
  have hLength : s.log.kept.length = s'.log.kept.length := by
    simpa using congrArg List.length h.reports
  show (DiagnosticLog.push _ _).kept.map _ = (DiagnosticLog.push _ _).kept.map _
  rw [DiagnosticLog.push, DiagnosticLog.push, hLength]
  split
  · rw [List.map_append, List.map_append, h.reports]
    rfl
  · exact h.reports

end Alike

-- ---------------------------------------------------------------------------
-- Outcomes and rules
-- ---------------------------------------------------------------------------

/-- Both fail or both give results, of which `v` sees the same. After a failure, nothing is known of
the line. -/
inductive Agree (read : Bool) (v : α → γ) : Option α × State → Option α × State → Prop
  | failed {t t' : State} (hStates : Alike false t t') : Agree read v (none, t) (none, t')
  | passed {a a' : α} {t t' : State} (hResults : v a = v a') (hStates : Alike read t t') :
    Agree read v (some a, t) (some a', t')

/-- From states that are alike, the rules lead to outcomes that agree. Both are mostly the same
rule, with what was read before as its parameters. -/
def Blind (before after : Bool) (v : α → γ) (x x' : Parser α) : Prop :=
  ∀ s s' : State, Alike before s s' → Agree after v (x s) (x' s')

/-- Sees nothing of a result. -/
def ignore : α → Unit := fun _ => ()

/-- Both rules fail, or both go on with results that look the same. -/
theorem Agree.bind {b c : Bool} {v : α → γ} {w : β → δ} {y y' : Parser α} {f f' : α → Parser β}
    {s s' : State} (h : Agree b v (y s) (y' s'))
    (hf : ∀ a t a' t', y s = (some a, t) → y' s' = (some a', t') → v a = v a' → Alike b t t' →
      Agree c w (f a t) (f' a' t')) : Agree c w ((y >>= f) s) ((y' >>= f') s') := by
  match hy : y s, hy' : y' s' with
  | (none, t), (none, t') =>
    rw [hy, hy'] at h
    rw [bind_of_none hy, bind_of_none hy']
    cases h with
    | failed hStates => exact .failed hStates
  | (some a, t), (some a', t') =>
    rw [hy, hy'] at h
    rw [bind_of_some hy, bind_of_some hy']
    cases h with
    | passed hResults hStates => exact hf a t a' t' hy hy' hResults hStates
  -- outcomes that agree do not differ in this
  | (none, t), (some a', t') =>
    rw [hy, hy'] at h
    cases h
  | (some a, t), (none, t') =>
    rw [hy, hy'] at h
    cases h

namespace Blind

variable {a b c : Bool} {v : α → γ} {w : β → δ} {x x' y y' : Parser α} {f f' : α → Parser β}

/-- Rules in a row; what is known of the line behind the first one is known before the second
one. -/
theorem bind (hx : Blind a b v x x') (hf : ∀ e e', v e = v e' → Blind b c w (f e) (f' e')) :
    Blind a c w (x >>= f) (x' >>= f') := by
  intro s s' h
  refine (hx s s' h).bind fun e t e' t' _ _ hResults hStates => ?_
  exact hf e e' hResults t t' hStates

/-- The second rule is told something that is the same in both. -/
theorem bind_same {f f' : γ → Parser β} {x x' : Parser γ} (hx : Blind a b id x x')
    (hf : ∀ e, Blind b c w (f e) (f' e)) : Blind a c w (x >>= f) (x' >>= f') := by
  refine hx.bind fun e e' h => ?_
  cases (h : e = e')
  exact hf e

/-- Results that look the same. -/
theorem pure {e e' : α} (h : v e = v e') : Blind b b v (pure e) (pure e') :=
  fun _ _ hStates => .passed h hStates

theorem fail : Blind b c v fail fail := fun _ _ hStates => .failed hStates.forget

/-- More may be known of the state before. -/
theorem later (h : Blind false b v x x') : Blind a b v x x' :=
  fun s s' hStates => h s s' hStates.forget

/-- Functions that keep the likeness. -/
theorem map {g : α → β} (hx : Blind a b v x x') (hg : ∀ e e', v e = v e' → w (g e) = w (g e')) :
    Blind a b w (g <$> x) (g <$> x') :=
  hx.bind fun e e' h => .pure (hg e e' h)

/-- The test comes out the same for both. -/
theorem ite {p : Prop} [Decidable p] (hx : p → Blind a b v x x') (hy : ¬p → Blind a b v y y') :
    Blind a b v (if p then x else y) (if p then x' else y') := by
  split
  · exact hx ‹p›
  · exact hy ‹¬p›

/-- What is seen looks the same, if the states are alike. -/
theorem look {g : State → α} (h : ∀ s s' : State, Alike b s s' → v (g s) = v (g s')) :
    Blind b b v (look g) (look g) := by
  intro s s' hStates
  exact .passed (h s s' hStates) hStates

/-- Where a parser stands is of no account. -/
theorem unseen {g : State → α} : Blind b b ignore (Parser.look g) (Parser.look g) :=
  .look fun _ _ _ => rfl

/-- Whether or not the rule fails, nothing is known of the line behind it. -/
theorem attempt (hx : Blind a b v x x') :
    Blind a false (Option.map v) (attempt x) (attempt x') := by
  intro s s' hStates
  show Agree false (Option.map v) (some (x s).1, (x s).2) (some (x' s').1, (x' s').2)
  match x s, x' s', hx s s' hStates with
  | _, _, .failed hAfter => exact .passed rfl hAfter
  | _, _, .passed hResults hAfter => exact .passed (congrArg some hResults) hAfter.forget

end Blind

-- ---------------------------------------------------------------------------
-- Steps
-- ---------------------------------------------------------------------------

variable {b c : Bool} {v : α → γ}

/-- The next kind is the same. -/
theorem blind_currentKind : Blind b b id currentKind currentKind := .look fun _ _ h => h.kind

/-- What comes next decides how it goes on. -/
theorem Blind.bind_kind {f f' : Token.Kind → Parser α}
    (hf : ∀ k s s', Alike b s s' → s.current.kind = k → Agree c v (f k s) (f' k s')) :
    Blind b c v (currentKind >>= f) (currentKind >>= f') := by
  intro s s' h
  show Agree c v (f s.current.kind s) (f' s'.current.kind s')
  rw [← h.kind]
  exact hf _ s s' h rfl

theorem blind_rounds : Blind b b id rounds rounds := .look fun _ _ h => h.rounds

theorem blind_check (x : Symbol) : Blind b b id (check x) (check x) :=
  .look fun _ _ h => congrArg (·.is x) h.kind

/-- What follows may depend on it. -/
theorem Blind.bind_check {x : Symbol} {y y' z z' : Parser α} (hy : Blind b c v y y')
    (hz : Blind b c v z z') :
    Blind b c v (check x >>= fun e => if e = true then y else z)
      (check x >>= fun e => if e = true then y' else z') := by
  refine .bind_same (blind_check x) fun _ => ?_
  refine .ite ?_ ?_
  · intro _
    exact hy
  · intro _
    exact hz

/-- Both logs are full, or neither. -/
theorem blind_logIsFull : Blind b b id logIsFull logIsFull := by
  refine .look fun _ _ h => ?_
  exact congrArg (fun n => decide (n ≥ maxErrors)) h.total

/-- A test on the kind of the first token. -/
theorem any_head? {ts ts' : List Token} (h : ts.map (·.kind) = ts'.map (·.kind))
    (p : Token.Kind → Bool) : ts.head?.any (p ·.kind) = ts'.head?.any (p ·.kind) := by
  have hHead := congrArg (List.head? · |>.any p) h
  simpa only [List.head?_map, Option.any_map] using hHead

/-- Whether a name follows the next token. -/
theorem blind_nextIsName : Blind b b id nextIsName nextIsName := by
  refine .look fun _ _ h => ?_
  exact any_head? h.tokens.tail.kinds Token.Kind.isName

/-- Once a token is read, the line behind it is known. -/
theorem blind_advance : Blind b true Token.kind advance advance :=
  fun _ _ h => .passed h.kind h.advanced

/-- To read a mark if there is one. Where it is read, the line is known. -/
theorem Blind.bind_eat {x : Symbol} {y y' z z' : Parser α} (hy : Blind true c v y y')
    (hz : Blind b c v z z') :
    Blind b c v (eat x >>= fun e => if e = true then y else z)
      (eat x >>= fun e => if e = true then y' else z') := by
  intro s s' h
  by_cases hHere : s.current.kind.is x
  · have hEat : eat x s = (some true, s.advanced) := (eat_apply x s).trans (if_pos hHere)
    have hEat' : eat x s' = (some true, s'.advanced) :=
      (eat_apply x s').trans (if_pos (h.kind ▸ hHere))
    rw [bind_of_some hEat, bind_of_some hEat']
    exact hy _ _ h.advanced
  · have hEat : eat x s = (some false, s) := (eat_apply x s).trans (if_neg hHere)
    have hEat' : eat x s' = (some false, s') := (eat_apply x s').trans (if_neg (h.kind ▸ hHere))
    rw [bind_of_some hEat, bind_of_some hEat']
    exact hz _ _ h

/-- Reports at any two places. -/
theorem blind_reportAt (code : Code) (message : String) (span span' : Span) :
    Blind b b ignore (reportAt code message span) (reportAt code message span') := by
  intro _ _ h
  exact .passed rfl (h.reported code message span span')

/-- Reports at the next token. -/
theorem blind_report (code : Code) (message : String) :
    Blind b b ignore (report code message) (report code message) := by
  refine .bind .unseen fun span span' _ => ?_
  exact blind_reportAt code message span span'

/-- A rule that reports and fails. -/
theorem blind_failing (code : Code) (message : String) :
    Blind b c v (do report code message; (fail : Parser α)) (do report code message; fail) := by
  refine .bind (blind_report code message) fun _ _ _ => ?_
  exact .fail

-- ---------------------------------------------------------------------------
-- Expectations
-- ---------------------------------------------------------------------------

/-- A symbol that is read, or reported as missing. -/
theorem blind_expect (x : Symbol) : Blind b true ignore (expect x) (expect x) := by
  refine .bind_eat (.pure rfl) ?_
  refine .bind_same (blind_check .eof) fun _ => ?_
  refine .bind_same blind_currentKind fun _ => ?_
  exact blind_failing _ _

/-- A semicolon is missing only within a line, and not at the end of the text. -/
theorem semicolon_apply (s : State) : semicolon s =
    if s.current.kind.is .semicolon then (some (), s.advanced)
    else if s.current.kind.is .eof || s.current.kind.is .closeBrace || s.breaks then (some (), s)
    else report .unexpectedToken s!"expected ';', got '{s.current.kind.render}'" s := by
  by_cases hHere : s.current.kind.is .semicolon
  · have hEat : eat .semicolon s = (some true, s.advanced) := (eat_apply _ s).trans (if_pos hHere)
    show (eat .semicolon >>= _) s = _
    rw [bind_of_some hEat, if_pos hHere]
    rfl
  · have hEat : eat .semicolon s = (some false, s) := (eat_apply _ s).trans (if_neg hHere)
    show (eat .semicolon >>= _) s = _
    rw [bind_of_some hEat, if_neg hHere]
    show (if s.current.kind.is .eof || s.current.kind.is .closeBrace || s.breaks then _ else _ :
      Parser Unit) s = _
    split <;> rfl

/-- The one rule for which the line has to be known. -/
theorem blind_semicolon : Blind true true ignore semicolon semicolon := by
  intro s s' h
  have hOmitted : (s.current.kind.is .eof || s.current.kind.is .closeBrace || s.breaks) =
      (s'.current.kind.is .eof || s'.current.kind.is .closeBrace || s'.breaks) := by
    by_cases hEnd : s.current.kind = .symbol .eof
    · rw [← h.kind, hEnd]
      rfl
    · rw [h.breaks rfl hEnd, h.kind]
  rw [semicolon_apply, semicolon_apply, ← hOmitted, ← h.kind]
  split
  · exact .passed rfl h.advanced
  · split
    · exact .passed rfl h
    · exact blind_report _ _ s s' h

/-- A name is the same up to its place. -/
theorem blind_identifier : Blind b true Ident.withoutSpan identifier identifier := by
  refine .bind_same blind_currentKind fun k => ?_
  cases k.name? with
  | some name => exact .bind blind_advance fun _ _ _ => .pure rfl
  | none => exact .bind_same blind_currentKind fun _ => blind_failing _ _

/-- A name to be declared. Whether it is reserved depends on the name alone. -/
theorem blind_bindingName : Blind b true Ident.withoutSpan bindingName bindingName := by
  -- behind the name, the rules differ in the place of their report
  have hRest (name name' : Ident) (hName : name.withoutSpan = name'.withoutSpan) :
      Blind true true Ident.withoutSpan
        (do if reservedNames.contains name.name then
              let text := name.name
              reportAt .reservedName s!"'{text}' is reserved and cannot be declared" name.span
              if text = Symbol.cut.spelling then fail
            return name)
        (do if reservedNames.contains name'.name then
              let text := name'.name
              reportAt .reservedName s!"'{text}' is reserved and cannot be declared" name'.span
              if text = Symbol.cut.spelling then fail
            return name') := by
    have hText : name.name = name'.name := (Ident.mk.inj hName).1
    rw [hText]
    refine .ite (fun _ => .bind (blind_reportAt _ _ _ _) fun _ _ _ => ?_) fun _ => .pure hName
    exact .ite (fun _ => .bind (v := ignore) .fail fun _ _ _ => .pure hName) fun _ => .pure hName
  refine .bind_check ?_ ?_
  · exact .bind blind_advance fun _ _ _ => .bind (v := Ident.withoutSpan) (.pure rfl) hRest
  · exact .bind blind_identifier hRest

-- ---------------------------------------------------------------------------
-- Recovery
-- ---------------------------------------------------------------------------

/-- Recovery looks at kinds. -/
theorem blind_synchronizeLoop (fuel : Nat) :
    Blind b false ignore (synchronizeLoop fuel) (synchronizeLoop fuel) := by
  induction fuel generalizing b with
  | zero => exact Blind.later (.pure rfl)
  | succ fuel ih =>
    refine .bind_same blind_currentKind fun _ => .ite (fun _ => .later (.pure rfl)) fun _ => ?_
    exact .bind_eat (.later (.pure rfl)) <| .bind blind_advance fun _ _ _ => ih

/-- It stops before the same token in both texts. -/
theorem blind_synchronize : Blind false false ignore synchronize synchronize := by
  refine .bind_same blind_rounds fun n => ?_
  exact blind_synchronizeLoop n

end Parser

end AmbScript
