import AmbScript.Proofs.Parser.Grammar

/-!
# What parsers read

How a parser moves through a text. Whatever it does, it goes on in the text and keeps what is
reported, and a failure is reported. Where nothing is reported, it has read what it gives back.

* `State.place` — the place of a text at which a parser stands.
* `Respects` — a parser keeps to a relation between the place where it starts, its result and the
  place where it stops.
* `Respects.bind` — what sequences of parsers keep to.
* `respects_…` — what each of the steps keeps to that all rules are made of.

`Respects` says nothing of the result of a reading in which something was reported. This is what
lets rules be taken apart at their recoveries: a rule that has reported may skip tokens and go on
anywhere, and the grammar does not have to account for it.
-/

namespace AmbScript.Parser

variable {α β : Type} {text : List Token}

-- ---------------------------------------------------------------------------
-- States
-- ---------------------------------------------------------------------------

namespace State

/-- The tokens before the end of the text that are still to be read. -/
def left (s : State) : List Token := (s.current :: s.ahead).takeWhile (!·.kind.is .eof)

/-- Where the parser stands. -/
def place (s : State) : Place := ⟨s.previous, s.left⟩

/-- At the end of the text nothing is left. -/
theorem left_eq_nil {s : State} (h : s.current.kind = .symbol .eof) : s.left = [] := by
  rw [left, List.takeWhile_cons_of_neg]
  simpa using Token.Kind.is_iff.mpr h

/-- Before it, the current token is the first that is left. -/
theorem left_eq_cons {s : State} (h : s.current.kind ≠ .symbol .eof) :
    s.left = s.current :: s.ahead.takeWhile (!·.kind.is .eof) := by
  rw [left, List.takeWhile_cons_of_pos]
  simpa using Token.Kind.is_eq_false.mpr h

/-- Only at the end of the text is nothing left. -/
theorem left_eq_nil_iff {s : State} : s.left = [] ↔ s.current.kind = .symbol .eof := by
  refine ⟨fun h => ?_, left_eq_nil⟩
  by_cases hk : s.current.kind = .symbol .eof
  · exact hk
  · rw [left_eq_cons hk] at h
    cases h

/-- The place shows the same token as the state. -/
theorem kind_place (s : State) : s.place.kind = s.current.kind := by
  by_cases h : s.current.kind = .symbol .eof
  · simp [Place.kind, place, left_eq_nil h, h]
  · simp [Place.kind, place, left_eq_cons h]

/-- The end of the text is not passed. -/
theorem advanced_eq_self {s : State} (h : s.current.kind = .symbol .eof) : s.advanced = s := by
  rw [advanced, if_pos (Token.Kind.is_iff.mpr h)]

/-- A text that is cut off gets an end where its last token stands. -/
theorem advanced_of_ahead_nil {s : State} (h : s.current.kind ≠ .symbol .eof)
    (ha : s.ahead = []) :
    s.advanced = { s with current := .eof s.current.span, previous := s.current.span } := by
  rw [advanced, if_neg (mt Token.Kind.is_iff.mp h), ha]

/-- Otherwise the next token becomes the current one. -/
theorem advanced_of_ahead_cons {s : State} {t : Token} {ts : List Token}
    (h : s.current.kind ≠ .symbol .eof) (ha : s.ahead = t :: ts) :
    s.advanced = { s with current := t, ahead := ts, previous := s.current.span } := by
  rw [advanced, if_neg (mt Token.Kind.is_iff.mp h), ha]

/-- One token further, the token that was current is read. -/
theorem reads_advanced {s : State} (h : s.current.kind ≠ .symbol .eof) :
    s.place.Reads s.current.kind s.advanced.place ∧ s.advanced.previous = s.current.span := by
  -- whether another token follows decides how the state is made, not what was read
  cases ha : s.ahead with
  | nil =>
    have hl : s.advanced.left = [] := left_eq_nil (by rw [advanced_of_ahead_nil h ha]; rfl)
    have hp : s.advanced.previous = s.current.span := by rw [advanced_of_ahead_nil h ha]
    refine ⟨?_, hp⟩
    show s.left = ⟨s.current.kind, s.advanced.previous⟩ :: s.advanced.left
    rw [hl, hp, left_eq_cons h, ha, List.takeWhile_nil]
  | cons t ts =>
    have hl : s.advanced.left = s.ahead.takeWhile (!·.kind.is .eof) := by
      rw [advanced_of_ahead_cons h ha, left, ha]
    have hp : s.advanced.previous = s.current.span := by rw [advanced_of_ahead_cons h ha]
    refine ⟨?_, hp⟩
    show s.left = ⟨s.current.kind, s.advanced.previous⟩ :: s.advanced.left
    rw [hl, hp, left_eq_cons h]

/-- The bound on rounds is fixed for a whole reading. -/
@[simp]
theorem rounds_advanced (s : State) : s.advanced.rounds = s.rounds := by
  unfold advanced
  split
  · rfl
  · split <;> rfl

/-- Reading reports nothing. -/
@[simp]
theorem log_advanced (s : State) : s.advanced.log = s.log := by
  unfold advanced
  split
  · rfl
  · split <;> rfl

/-- One token fewer is left, if there was one. -/
theorem left_advanced (s : State) : s.advanced.left = s.left.tail := by
  by_cases h : s.current.kind = .symbol .eof
  · rw [advanced_eq_self h, left_eq_nil h, List.tail_nil]
  · have read := (reads_advanced h).1
    exact (congrArg List.tail read).symm

/-- `t` is a later state of the same reading. -/
structure Precedes (s t : State) : Prop where
  left : t.left <:+ s.left
  rounds : t.rounds = s.rounds
  /-- All that has become of the log is that something was reported. -/
  reports : ∃ ds : List Diagnostic, t.log = ds.foldl DiagnosticLog.push s.log

/-- Every report counts, also those that are not kept. -/
theorem total_foldl_push (ds : List Diagnostic) (log : DiagnosticLog) :
    (ds.foldl DiagnosticLog.push log).total = log.total + ds.length := by
  induction ds generalizing log with
  | nil => rfl
  | cons d ds ih =>
    rw [List.foldl_cons, ih, List.length_cons]
    show log.total + 1 + ds.length = _
    omega

namespace Precedes

theorem refl (s : State) : s.Precedes s := ⟨List.suffix_refl _, rfl, [], rfl⟩

/-- The log is as it was, or something was reported. -/
theorem log {s t : State} (h : s.Precedes t) : t.log = s.log ∨ s.log.total < t.log.total := by
  obtain ⟨ds, hLog⟩ := h.reports
  cases ds with
  | nil => exact .inl hLog
  | cons d ds =>
    refine .inr ?_
    rw [hLog, total_foldl_push, List.length_cons]
    omega

/-- The number of reports never falls. -/
theorem total_le {s t : State} (h : s.Precedes t) : s.log.total ≤ t.log.total := by
  rcases h.log with h | h
  · exact Nat.le_of_eq (congrArg DiagnosticLog.total h.symm)
  · omega

/-- Later than a later state is later. -/
theorem trans {s t u : State} (h : s.Precedes t) (h' : t.Precedes u) : s.Precedes u where
  left := h'.left.trans h.left
  rounds := h'.rounds.trans h.rounds
  reports := by
    obtain ⟨ds, hLog⟩ := h.reports
    obtain ⟨ds', hLog'⟩ := h'.reports
    exact ⟨ds ++ ds', by rw [hLog', hLog, List.foldl_append]⟩

/-- A token was read. -/
theorem advanced (s : State) : s.Precedes s.advanced where
  left := by
    rw [s.left_advanced]
    exact List.tail_suffix _
  rounds := s.rounds_advanced
  reports := ⟨[], s.log_advanced⟩

end Precedes

/-- In `text`, with rounds for all tokens that are left. -/
structure In (text : List Token) (s : State) : Prop where
  left : s.left <:+ text
  rounds : s.left.length < s.rounds

namespace In

/-- What is left later is left of the same text. -/
theorem precedes {s t : State} (h : s.In text) (le : s.Precedes t) : t.In text where
  left := le.left.trans h.left
  rounds := by
    have := h.rounds
    have := le.left.length_le
    have := le.rounds
    omega

/-- A part of a text is read with the same rounds. -/
theorem mono {text' : List Token} {s : State} (h : s.In text') (le : text' <:+ text) : s.In text :=
  ⟨h.left.trans le, h.rounds⟩

end In

end State

-- ---------------------------------------------------------------------------
-- What a parser respects
-- ---------------------------------------------------------------------------

/-- How a parser may end that starts in `s`. -/
structure Outcome (R : Place → α → Place → Prop) (s : State) (y : Option α × State) : Prop where
  precedes : s.Precedes y.2
  failed : y.1 = none → 0 < y.2.log.total
  quiet : y.2.log.total = 0 → ∀ a, y.1 = some a → R s.place a y.2.place

/-- Anywhere in `text`, the parser only goes on in the text, reports why it fails, and, where
nothing is reported, has read what `R` relates to its result. -/
def Respects (text : List Token) (x : Parser α) (R : Place → α → Place → Prop) : Prop :=
  ∀ s : State, s.In text → Outcome R s (x s)

variable {R : Place → α → Place → Prop} {T : Place → β → Place → Prop}

/-- The second parser may use all that the first one has found out. -/
theorem Outcome.bind {x : Parser α} {f : α → Parser β} {s : State} (hx : Outcome R s (x s))
    (hf : ∀ a t, x s = (some a, t) →
      Outcome (fun m b q => R s.place a m → T s.place b q) t (f a t)) :
    Outcome T s ((x >>= f) s) := by
  match hxs : x s with
  | (none, t) =>
    rw [bind_of_none hxs]
    rw [hxs] at hx
    refine ⟨hx.precedes, fun _ => hx.failed rfl, fun _ b hb => ?_⟩
    cases hb
  | (some a, t) =>
    rw [bind_of_some hxs]
    rw [hxs] at hx
    have next := hf a t hxs
    refine ⟨hx.precedes.trans next.precedes, next.failed, fun quiet b hb => ?_⟩
    have le := next.precedes.total_le
    have before : t.log.total = 0 := by omega
    exact next.quiet quiet b hb (hx.quiet before a rfl)

namespace Respects

/-- What is read may be described less closely. -/
theorem mono {x : Parser α} {S : Place → α → Place → Prop} (hx : Respects text x R)
    (h : ∀ p a q, R p a q → S p a q) : Respects text x S := by
  intro s hs
  have hKept := hx s hs
  exact ⟨hKept.precedes, hKept.failed, fun quiet a ha => h _ _ _ (hKept.quiet quiet a ha)⟩

/-- A parser that keeps to a relation in a text does so in what is left of it. -/
theorem shorter {text' : List Token} {x : Parser α} (hx : Respects text x R)
    (le : text' <:+ text) : Respects text' x R := fun s hs => hx s (hs.mono le)

/-- Where a parser starts in `text`, part of it is left. -/
theorem located {x : Parser α} (hx : Respects text x R) :
    Respects text x fun p a q => p.left <:+ text ∧ R p a q := by
  intro s hs
  have hKept := hx s hs
  exact ⟨hKept.precedes, hKept.failed, fun quiet a ha => ⟨hs.left, hKept.quiet quiet a ha⟩⟩

/-- What the first parser reads is known when the second one starts; nothing else is. -/
theorem bind {x : Parser α} {f : α → Parser β} (hx : Respects text x R)
    (hf : ∀ a, Respects text (f a) fun m b q => ∀ p, R p a m → T p b q) :
    Respects text (x >>= f) T := by
  intro s hs
  refine (hx s hs).bind fun a t hxs => ?_
  have inText : t.In text := hs.precedes (by simpa [hxs] using (hx s hs).precedes)
  have next := hf a t inText
  exact ⟨next.precedes, next.failed, fun quiet b hb => next.quiet quiet b hb s.place⟩

/-- A rule that gives a result stands where it stood. -/
theorem pure {a : α} (h : ∀ p, R p a p) : Respects text (pure a) R := by
  refine fun s _ => ⟨.refl s, fun failed => ?_, fun _ b hb => ?_⟩
  · cases failed
  · cases hb
    exact h s.place

/-- What is read is the same; the result is another. -/
theorem map {x : Parser α} {f : α → β} (hx : Respects text x R) :
    Respects text (f <$> x) fun p b q => ∃ a, b = f a ∧ R p a q := by
  refine hx.bind fun a => ?_
  refine .pure fun _ _ read => ?_
  exact ⟨a, rfl, read⟩

/-- Both branches may rely on how the test came out. -/
theorem ite {c : Prop} [Decidable c] {x y : Parser α} (hx : c → Respects text x R)
    (hy : ¬c → Respects text y R) : Respects text (if c then x else y) R := by
  split
  · exact hx ‹c›
  · exact hy ‹¬c›

/-- What is seen of a state in which nothing was reported. -/
theorem look {f : State → α}
    (h : ∀ s : State, s.In text → s.log.total = 0 → R s.place (f s) s.place) :
    Respects text (look f) R := by
  refine fun s hs => ⟨.refl s, fun failed => ?_, fun quiet b hb => ?_⟩
  · cases failed
  · cases hb
    exact h s hs quiet

/-- Every rule moves and reports as it should; what it read may be forgotten. -/
theorem anything {x : Parser α} (hx : Respects text x R) : Respects text x fun _ _ _ => True :=
  hx.mono fun _ _ _ _ => trivial

/-- To look anywhere moves nothing. -/
theorem seen {f : State → α} : Respects text (Parser.look f) fun _ _ _ => True :=
  .look fun _ _ _ => trivial

/-- A parser that fails has reported something, so nothing is to be shown of what it gives. -/
theorem attempt {x : Parser α} (hx : Respects text x R) :
    Respects text (attempt x) fun p o q => ∃ a, o = some a ∧ R p a q := by
  intro s hs
  have read := hx s hs
  refine ⟨read.precedes, fun failed => ?_, fun quiet o ho => ?_⟩
  · cases failed
  · cases ho
    have quiet : (x s).2.log.total = 0 := quiet
    cases hxs : (x s).1 with
    | none =>
      have := read.failed hxs
      omega
    | some a => exact ⟨a, rfl, read.quiet quiet a hxs⟩

end Respects

-- ---------------------------------------------------------------------------
-- Reading
-- ---------------------------------------------------------------------------

/-- The kind that is seen is that of the place. -/
theorem respects_currentKind :
    Respects text currentKind fun p k q => q = p ∧ k = p.kind :=
  .look fun s _ _ => ⟨rfl, s.kind_place.symm⟩

/-- The place of the token that is seen is where the place behind it begins. -/
theorem respects_current :
    Respects text (look (·.current)) fun p t q =>
      q = p ∧ t.kind = p.kind ∧ ∀ k m, p.Reads k m → t.span = m.previous := by
  refine .look fun s _ _ => ⟨rfl, s.kind_place.symm, fun k m h => ?_⟩
  by_cases he : s.current.kind = .symbol .eof
  · have : s.left = _ := h
    simp [s.left_eq_nil he] at this
  · have : s.left = _ := h
    rw [s.left_eq_cons he] at this
    exact congrArg Token.span (List.cons.inj this).1

theorem respects_currentSpan :
    Respects text currentSpan fun p span q =>
      q = p ∧ ∀ k m, p.Reads k m → span = m.previous := by
  refine .look fun s hs quiet => ?_
  obtain ⟨same, -, spans⟩ := (respects_current s hs).quiet quiet s.current rfl
  exact ⟨same, spans⟩

/-- The place of the token read last is kept in the place. -/
theorem respects_previousSpan :
    Respects text previousSpan fun p span q => q = p ∧ span = p.previous :=
  .look fun _ _ _ => ⟨rfl, rfl⟩

/-- There are more rounds than tokens left. -/
theorem respects_rounds : Respects text rounds fun p n q => q = p ∧ p.left.length < n :=
  .look fun _ hs _ => ⟨rfl, hs.rounds⟩

/-- Whether a symbol comes next. -/
theorem respects_check {x : Symbol} :
    Respects text (check x) fun p b q => q = p ∧ (b = true ↔ p.kind = .symbol x) := by
  refine .look fun s _ _ => ⟨rfl, ?_⟩
  rw [s.kind_place]
  exact Token.Kind.is_iff

/-- Whether nothing is left. -/
theorem respects_atEnd : Respects text atEnd fun p b q => q = p ∧ (b = true ↔ p.left = []) := by
  refine .look fun s _ _ => ⟨rfl, ?_⟩
  exact Token.Kind.is_iff.trans State.left_eq_nil_iff.symm

/-- Behind the word `function`, a name makes a declaration. -/
theorem respects_nextIsName :
    Respects text nextIsName fun p b q =>
      q = p ∧ (p.kind = .symbol .function → (b = true ↔ p.Declares)) := by
  refine .look fun s _ _ => ⟨rfl, fun here => ?_⟩
  rw [s.kind_place] at here
  have left : s.place.left = s.current :: s.ahead.takeWhile (!·.kind.is .eof) :=
    State.left_eq_cons (by simp [here])
  show s.ahead.head?.any (·.kind.isName) = true ↔ _
  -- the parser looks at the token behind the current one, which the place holds as its second
  cases ha : s.ahead with
  | nil =>
    refine ⟨fun h => by simp at h, ?_⟩
    rintro ⟨m, q, name, keyword, named⟩
    rw [Place.Reads, left, ha] at keyword
    rw [Place.Reads, ← (List.cons.inj keyword).2] at named
    simp at named
  | cons t ts =>
    simp only [List.head?_cons, Option.any_some, Token.Kind.isName_iff]
    constructor
    · rintro ⟨name, hn⟩
      have : t.kind.is .eof = false := by simp [hn, Token.Kind.is]
      refine ⟨⟨s.current.span, t :: ts.takeWhile (!·.kind.is .eof)⟩,
        ⟨t.span, ts.takeWhile (!·.kind.is .eof)⟩, name, ?_, ?_⟩
      · rw [Place.Reads, left, ha, ← here, List.takeWhile_cons_of_pos (by simp [this])]
      · rw [Place.Reads, ← hn]
    · rintro ⟨m, q, name, keyword, named⟩
      rw [Place.Reads, left, ha] at keyword
      rw [Place.Reads, ← (List.cons.inj keyword).2, List.takeWhile_cons] at named
      split at named
      · exact ⟨name, congrArg Token.kind (List.cons.inj named).1⟩
      · cases named

/-- A log in which nothing was reported has room. -/
theorem respects_logIsFull : Respects text logIsFull fun p b q => q = p ∧ b = false := by
  refine .look fun s _ quiet => ⟨rfl, ?_⟩
  simp [DiagnosticLog.isFull, quiet, maxErrors]

/-- Reads the current token, except at the end of the text. -/
theorem respects_advance :
    Respects text advance fun p t q =>
      t.kind = p.kind ∧ (p.kind ≠ .symbol .eof → p.Reads t.kind q ∧ t.span = q.previous) := by
  refine fun s hs => ⟨.advanced s, fun failed => ?_, fun _ t ht => ?_⟩
  · cases failed
  · cases ht
    refine ⟨s.kind_place.symm, fun h => ?_⟩
    rw [s.kind_place] at h
    obtain ⟨read, span⟩ := State.reads_advanced h
    exact ⟨read, span.symm⟩

/-- Reads a token that was seen to be there. -/
theorem respects_advance_of {k : Token.Kind} (hk : k ≠ .symbol .eof) :
    Respects text advance fun p t q =>
      p.kind = k → p.Reads k q ∧ t.kind = k ∧ t.span = q.previous := by
  refine respects_advance.mono fun p t q h hp => ?_
  obtain ⟨same, reads⟩ := h
  obtain ⟨read, span⟩ := reads (hp ▸ hk)
  have : t.kind = k := same.trans hp
  exact ⟨this ▸ read, this, span⟩

/-- A symbol is read if it comes next; otherwise nothing is. -/
theorem respects_eat {x : Symbol} (hx : x ≠ .eof) :
    Respects text (eat x) fun p b q =>
      (b = true → p.Reads (.symbol x) q) ∧ (¬b = true → q = p ∧ p.kind ≠ .symbol x) := by
  refine .bind respects_check fun b => .ite (fun found => ?_) fun missing => .pure ?_
  · refine .bind (respects_advance_of (k := .symbol x) (by simpa using hx)) fun t => .pure ?_
    rintro q m read p ⟨rfl, here⟩
    exact ⟨fun _ => (read (here.mp found)).1, fun h => (h rfl).elim⟩
  · rintro q p ⟨rfl, here⟩
    exact ⟨fun h => (nomatch h), fun _ => ⟨rfl, mt here.mpr missing⟩⟩

/-- What `eat` does, in one equation. -/
theorem eat_apply (x : Symbol) (s : State) :
    eat x s = if s.current.kind.is x then (some true, s.advanced) else (some false, s) := by
  show (if s.current.kind.is x then _ else _ : Parser Bool) s = _
  split <;> rfl

/-- What is behind a token is a shorter text, on which a recursion may rely. -/
theorem Respects.bind_eat {x : Symbol} (hx : x ≠ .eof) {y z : Parser α}
    (hy : ∀ text', text' <:+ text → text'.length < text.length →
      Respects text' y fun m a q => ∀ p, p.Reads (.symbol x) m → R p a q)
    (hz : Respects text z fun m a q => m.kind ≠ .symbol x → R m a q) :
    Respects text (eat x >>= fun b => if b = true then y else z) R := by
  refine fun s hs => (respects_eat hx s hs).bind fun b t hst => ?_
  have inText : t.In text := hs.precedes (by simpa [hst] using (respects_eat hx s hs).precedes)
  rw [eat_apply] at hst
  split at hst
  -- the symbol was read, so the rest is read of a shorter text
  · rename_i found
    cases hst
    have here : s.current.kind ≠ .symbol .eof := by simpa [Token.Kind.is_iff.mp found] using hx
    have shorter : s.advanced.left.length < text.length := by
      have := (State.reads_advanced here).1.length
      have := hs.left.length_le
      show s.advanced.place.left.length < text.length
      simp only [State.place] at *
      omega
    have next := hy _ inText.left shorter s.advanced ⟨List.suffix_refl _, inText.rounds⟩
    exact ⟨next.precedes, next.failed,
      fun quiet a ha eaten => next.quiet quiet a ha _ (eaten.1 rfl)⟩
  · cases hst
    have next := hz s hs
    exact ⟨next.precedes, next.failed, fun quiet a ha eaten =>
      next.quiet quiet a ha (eaten.2 (by simp)).2⟩

/-- There are as many rounds as the text that is left takes. -/
theorem Respects.bind_rounds {f : Nat → Parser α}
    (hf : ∀ text' n, text' <:+ text → text'.length < n → Respects text' (f n) R) :
    Respects text (rounds >>= f) R := by
  intro s hs
  exact hf s.left s.rounds hs.left hs.rounds s ⟨List.suffix_refl _, hs.rounds⟩

-- ---------------------------------------------------------------------------
-- Reporting
-- ---------------------------------------------------------------------------

/-- After a report nothing is to be shown. -/
theorem respects_reportAt {code : Code} {message : String} {span : Span} :
    Respects text (reportAt code message span) fun _ _ _ => False := by
  refine fun s hs => ⟨⟨List.suffix_refl _, rfl, [_], rfl⟩, fun failed => ?_, fun quiet => ?_⟩
  · cases failed
  · have quiet : s.log.total + 1 = 0 := quiet
    omega

/-- A report at the token that comes next, the same way. -/
theorem respects_report {code : Code} {message : String} :
    Respects text (report code message) fun _ _ _ => False := by
  refine .bind .seen fun _ => ?_
  refine respects_reportAt.mono fun _ _ _ h => ?_
  exact h.elim

/-- To fail with a report respects everything. -/
theorem Respects.failing {x : Parser α} {R : Place → β → Place → Prop}
    (hx : Respects text x fun _ _ _ => False) : Respects text (x >>= fun _ => fail) R := by
  intro s hs
  have read := hx s hs
  match hxs : x s with
  | (none, t) =>
    rw [hxs] at read
    rw [bind_of_none hxs]
    exact ⟨read.precedes, fun _ => read.failed rfl, fun _ _ h => nomatch h⟩
  | (some a, t) =>
    rw [hxs] at read
    rw [bind_of_some hxs]
    refine ⟨read.precedes, fun _ => ?_, fun _ _ h => nomatch h⟩
    -- a quiet report is a contradiction, and any other one is what a failure needs
    by_cases quiet : t.log.total = 0
    · exact (read.quiet quiet a rfl).elim
    · show 0 < t.log.total
      omega

-- ---------------------------------------------------------------------------
-- Expectations
-- ---------------------------------------------------------------------------

/-- Where nothing was reported, the symbol was there. -/
theorem respects_expect {x : Symbol} (hx : x ≠ .eof) :
    Respects text (expect x) fun p _ q => p.Reads (.symbol x) q := by
  refine .bind (respects_eat hx) fun b => .ite (fun eaten => .pure ?_) fun _ => ?_
  · intro q p read
    exact read.1 eaten
  · exact .bind .seen fun _ =>
      .bind .seen fun _ => .failing respects_report

/-- A semicolon is read, or may be left out where the statement ends: at the end of the text, before
a closing brace, or where a line begins. -/
theorem respects_semicolon : Respects text semicolon fun p _ q => p.Ends q := by
  refine .bind respects_previousSpan fun previous => .bind respects_atEnd fun atEnd =>
    .bind respects_check fun closes => .bind respects_currentSpan fun span =>
    .bind (respects_eat (by decide)) fun eaten => .ite (fun found => .pure ?_) fun missing =>
    .ite (fun omitted => .pure ?_) fun _ => ?_
  · rintro q m ⟨read, -⟩ _ ⟨rfl, -⟩ _ ⟨rfl, -⟩ _ ⟨rfl, -⟩ _ ⟨rfl, -⟩
    exact .inl (read found)
  · rintro q m ⟨-, unread⟩ _ ⟨rfl, spans⟩ _ ⟨rfl, closing⟩ _ ⟨rfl, ended⟩ _ ⟨rfl, rfl⟩
    obtain ⟨rfl, noSemicolon⟩ := unread missing
    refine .inr ⟨noSemicolon, ?_, rfl⟩
    simp only [Bool.or_eq_true, decide_eq_true_eq] at omitted
    rcases omitted with (h | h) | h
    · exact .inl (ended.mp h)
    · exact .inr (.inl (closing.mp h))
    · match hl : q.left with
      | [] => exact .inl hl
      | t :: ts =>
        have here : span = t.span := spans t.kind ⟨t.span, ts⟩ hl
        exact .inr (.inr ⟨t, by simp [hl], here ▸ h⟩)
  -- neither a semicolon nor a place where it may be left out: reported
  · exact .bind .seen fun _ =>
      respects_report.mono fun _ _ _ h => h.elim

/-- A name is read, and it stands where its token stood. -/
theorem respects_identifier :
    Respects text identifier fun p name q =>
      p.Reads (.name name.name) q ∧ name.span = q.previous := by
  refine .bind respects_currentKind fun k => ?_
  match k with
  | .name name =>
    refine .bind (respects_advance_of (k := .name name) (by simp)) fun t => .pure ?_
    rintro q p read m ⟨rfl, here⟩
    obtain ⟨read, -, span⟩ := read here.symm
    exact ⟨read, span⟩
  | .number _ | .string _ | .symbol _ =>
    exact .bind .seen fun _ =>
      .failing respects_report

/-- The second half of `bindingName`: a reserved name is reported, so only a name that may be
declared is given back. -/
theorem respects_unreserved {R : Place → Ident → Place → Prop} (name : Ident)
    (h : ∀ p, name.name ∉ reservedNames → R p name p) :
    Respects text
      (if reservedNames.contains name.name = true then do
        reportAt .reservedName s!"'{name.name}' is reserved and cannot be declared" name.span
        if name.name = Symbol.cut.spelling then do fail
        pure name
      else pure name) R := by
  refine .ite (fun _ => ?_) fun free => .pure fun p => h p (by simpa using free)
  by_cases cut : name.name = Symbol.cut.spelling
  · simp only [if_pos cut]
    exact .failing respects_reportAt
  · simp only [if_neg cut]
    exact .bind respects_reportAt fun _ => .pure fun _ _ h => h.elim

/-- A name is read that a declaration may have. -/
theorem respects_bindingName : Respects text bindingName fun p name q => p.Binds name q := by
  refine .bind respects_check fun isCut => .ite (fun _ => ?_) fun _ => ?_
  · refine .bind respects_advance.anything fun t => ?_
    exact respects_unreserved ⟨Symbol.cut.spelling, t.span⟩ fun p free =>
      (free (show Symbol.cut.spelling ∈ reservedNames by decide)).elim
  · refine .bind respects_identifier fun name => respects_unreserved name fun q free => ?_
    rintro p ⟨read, span⟩ _ ⟨rfl, -⟩
    exact ⟨read, span, free⟩

-- ---------------------------------------------------------------------------
-- Recovery
-- ---------------------------------------------------------------------------

/-- To skip tokens is to go on in the text. -/
theorem respects_synchronizeLoop (fuel : Nat) :
    Respects text (synchronizeLoop fuel) fun _ _ _ => True := by
  induction fuel with
  | zero => exact .pure fun _ => trivial
  | succ fuel ih =>
    refine .bind .seen fun _ =>
      .ite (fun _ => .pure fun _ _ _ => trivial) fun _ =>
      .bind (respects_eat (by decide)) fun _ => .ite (fun _ => .pure fun _ _ _ _ _ => trivial)
      fun _ => .bind respects_advance fun _ => ?_
    exact ih.mono fun _ _ _ _ _ _ _ _ _ _ => trivial

/-- Recovery goes on in the text and is not described further. -/
theorem respects_synchronize : Respects text synchronize fun _ _ _ => True := by
  refine .bind respects_rounds fun _ => ?_
  refine (respects_synchronizeLoop _).mono fun _ _ _ _ _ _ => ?_
  exact trivial

end AmbScript.Parser
