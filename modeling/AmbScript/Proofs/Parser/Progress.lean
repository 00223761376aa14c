import AmbScript.Proofs.Parser.Endless
import AmbScript.Proofs.Parser.Reading

/-!
# Rules that get further

A rule goes on in the text, and it reports why it fails. Many rules are known to have read something
where they give a result. So a loop that reads in every round takes no more rounds than there are
tokens left, and it ends without a bound on its rounds as it does with one.

* `State.credit` — the rounds that the tokens left and the reports still to be made allow.
* `Proceeds` — a rule goes on in the text, reports why it fails, and may be known to read.
* `Ends` — a rule without bounds ends, with the outcome of the bounded one, which proceeds.
* `Ends.bind_reading`, `Ends.bind_eat` — behind what is read, fewer rounds are needed.
* `Ends.bind_rounds` — a loop that ends within all bounds that are enough.

Two things are used up while a text is read: its tokens, and the room in the log. A loop over tokens
uses the former. The loop over statements may use the latter instead, which is why their sum bounds
both, and why `Ends` is stated for a number of rounds that are still needed: it is what the
inductions over the bounded loops run on.
-/

namespace AmbScript.Parser

variable {α β : Type} {b c : Bool} {n : Nat}

-- ---------------------------------------------------------------------------
-- Getting further
-- ---------------------------------------------------------------------------

/-- The tokens that are left and the reports that may still be made: so many rounds may a loop still
take that uses up one of these in each of them. -/
def State.credit (s : State) : Nat := s.left.length + (maxErrors - s.log.total)

/-- There are rounds enough for every loop. -/
def State.Roomy (s : State) : Prop := s.credit < s.rounds

/-- Nothing is given back: neither tokens nor room in the log. -/
theorem State.Precedes.credit_le {s t : State} (h : s.Precedes t) : t.credit ≤ s.credit := by
  have hLeft := h.left.length_le
  have hTotal := h.total_le
  unfold State.credit
  omega

/-- A token that was read is used up for good. -/
theorem State.Precedes.credit_lt {s t : State} (h : s.Precedes t)
    (hLess : t.left.length < s.left.length) : t.credit < s.credit := by
  have hTotal := h.total_le
  unfold State.credit
  omega

/-- Rounds that were enough stay enough. -/
theorem State.Precedes.roomy {s t : State} (h : s.Precedes t) (hs : s.Roomy) : t.Roomy := by
  have hCredit := h.credit_le
  have hRounds := h.rounds
  unfold State.Roomy at hs ⊢
  omega

/-- Before the end of the text, a token can be read. -/
theorem State.left_advanced_lt {s : State} (h : s.current.kind ≠ .symbol .eof) :
    s.advanced.left.length < s.left.length := by
  rw [s.left_advanced, List.length_tail, s.left_eq_cons h, List.length_cons]
  omega

/-- What a rule has done that started in `s`: it goes on in the text, it reports why it fails, and
where it is known to read, its result is something that was read. -/
structure Proceeded (reads : Bool) (s : State) (y : Option α × State) : Prop where
  precedes : s.Precedes y.2
  failed : y.1 = none → s.log.total < y.2.log.total
  reads : reads = true → ∀ a, y.1 = some a → y.2.left.length < s.left.length

namespace Proceeded

variable {s t : State} {y : Option α × State}

/-- That something was read may be forgotten. -/
theorem weaken (h : Proceeded b s y) : Proceeded false s y := ⟨h.precedes, h.failed, nofun⟩

/-- What was done before `t` does not count less. -/
theorem behind (hs : s.Precedes t) (h : Proceeded b t y) : Proceeded b s y where
  precedes := hs.trans h.precedes
  failed hNone := Nat.lt_of_le_of_lt hs.total_le (h.failed hNone)
  reads hReads a ha := Nat.lt_of_lt_of_le (h.reads hReads a ha) hs.left.length_le

/-- Something was read before `t`. -/
theorem behind_reading (hs : s.Precedes t) (hLess : t.left.length < s.left.length)
    (h : Proceeded b t y) : Proceeded c s y where
  precedes := hs.trans h.precedes
  failed hNone := Nat.lt_of_le_of_lt hs.total_le (h.failed hNone)
  reads _ _ _ := Nat.lt_of_le_of_lt h.precedes.left.length_le hLess

end Proceeded

/-- The rule without bounds ends, with an outcome of the bounded one that proceeds. -/
structure Ended (reads : Bool) (s : State) (o : Option (Option α × State)) (y : Option α × State) :
    Prop where
  ends : o = some y
  proceeded : Proceeded reads s y

namespace Endless

/-- A rule without bounds that gives a result goes on with it. -/
theorem bind_of_some {u : Endless α} {f : α → Endless β} {s t : State} {a : α}
    (h : u s = some (some a, t)) : (u >>= f) s = f a t := by
  show Option.bind (u s) _ = _
  rw [h]
  rfl

/-- One that fails ends the sequence. -/
theorem bind_of_none {u : Endless α} {f : α → Endless β} {s t : State}
    (h : u s = some (none, t)) : (u >>= f) s = some (none, t) := by
  show Option.bind (u s) _ = _
  rw [h]
  rfl

end Endless

/-- In sequence both stay together: the second rule starts in the same later state. -/
theorem Ended.bind {u : Endless α} {x : Parser α} {f : α → Endless β} {g : α → Parser β} {s : State}
    (h : Ended c s (u s) (x s))
    (hf : ∀ a t, s.Precedes t → (c = true → t.left.length < s.left.length) →
      Ended b s (f a t) (g a t)) : Ended b s ((u >>= f) s) ((x >>= g) s) := by
  obtain ⟨hEnds, hPrecedes, hFailed, hReads⟩ := h
  match hxs : x s with
  | (none, t) =>
    rw [hxs] at hEnds hPrecedes hFailed
    rw [bind_of_none hxs, Endless.bind_of_none hEnds]
    exact ⟨rfl, hPrecedes, fun _ => hFailed rfl, nofun⟩
  | (some a, t) =>
    rw [hxs] at hEnds hPrecedes hReads
    rw [bind_of_some hxs, Endless.bind_of_some hEnds]
    exact hf a t hPrecedes fun hc => hReads hc a rfl

theorem Proceeded.bind {x : Parser α} {g : α → Parser β} {s : State} (h : Proceeded c s (x s))
    (hg : ∀ a t, s.Precedes t → (c = true → t.left.length < s.left.length) →
      Proceeded b s (g a t)) : Proceeded b s ((x >>= g) s) := by
  have hOnce : Ended c s (Endless.once x s) (x s) := ⟨rfl, h⟩
  have hEnded := hOnce.bind (f := fun a => Endless.once (g a)) (g := g)
    fun a t hPrecedes hLess => ⟨rfl, hg a t hPrecedes hLess⟩
  exact hEnded.proceeded

/-- A rule that always proceeds. -/
def Proceeds (reads : Bool) (x : Parser α) : Prop := ∀ s, Proceeded reads s (x s)

namespace Proceeds

variable {x y : Parser α} {f : α → Parser β}

theorem pure {a : α} : Proceeds false (pure a) := fun s => ⟨.refl s, nofun, nofun⟩

theorem look {f : State → α} : Proceeds false (look f) := fun s => ⟨.refl s, nofun, nofun⟩

theorem weaken (h : Proceeds b x) : Proceeds false x := fun s => (h s).weaken

/-- One rule after the other. Whether the second one reads decides. -/
theorem bind (hx : Proceeds c x) (hf : ∀ a, Proceeds b (f a)) : Proceeds b (x >>= f) := by
  intro s
  refine (hx s).bind fun a t hPrecedes _ => ?_
  exact (hf a t).behind hPrecedes

/-- Where the first rule reads, both do. -/
theorem bind_reading (hx : Proceeds true x) (hf : ∀ a, Proceeds c (f a)) : Proceeds b (x >>= f) := by
  intro s
  refine (hx s).bind fun a t hPrecedes hLess => ?_
  exact (hf a t).behind_reading hPrecedes (hLess rfl)

/-- Both branches may rely on how the test came out. -/
theorem ite {p : Prop} [Decidable p] (hx : p → Proceeds b x) (hy : ¬p → Proceeds b y) :
    Proceeds b (if p then x else y) := by
  split
  · exact hx ‹p›
  · exact hy ‹¬p›

/-- A token is read, unless the text is at its end. -/
theorem advance : Proceeds false advance := fun s => ⟨.advanced s, nofun, nofun⟩

/-- What comes next decides how it goes on. -/
theorem bind_kind {f : Token.Kind → Parser β}
    (hf : ∀ k s, s.current.kind = k → Proceeded b s (f k s)) : Proceeds b (currentKind >>= f) :=
  fun s => hf s.current.kind s rfl

/-- A symbol that was seen is the token that comes next. -/
theorem bind_check {z : Symbol}
    (hx : ∀ s : State, s.current.kind = .symbol z → Proceeded b s (x s)) (hy : Proceeds b y) :
    Proceeds b (check z >>= fun e => if e = true then x else y) := by
  intro s
  show Proceeded b s ((if s.current.kind.is z then x else y) s)
  split
  · exact hx s (Token.Kind.is_iff.mp ‹_›)
  · exact hy s

/-- A symbol that was eaten was read, whatever follows. -/
theorem bind_eat {z : Symbol} (hz : z ≠ .eof) (hx : Proceeds c x) (hy : Proceeds b y) :
    Proceeds b (eat z >>= fun e => if e = true then x else y) := by
  intro s
  by_cases hHere : s.current.kind.is z
  · have hEat : eat z s = (some true, s.advanced) := (eat_apply z s).trans (if_pos hHere)
    have hKind : s.current.kind ≠ .symbol .eof := by
      rw [Token.Kind.is_iff.mp hHere]
      exact fun h => hz (Token.Kind.symbol.inj h)
    rw [bind_of_some hEat]
    exact (hx s.advanced).behind_reading (.advanced s) (State.left_advanced_lt hKind)
  · have hEat : eat z s = (some false, s) := (eat_apply z s).trans (if_neg hHere)
    rw [bind_of_some hEat]
    exact hy s

/-- A report leaves the text where it is. -/
theorem reportAt (code : Code) (message : String) (span : Span) :
    Proceeds false (reportAt code message span) := by
  intro _
  exact ⟨⟨List.suffix_refl _, rfl, [_], rfl⟩, nofun, nofun⟩

theorem report (code : Code) (message : String) : Proceeds false (report code message) :=
  .bind .look fun _ => reportAt _ _ _

/-- To report at a place and to fail. -/
theorem failingAt (code : Code) (message : String) (span : Span) :
    Proceeds b (do Parser.reportAt code message span; (fail : Parser α)) := by
  intro _
  refine ⟨⟨List.suffix_refl _, rfl, [_], rfl⟩, ?_, nofun⟩
  intro _
  exact Nat.lt_succ_self _

/-- To report and to fail. -/
theorem failing (code : Code) (message : String) :
    Proceeds b (do Parser.report code message; (fail : Parser α)) := by
  intro s
  exact failingAt code message s.current.span s

/-- Before the end of the text, to read a token gets further. -/
theorem bind_advance {f : Token → Parser β} {s : State} (h : s.current.kind ≠ .symbol .eof)
    (hf : ∀ t, Proceeds c (f t)) : Proceeded b s ((Parser.advance >>= f) s) :=
  (hf s.current s.advanced).behind_reading (.advanced s) (State.left_advanced_lt h)

/-- The symbol is read, or it is reported. -/
theorem expect {z : Symbol} (hz : z ≠ .eof) : Proceeds true (expect z) := by
  refine .bind_eat hz .pure ?_
  refine .bind .look fun _ => ?_
  refine .bind .look fun _ => ?_
  exact .failing _ _

/-- A semicolon may be left out, so nothing may be read. -/
theorem semicolon : Proceeds false semicolon := by
  refine .bind .look fun _ => ?_
  refine .bind .look fun _ => ?_
  refine .bind .look fun _ => ?_
  refine .bind .look fun _ => ?_
  refine .bind_eat nofun .pure (.ite (fun _ => .pure) fun _ => ?_)
  exact .bind .look fun _ => .report _ _

/-- A name is read, or something is reported. -/
theorem identifier : Proceeds true identifier := by
  refine bind_kind fun k s hKind => ?_
  cases hName : k.name? with
  | some name =>
    refine bind_advance (fun hEnd => ?_) fun _ => .pure
    rw [← hKind, hEnd] at hName
    cases hName
  | none => exact Proceeds.bind .look (fun _ => .failing _ _) s

/-- A name to be declared is read, also a reserved one that is reported. -/
theorem bindingName : Proceeds true bindingName := by
  have hRest (name : Ident) : Proceeds false
      (do if reservedNames.contains name.name then
            let text := name.name
            Parser.reportAt .reservedName s!"'{text}' is reserved and cannot be declared" name.span
            if text = Symbol.cut.spelling then Parser.fail
          return name) := by
    refine .ite (fun _ => ?_) fun _ => .pure
    by_cases hCut : name.name = Symbol.cut.spelling
    · simp only [if_pos hCut]
      exact failingAt _ _ _
    · simp only [if_neg hCut]
      exact .bind (.reportAt _ _ _) fun _ => .pure
  -- the word `cut` is taken as a name here, so that what is reported is that it is reserved
  refine bind_check (fun s hHere => ?_) (.bind_reading .identifier hRest)
  exact bind_advance (by rw [hHere]; nofun) fun t => hRest ⟨Symbol.cut.spelling, t.span⟩

/-- A function may have no name. -/
theorem functionName? : Proceeds false functionName? := by
  refine .bind .look fun _ => ?_
  refine .ite ?_ ?_
  · intro _
    refine .bind (.weaken .bindingName) fun _ => ?_
    exact .pure
  · intro _
    exact .pure

end Proceeds

/-- `break` and `continue` read their word. -/
theorem proceeded_jumpStatement (pl : Placement) {s : State} (h : s.current.kind ≠ .symbol .eof) :
    Proceeded true s (jumpStatement pl s) := by
  refine Proceeds.bind_advance (c := false) h fun token => .ite (fun _ => ?_) fun _ => ?_
  · exact .bind (.reportAt _ _ _) fun _ => .bind .semicolon fun _ => .pure
  · exact .bind .semicolon fun _ => .pure

/-- `cut` reads its word. -/
theorem proceeded_cutStatement {s : State} (h : s.current.kind ≠ .symbol .eof) :
    Proceeded true s (cutStatement s) := by
  refine Proceeds.bind_advance (c := false) h fun _ => ?_
  exact .bind .semicolon fun _ => .pure

-- ---------------------------------------------------------------------------
-- Rules that end
-- ---------------------------------------------------------------------------

/-- Where loops have rounds enough, and no more than `n` are needed, the rule without bounds ends
with the outcome of the bounded one. -/
def Ends (n : Nat) (reads : Bool) (u : Endless α) (x : Parser α) : Prop :=
  ∀ s : State, s.Roomy → s.credit ≤ n → Ended reads s (u s) (x s)

/-- Before the end of the text, fewer rounds are needed behind a token. -/
theorem Ended.bind_advance {f : Token → Endless α} {g : Token → Parser α} {s : State} (hs : s.Roomy)
    (hn : s.credit ≤ n) (h : s.current.kind ≠ .symbol .eof)
    (hf : ∀ t, ∀ m < n, Ends m false (f t) (g t)) :
    Ended b s ((Endless.once advance >>= f) s) ((advance >>= g) s) := by
  have hPrecedes := State.Precedes.advanced s
  have hLess := State.left_advanced_lt h
  have hCredit := Nat.lt_of_lt_of_le (hPrecedes.credit_lt hLess) hn
  have hRest := hf s.current _ hCredit s.advanced (hPrecedes.roomy hs) (Nat.le_refl _)
  exact ⟨hRest.ends, hRest.proceeded.behind_reading hPrecedes hLess⟩

/-- Behind a symbol that was eaten, fewer rounds are needed. -/
theorem Ended.bind_eat {u v : Endless α} {x y : Parser α} {z : Symbol} {s : State} (hz : z ≠ .eof)
    (hs : s.Roomy) (hn : s.credit ≤ n) (hx : ∀ m < n, Ends m false u x)
    (hy : Ended b s (v s) (y s)) :
    Ended b s ((Endless.once (eat z) >>= fun e => if e = true then u else v) s)
      ((eat z >>= fun e => if e = true then x else y) s) := by
  by_cases hHere : s.current.kind.is z
  · have hKind : s.current.kind ≠ .symbol .eof := by
      rw [Token.Kind.is_iff.mp hHere]
      exact fun h => hz (Token.Kind.symbol.inj h)
    have hEat : eat z s = (some true, s.advanced) := (eat_apply z s).trans (if_pos hHere)
    have hEat' : Endless.once (eat z) s = some (some true, s.advanced) := congrArg some hEat
    rw [bind_of_some hEat, Endless.bind_of_some hEat']
    exact .bind_advance (f := fun _ => u) (g := fun _ => x) hs hn hKind fun _ => hx
  · have hEat : eat z s = (some false, s) := (eat_apply z s).trans (if_neg hHere)
    have hEat' : Endless.once (eat z) s = some (some false, s) := congrArg some hEat
    rw [bind_of_some hEat, Endless.bind_of_some hEat']
    exact hy

namespace Ends

variable {u v : Endless α} {x y : Parser α} {f : α → Endless β} {g : α → Parser β}

/-- A rule without loops ends at once. -/
theorem once (h : Proceeds b x) : Ends n b (Endless.once x) x := fun s _ _ => ⟨rfl, h s⟩

theorem pure {a : α} : Ends n false (pure a) (pure a) := .once .pure

theorem look {f : State → α} : Ends n false (Endless.once (look f)) (look f) := .once .look

theorem weaken (h : Ends n b u x) : Ends n false u x := by
  intro s hs hn
  exact ⟨(h s hs hn).ends, (h s hs hn).proceeded.weaken⟩

/-- Both rules need no more rounds than are there. -/
theorem bind (hx : Ends n c u x) (hf : ∀ a, Ends n b (f a) (g a)) :
    Ends n b (u >>= f) (x >>= g) := by
  intro s hs hn
  refine (hx s hs hn).bind fun a t hPrecedes _ => ?_
  have h := hf a t (hPrecedes.roomy hs) (Nat.le_trans hPrecedes.credit_le hn)
  exact ⟨h.ends, h.proceeded.behind hPrecedes⟩

/-- Where the first rule reads, fewer rounds are needed behind it. -/
theorem bind_reading (hx : Ends n true u x) (hf : ∀ a, ∀ m < n, Ends m false (f a) (g a)) :
    Ends n b (u >>= f) (x >>= g) := by
  intro s hs hn
  refine (hx s hs hn).bind fun a t hPrecedes hLess => ?_
  have hCredit := Nat.lt_of_lt_of_le (hPrecedes.credit_lt (hLess rfl)) hn
  have h := hf a t.credit hCredit t (hPrecedes.roomy hs) (Nat.le_refl _)
  exact ⟨h.ends, h.proceeded.behind_reading hPrecedes (hLess rfl)⟩

/-- What is done with the result changes nothing. -/
theorem map {h : α → β} (hx : Ends n b u x) : Ends n false (h <$> u) (h <$> x) :=
  hx.bind fun _ => .pure

/-- The test is the same with bounds and without. -/
theorem ite {p : Prop} [Decidable p] (hx : p → Ends n b u x) (hy : ¬p → Ends n b v y) :
    Ends n b (if p then u else v) (if p then x else y) := by
  split
  · exact hx ‹p›
  · exact hy ‹¬p›

/-- A loop that may take as many rounds as there are. -/
theorem bind_rounds {g : Nat → Parser α} (hg : ∀ m k, m < k → Ends m b u (g k)) :
    Ends n b u (rounds >>= g) := by
  intro s hs _
  exact hg s.credit s.rounds hs s hs (Nat.le_refl _)

/-- What is seen decides how it goes on. -/
theorem bind_look {γ : Type} {see : State → γ} {f : γ → Endless α} {g : γ → Parser α}
    (hf : ∀ k s, see s = k → s.Roomy → s.credit ≤ n → Ended b s (f k s) (g k s)) :
    Ends n b (Endless.once (Parser.look see) >>= f) (Parser.look see >>= g) :=
  fun s hs hn => hf (see s) s rfl hs hn

/-- What was seen is still to be read, so as many rounds are needed. -/
theorem bind_check {z : Symbol} (hx : Ends n b u x) (hy : Ends n b v y) :
    Ends n b (Endless.once (check z) >>= fun e => if e = true then u else v)
      (check z >>= fun e => if e = true then x else y) := by
  refine .bind .look fun _ => ?_
  refine .ite ?_ ?_
  · intro _
    exact hx
  · intro _
    exact hy

/-- What was eaten is read, so fewer are needed. -/
theorem bind_eat {z : Symbol} (hz : z ≠ .eof) (hx : ∀ m < n, Ends m false u x) (hy : Ends n b v y) :
    Ends n b (Endless.once (eat z) >>= fun e => if e = true then u else v)
      (eat z >>= fun e => if e = true then x else y) := by
  intro s hs hn
  exact .bind_eat hz hs hn hx (hy s hs hn)

/-- To report and to fail ends. -/
theorem failing (code : Code) (message : String) :
    Ends n b (do Endless.once (report code message); (Endless.fail : Endless α))
      (do report code message; fail) := by
  intro s _ _
  exact ⟨rfl, Proceeds.failing code message s⟩

end Ends

end AmbScript.Parser
