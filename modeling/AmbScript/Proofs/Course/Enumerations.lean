import AmbScript.Proofs.Course.Replies
import AmbScript.Proofs.Listing.Delivery

/-!
# Enumerations

A search enumerates if it finds so many results and then has no more, in whatever contexts it is
asked for the next one. Of each result it is said what it is like. The bindings that there were when
the search was started are there at each result; in the end they are, or those are with which it was
asked for the last time.

* `Context.Retains`, `Context.Keeps` — all bindings of a context are still there.
* `Machine.Enumerates` — the results of an action that asks a search, in their order.
* `Machine.RunsThrough` — these results, if the search is asked for nothing else in between.
* `Machine.Enumerates.each` — the one rule for searches that wait for the results of a part.
* `Machine.Enumerates.map`, `Machine.Enumerates.bind`, `Machine.enumerates_choice`,
  `Machine.enumerates_product`, `Machine.enumerates_sequence` — the kinds of search.

A course says what a search does, whatever that is; an enumeration says that it behaves well. It has
finitely many results, no fault comes in between, and bindings stay. The next result may be asked
for in any later context: what happens in between is up to the program.
-/

namespace AmbScript

open Machine Eval

variable {i k o : Kind} {c d e start start₀ : Context}

-- ---------------------------------------------------------------------------
-- Bindings that are kept
-- ---------------------------------------------------------------------------

/-- Every frame of `s` is in `t`, with the bindings that it has in `s`. -/
structure Store.Retains (s t : Store) : Prop where
  frames : s.nextFrame ≤ t.nextFrame
  scopes {f : FrameId} (hf : f < s.nextFrame) : t.scope? f = s.scope? f

/-- `d` is a later context of the same run, and all bindings of `c` are as they were. -/
structure Context.Keeps (c d : Context) : Prop extends c.Precedes d where
  retains : c.store.Retains d.store

namespace Store.Retains

variable {s t u : Store}

theorem refl (s : Store) : s.Retains s := ⟨Nat.le_refl _, fun _ => rfl⟩

/-- What was kept twice is kept. -/
theorem trans (h : s.Retains t) (h' : t.Retains u) : s.Retains u := by
  refine ⟨Nat.le_trans h.frames h'.frames, fun hf => ?_⟩
  rw [h'.scopes (Nat.lt_of_lt_of_le hf h.frames), h.scopes hf]

end Store.Retains

namespace Context.Keeps

theorem refl (c : Context) : c.Keeps c := ⟨.refl c, .refl _⟩

theorem trans (h : c.Keeps d) (h' : d.Keeps e) : c.Keeps e :=
  ⟨h.toPrecedes.trans h'.toPrecedes, h.retains.trans h'.retains⟩

/-- A frame is entered in both. -/
theorem enter (h : c.Keeps d) (frame : FrameId) : (c.enter frame).Keeps (d.enter frame) :=
  ⟨h.toPrecedes.enter frame, h.retains⟩

/-- Counting a node keeps bindings. -/
theorem counted (c : Context) : c.Keeps c.counted := ⟨⟨.refl _, Nat.le_refl _, rfl⟩, .refl _⟩

theorem checkpoint (c : Context) : c.Keeps c.checkpoint :=
  ⟨.checkpoint c, ⟨Nat.le_refl _, fun _ => rfl⟩⟩

theorem leave {frame : FrameId} (h : (c.enter frame).Keeps d) : c.Keeps d.leave :=
  ⟨h.toPrecedes.leave, h.retains⟩

/-- A moment that is gone back to has all its bindings. -/
theorem restored (h : c.checkpoint.Precedes d) : c.checkpoint.Keeps (d.restore c.moment) := by
  refine ⟨h.restore, ?_⟩
  rw [((Precedes.checkpoint c).trans h).restore_eq]
  refine ⟨?_, fun hf => h.store.scope?_unwindTo_mark hf⟩
  show _ ≤ (d.store.unwindTo _).nextFrame
  rw [Store.nextFrame_unwindTo]
  exact h.store.frames

end Context.Keeps

-- ---------------------------------------------------------------------------
-- Walks
-- ---------------------------------------------------------------------------

namespace Machine

/-- A result of the search is asked for. -/
def ask {k : Kind} (s : Search k) (stack : Stack k) : Eval Machine := pure (pull s stack)

/-- Above every stack, what `x` does in `c` leads to what `y` does in `d`. -/
def LeadsOn (x : Stack k → Eval Machine) (c : Context) (y : Stack k → Eval Machine) (d : Context) :
    Prop :=
  ∃ j, ∀ stack, Attains stack (x stack c) j (y stack d)

namespace LeadsOn

variable {x y : Stack k → Eval Machine} {r : EStateM.Result Fault Context (Reply k)}

/-- The two do the same. -/
theorem of_eq (h : ∀ stack, x stack c = y stack d) : LeadsOn x c y d := by
  refine ⟨0, fun stack => ?_⟩
  rw [h stack]
  exact .here stack _

/-- What is replied later is replied now. -/
theorem replies (h : LeadsOn x c y d) (hReplies : Replies y d r) : Replies x c r := by
  obtain ⟨j, h⟩ := h
  obtain ⟨n, hReplies⟩ := hReplies
  exact ⟨j + n, fun stack => (h stack).trans (hReplies stack)⟩

/-- The reply is on the way. -/
theorem of_replies (h : LeadsOn x c y d) (hReplies : Replies x c r) : Replies y d r := by
  obtain ⟨j, h⟩ := h
  obtain ⟨n, hReplies⟩ := hReplies
  have hLe : j ≤ n := by
    refine Nat.le_of_not_lt fun hLess => not_above_deliver (baseStack k) r ?_
    rw [← (hReplies _).1]
    exact (h _).2 n hLess
  obtain ⟨i, rfl⟩ := Nat.exists_eq_add_of_le hLe
  refine ⟨i, fun stack => ⟨?_, fun l hl => ?_⟩⟩
  · rw [← (h stack).1, ← ahead_add]
    exact (hReplies stack).1
  · rw [← (h stack).1, ← ahead_add]
    exact (hReplies stack).2 (j + l) (by omega)

/-- One step of a walk that is above the stack. -/
theorem step {w : Stack k → Machine} (h : ∀ stack : Stack k, stack.height < (w stack).level) :
    LeadsOn (fun stack => pure (w stack)) c (fun stack => (w stack).step Search.isExhausted) c :=
  ⟨1, fun stack => .step (h stack)⟩

/-- A search that is asked takes a step. -/
theorem pull (s : Search k) : LeadsOn (ask s) c (stepPull s) c := step fun _ => Nat.lt_succ_self _

/-- What a pending search does with a result of its part. -/
theorem found {x : Stack i → Eval Machine} {item : i.Item} {rest : Search i} (p : Pending i o)
    (h : Replies x c (.ok (.found item rest) d)) :
    LeadsOn (fun stack => x (.push p stack)) c (stepFound Search.isExhausted item rest p) d := by
  obtain ⟨j, h⟩ := h
  exact ⟨j + 1, fun stack => (h (.push p stack)).below.trans (.step (Nat.lt_succ_self _))⟩

/-- What a pending search does when its part has no more results. -/
theorem drained {x : Stack i → Eval Machine} {rest : Search i} (p : Pending i o)
    (h : Replies x c (.ok (.drained rest) d)) :
    LeadsOn (fun stack => x (.push p stack)) c (stepDrained rest p) d := by
  obtain ⟨j, h⟩ := h
  exact ⟨j + 1, fun stack => (h (.push p stack)).below.trans (.step (Nat.lt_succ_self _))⟩

/-- A part that has no more results is passed by. -/
theorem exhausted {s : Search i} (h : s.isExhausted = true) (p : Pending i o) (c : Context) :
    ∃ rest, LeadsOn (fun stack => ask s (.push p stack)) c (stepDrained rest p) c := by
  obtain ⟨rest, hReplies, -⟩ := Search.replies_of_isExhausted h c
  exact ⟨rest, drained p hReplies⟩

/-- A search around one that is started. -/
theorem launch {x : Eval (Search i)} {around : Search i → Search o} {p : Pending i o}
    (h : ∀ s (stack : Stack o), stepPull (around s) stack = pure (Machine.pull s (.push p stack)))
    (c : Context) :
    LeadsOn (Eval.launch (do return around (← x))) c (fun stack => Eval.launch x (.push p stack))
      c := by
  have hStep (stack : Stack o) : Eval.launch (do return around (← x)) stack c =
      EStateM.bind x (fun s => pure (Machine.pull (around s) stack)) c := by
    show EStateM.bind (EStateM.bind x _) _ c = EStateM.bind x _ c
    unfold EStateM.bind
    cases x c <;> rfl
  -- If the inner search cannot be started, neither can the one around it, with the same fault.
  cases hEq : x c with
  | error t d =>
    refine of_eq fun stack => ?_
    rw [hStep]
    show EStateM.bind x _ c = EStateM.bind x _ c
    simp only [EStateM.bind, hEq]
  | ok s d =>
    refine ⟨1, fun stack => ?_⟩
    have hStart : Eval.launch x (.push p stack) c = stepPull (around s) stack d := by
      show EStateM.bind x _ c = _
      rw [EStateM.bind, hEq, h]
    have hAround : Eval.launch (do return around (← x)) stack c =
        .ok (Machine.pull (around s) stack) d := by
      rw [hStep, EStateM.bind, hEq]
      rfl
    dsimp only
    rw [hAround, hStart]
    exact .step (Nat.lt_succ_self _)

end LeadsOn

-- ---------------------------------------------------------------------------
-- Enumerations
-- ---------------------------------------------------------------------------

/-- Asked for one result after the other, a search that was started in `start` finds results that
are as the list says, one for each entry, and then no more. The first one is asked for by `x` in
`c`, each further one in any later context. -/
def Enumerates (start : Context) {k : Kind} :
    List (k.Item → Prop) → (Stack k → Eval Machine) → Context → Prop
  | [], x, c => ∃ rest d, Replies x c (.ok (.drained rest) d) ∧ start.Precedes d ∧
      (c.store.Retains d.store ∨ start.store.Retains d.store)
  | p :: ps, x, c => ∃ item rest d, Replies x c (.ok (.found item rest) d) ∧ p item ∧
      start.Keeps d ∧ ∀ c', d.Precedes c' → Enumerates start ps (ask rest) c'

/-- Asked for one result after the other, and for nothing else in between, a search finds these
results and then no more, which it tells in the context `d`. -/
def RunsThrough {k : Kind} :
    List k.Item → (Stack k → Eval Machine) → Context → Context → Prop
  | [], x, c, d => ∃ rest, Replies x c (.ok (.drained rest) d)
  | item :: items, x, c, d => ∃ rest e, Replies x c (.ok (.found item rest) e) ∧
      RunsThrough items (ask rest) e d

namespace Enumerates

variable {x y : Stack k → Eval Machine} {ps qs : List (k.Item → Prop)}

/-- What is enumerated later is enumerated now. -/
theorem after (h : Enumerates start ps y d) (hWalk : LeadsOn x c y d)
    (hKept : c.store.Retains d.store ∨ start.store.Retains d.store) : Enumerates start ps x c := by
  cases ps with
  | nil =>
    obtain ⟨rest, e, hReplies, hLater, hEnd⟩ := h
    refine ⟨rest, e, hWalk.replies hReplies, hLater, ?_⟩
    rcases hEnd with hEnd | hEnd
    · exact hKept.imp (·.trans hEnd) (·.trans hEnd)
    · exact .inr hEnd
  | cons p ps =>
    obtain ⟨item, rest, e, hReplies, hRest⟩ := h
    exact ⟨item, rest, e, hWalk.replies hReplies, hRest⟩

/-- Two actions that do the same enumerate the same. -/
theorem congr (h : Enumerates start ps y d) (hSame : ∀ stack, x stack c = y stack d)
    (hStore : c.store = d.store) : Enumerates start ps x c := by
  refine h.after (.of_eq hSame) (.inl ?_)
  rw [hStore]
  exact .refl _

/-- What is enumerated now is enumerated later, if the context is the same. -/
theorem before (h : Enumerates start ps x c) (hWalk : LeadsOn x c y c) :
    Enumerates start ps y c := by
  cases ps with
  | nil =>
    obtain ⟨rest, e, hReplies, hEnd⟩ := h
    exact ⟨rest, e, hWalk.of_replies hReplies, hEnd⟩
  | cons p ps =>
    obtain ⟨item, rest, e, hReplies, hRest⟩ := h
    exact ⟨item, rest, e, hWalk.of_replies hReplies, hRest⟩

/-- Bindings that are kept from later on are kept from before. -/
theorem mono (hStart : start₀.Keeps start) (h : Enumerates start ps x c) :
    Enumerates start₀ ps x c := by
  induction ps generalizing x c with
  | nil =>
    obtain ⟨rest, d, hReplies, hLater, hEnd⟩ := h
    exact ⟨rest, d, hReplies, hStart.toPrecedes.trans hLater, hEnd.imp_right hStart.retains.trans⟩
  | cons p ps ih =>
    obtain ⟨item, rest, d, hReplies, hItem, hKeeps, hRest⟩ := h
    exact ⟨item, rest, d, hReplies, hItem, hStart.trans hKeeps,
      fun c' hLater => ih (hRest c' hLater)⟩

/-- Less may be said of the results. -/
theorem imp (hImp : List.Forall₂ (fun p q => ∀ item, p item → q item) ps qs)
    (h : Enumerates start ps x c) : Enumerates start qs x c := by
  induction hImp generalizing x c with
  | nil => exact h
  | cons hFirst _ ih =>
    obtain ⟨item, rest, d, hReplies, hItem, hKeeps, hRest⟩ := h
    exact ⟨item, rest, d, hReplies, hFirst item hItem, hKeeps,
      fun c' hLater => ih (hRest c' hLater)⟩

/-- Asked for nothing else, the search runs through such results, and in the end all bindings are
there. -/
theorem exists_runsThrough (h : Enumerates start ps x c) (hKeeps : start.Keeps c) :
    ∃ items d, RunsThrough items x c d ∧ List.Forall₂ (fun p item => p item) ps items ∧
      start.Keeps d := by
  induction ps generalizing x c with
  | nil =>
    obtain ⟨rest, d, hReplies, hLater, hEnd⟩ := h
    exact ⟨[], d, ⟨rest, hReplies⟩, .nil, hLater, hEnd.elim hKeeps.retains.trans id⟩
  | cons p ps ih =>
    obtain ⟨item, rest, e, hReplies, hItem, hKeeps', hRest⟩ := h
    obtain ⟨items, d, hRuns, hItems, hEnd⟩ := ih (hRest e (.refl e)) hKeeps'
    exact ⟨item :: items, d, ⟨rest, e, hReplies, hRuns⟩, .cons hItem hItems, hEnd⟩

theorem found {p : k.Item → Prop} {item : k.Item} {rest : Search k} (hItem : p item)
    (hKeeps : start.Keeps d) (hRest : ∀ c', d.Precedes c' → Enumerates start ps (ask rest) c') :
    Enumerates start (p :: ps) (fun stack => pure (Machine.found item rest stack)) d := by
  refine ⟨item, rest, d, ?_, hItem, hKeeps, hRest⟩
  refine ⟨0, ?_⟩
  intro stack
  exact .here stack _

/-- There are no more results. -/
theorem drained {rest : Search k} (h : start.Precedes d) :
    Enumerates start [] (fun stack => pure (Machine.drained rest stack)) d := by
  refine ⟨rest, d, ?_, h, .inl (.refl _)⟩
  refine ⟨0, ?_⟩
  intro stack
  exact .here stack _

/-- One step is taken first. -/
theorem ask {s : Search k} (h : Enumerates start ps (stepPull s) c) :
    Enumerates start ps (ask s) c := h.after (.pull s) (.inl (.refl _))

theorem failed (h : start.Precedes c) : Enumerates start [] (Machine.ask (.failed : Search k)) c :=
  .ask (.drained h)

/-- A pending search that makes results of every result of its part: the rows say which. `hFound`
says that it makes those of a row, given that the part goes on with what is left; `hDrained` says
what it does when the part has no more results. -/
theorem each {p : Pending i o} {ps : List (i.Item → Prop)} {rows : List (List (o.Item → Prop))}
    {final : List (o.Item → Prop)} {x : Stack i → Eval Machine}
    (hStart : start₀.store.Retains start.store)
    (hDrained : ∀ rest d, start.Precedes d → Enumerates start₀ final (stepDrained rest p) d)
    (hFound : List.Forall₂ (fun q row => ∀ left item rest d, q item → start.Keeps d →
      (∀ c', d.Precedes c' →
        Enumerates start₀ left (fun stack => Machine.ask rest (.push p stack)) c') →
      Enumerates start₀ (row ++ left) (stepFound Search.isExhausted item rest p) d) ps rows)
    (h : Enumerates start ps x c) :
    Enumerates start₀ (rows.flatten ++ final) (fun stack => x (.push p stack)) c := by
  induction hFound generalizing x c with
  | nil =>
    obtain ⟨rest, d, hReplies, hLater, hEnd⟩ := h
    exact (hDrained rest d hLater).after (.drained p hReplies) (hEnd.imp_right hStart.trans)
  | cons hFirst _ ih =>
    obtain ⟨item, rest, d, hReplies, hItem, hKeeps, hRest⟩ := h
    rw [List.flatten_cons, List.append_assoc]
    exact (hFirst _ item rest d hItem hKeeps fun c' hLater => ih (hRest c' hLater)).after
      (.found p hReplies) (.inr (hStart.trans hKeeps.retains))

-- ---------------------------------------------------------------------------
-- Results one by one
-- ---------------------------------------------------------------------------

/-- One result is made of each result of the part. -/
theorem each_single {p : Pending i o} {ps : List (i.Item → Prop)} {qs final : List (o.Item → Prop)}
    {x : Stack i → Eval Machine} (hStart : start₀.store.Retains start.store)
    (hDrained : ∀ rest d, start.Precedes d → Enumerates start₀ final (stepDrained rest p) d)
    (hFound : List.Forall₂ (fun q r => ∀ left item rest d, q item → start.Keeps d →
      (∀ c', d.Precedes c' →
        Enumerates start₀ left (fun stack => Machine.ask rest (.push p stack)) c') →
      Enumerates start₀ (r :: left) (stepFound Search.isExhausted item rest p) d) ps qs)
    (h : Enumerates start ps x c) :
    Enumerates start₀ (qs ++ final) (fun stack => x (.push p stack)) c := by
  have hRows : Enumerates start₀ ((qs.map fun q => [q]).flatten ++ final)
      (fun stack => x (.push p stack)) c :=
    h.each hStart hDrained (List.forall₂_map_right_iff.mpr hFound)
  rwa [← List.flatMap_def, List.flatMap_singleton'] at hRows

/-- Something is made of each result, which may be a change of the context. -/
theorem map {f : Mapping i o} {ps : List (i.Item → Prop)} {qs : List (o.Item → Prop)}
    {x : Stack i → Eval Machine}
    (hf : List.Forall₂ (fun p q => ∀ item, p item → ∀ d, start.Keeps d →
      ∃ b d', f.apply item d = .ok b d' ∧ q b ∧ d.Keeps d') ps qs)
    (h : Enumerates start ps x c) :
    Enumerates start qs (fun stack => x (.push (.map f) stack)) c := by
  rw [← List.append_nil qs]
  refine h.each_single (.refl _) (fun rest d hLater => .drained hLater) (hf.imp ?_)
  intro p q hApply left item rest d hItem hKeeps hRest
  obtain ⟨b, d', hOk, hb, hKeeps'⟩ := hApply item hItem d hKeeps
  have hWalk : LeadsOn (stepFound Search.isExhausted item rest (.map f)) d
      (fun stack => pure (Machine.found b (.map f rest) stack)) d' :=
    .of_eq fun stack => bind_eq_ok.mpr ⟨b, d', hOk, rfl⟩
  refine (found hb (hKeeps.trans hKeeps') fun c' hLater => ?_).after hWalk (.inl hKeeps'.retains)
  exact .ask (hRest c' (hKeeps'.toPrecedes.trans hLater))

/-- The results inside a frame. -/
theorem within {frame : FrameId} (h : Enumerates (start.enter frame) ps x (c.enter frame)) :
    Enumerates start ps (fun stack => x (.push (.within frame) stack)) (c.enter frame) := by
  have hSame : start.store.Retains (start.enter frame).store := .refl _
  rw [← List.append_nil ps]
  refine h.each_single hSame (fun rest d hLater => ?_)
    (List.forall₂_same.mpr fun p _ left item rest d hItem hKeeps hRest => ?_)
  · exact (drained (d := d.leave) hLater.leave).congr (fun _ => rfl) rfl
  · suffices Enumerates start (p :: left)
        (fun stack => pure (Machine.found item (.within frame rest) stack)) d.leave from
      this.congr (fun _ => rfl) rfl
    refine .found hItem hKeeps.leave fun c' hLater => ?_
    -- The next result is asked for outside of the frame, which is entered again for it.
    have hEntered : d.Precedes (c'.enter frame) := by
      have hInner := hKeeps.toPrecedes.inner_eq
      have hLater := hLater.enter frame
      have hSame : d.leave.enter frame = d := by
        unfold Context.leave Context.enter
        dsimp only
        rw [hInner]
        show { d with inner := frame :: start.inner } = d
        rw [show frame :: start.inner = d.inner from hInner.symm]
      rwa [hSame] at hLater
    exact .ask ((hRest _ hEntered).congr (fun _ => rfl) rfl)

/-- All results of what follows from the first result, then of what follows from the second, and so
on. -/
theorem bind {f : Expansion i o} {ps : List (i.Item → Prop)} {rows : List (List (o.Item → Prop))}
    {x : Stack i → Eval Machine}
    (hf : List.Forall₂ (fun p row => ∀ item, p item → ∀ d, start.Keeps d →
      Enumerates d row (launch (f.apply item)) d) ps rows)
    (h : Enumerates start ps x c) :
    Enumerates start rows.flatten (fun stack => x (.push (.outer f) stack)) c := by
  rw [← List.append_nil rows.flatten]
  refine h.each (.refl _) (fun rest d hLater => .drained hLater) (hf.imp ?_)
  intro p row hApply left item rest d hItem hKeeps hRest
  have hDrained (rest' : Search o) (e : Context) (hLater : d.Precedes e) :
      Enumerates start left (stepDrained rest' (.inner f rest)) e := hRest e hLater
  suffices List.Forall₂ _ row row from
    ((hApply item hItem d hKeeps).each_single hKeeps.retains hDrained this).congr (fun _ => rfl) rfl
  refine List.forall₂_same.mpr fun q _ left' b rest' e hb hKeeps' hRest' => ?_
  refine .found hb (hKeeps.trans hKeeps') fun c' hLater => ?_
  show Enumerates start left'
    (Machine.ask (if rest'.isExhausted = true then .bind f rest else .binding f rest rest')) c'
  cases hExhausted : rest'.isExhausted with
  | false => exact .ask (hRest' c' hLater)
  | true =>
    -- the exhausted part is left out, and would have been passed by
    obtain ⟨_, hWalk⟩ := LeadsOn.exhausted hExhausted (.inner f rest) c'
    exact .ask ((hRest' c' hLater).before hWalk)

end Enumerates

end Machine

end AmbScript
