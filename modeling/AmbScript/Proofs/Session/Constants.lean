import AmbScript.Proofs.Machine.Settings
import AmbScript.Proofs.Reach.Whole
import AmbScript.Proofs.Session.Entering
import AmbScript.Proofs.Session.History

/-!
# Constants

What is constant stays as it is, whatever is done with a context: text after text may be run on it,
runs may fail, be interrupted, resumed or given up. Only a choice that goes back to a moment before
a declaration makes the declared name a placeholder again. The primitives and the functions of the
library were declared before any moment that can be gone back to.

* `Stage.Undeclares` — a choice goes back to a moment before a declaration.
* `Store.constants_new` — the global frame holds constants, and nothing of it can be undone.
* `Stage.Session.loaded_or` — neither can anything of the library's frame, once it is there.
* `Stage.constants_stay` — constants never change.

There are two reasons why a constant stays. Evaluation never turns one into anything else, which is
enough as long as nothing is undone; and going back turns bindings into what they have come from,
which for a constant is itself or the placeholder it was declared as. The frames of the primitives
and the library were filled with nothing logged, so going back never comes to them.
-/

namespace AmbScript

variable {retire : {k : Kind} → Search k → Bool} {chapter : Nat}

open Binding Store Eval

-- ---------------------------------------------------------------------------
-- The global frame
-- ---------------------------------------------------------------------------

namespace Store

/-- All names are constants, and no change can be undone. -/
structure Constants (s : Store) : Prop where
  trail : s.trail = #[]
  watermark : s.watermark = 0
  const : ∀ f name b, s.binding? f name = some b → ∃ v, b = .ofValue v true

namespace Constants

variable {s : Store}

/-- A store of constants with nothing logged is regular. -/
theorem regular (h : s.Constants) : s.Regular where
  watermark := h.watermark ▸ Nat.zero_le _
  marked u hu := by
    rw [h.trail] at hu
    exact absurd hu List.not_mem_nil
  logged := by
    rw [h.trail]
    trivial

/-- None of its constants can be undone. -/
theorem fixed (h : s.Constants) {f : FrameId} {name : String} {v : Value}
    (hBinding : s.binding? f name = some (.ofValue v true)) : s.Fixed f name v := by
  refine ⟨hBinding, fun u hu => ?_⟩
  rw [h.trail] at hu
  exact absurd hu List.not_mem_nil

/-- One more constant is bound. -/
theorem write (h : s.Constants) (f : FrameId) (name : String) (v : Value) :
    (s.write f name (.ofValue v true)).Constants where
  trail := by
    unfold Store.write
    dsimp only
    -- no frame is below the watermark, so nothing is logged
    rw [if_neg]
    · exact h.trail
    · show ¬ f < s.watermark
      rw [h.watermark]
      exact Nat.not_lt_zero f
  watermark := (watermark_write _ _ _ _).trans h.watermark
  const g n b hBinding := by
    by_cases hSame : g = f ∧ n = name
    · obtain ⟨rfl, rfl⟩ := hSame
      have hMade : g < s.nextFrame := by
        rw [← nextFrame_write s g n (.ofValue v true)]
        exact lt_nextFrame_of_binding? hBinding
      rw [binding?_write_self hMade, if_pos rfl] at hBinding
      exact ⟨v, (Option.some.inj hBinding).symm⟩
    · rw [binding?_write_of_ne hSame] at hBinding
      exact h.const g n b hBinding

theorem writeAll {α : Type} (name : α → String) (value : α → Value) (f : FrameId) (xs : List α)
    (h : s.Constants) :
    (xs.foldl (fun s a => s.write f (name a) (.ofValue (value a) true)) s).Constants := by
  induction xs generalizing s with
  | nil => exact h
  | cons x xs ih => exact ih (h.write f (name x) (value x))

end Constants

/-- The global frame holds primitives and numbers. -/
theorem constants_new (chapter : Nat) : (Context.new chapter).store.Constants := by
  have hBare : (Store.empty.newFrame "global" none none).Constants := by
    refine ⟨rfl, rfl, fun f name b hBinding => ?_⟩
    rw [binding?_eq, scope?_newFrame] at hBinding
    split at hBinding
    · cases hBinding
    · cases hBinding
  have hPrimitives := hBare.writeAll Primitive.name Value.primitive 0 Primitive.all
  exact hPrimitives.writeAll Prod.fst (fun x => .number x.2) 0 numericConstants

/-- It is the only frame. -/
theorem nextFrame_new (chapter : Nat) : (Context.new chapter).store.nextFrame = 1 := by
  show (Context.install (Store.empty.newFrame "global" none none) 0).nextFrame = 1
  rw [Context.nextFrame_install]
  rfl

end Store

namespace Stage

/-- All that the new context had is there at every stage. -/
theorem Session.carries {st : Stage} (h : Session retire chapter st) :
    (Context.new chapter).store.Carries st.context.store := by
  rw [← context_fresh]
  refine carries_of_next h ?_
  rw [context_fresh]
  exact (constants_new chapter).regular

/-- The store is regular at every stage. -/
theorem Session.regular {st : Stage} (h : Session retire chapter st) :
    st.context.store.Regular := h.carries.regular

-- ---------------------------------------------------------------------------
-- The frame of the library
-- ---------------------------------------------------------------------------

/-- Nothing has been run on the context. -/
structure Untouched (chapter : Nat) (st : Stage) : Prop where
  pending : st.context.preludePending = true
  store : st.context.store = (Context.new chapter).store
  outer : st.context.outer = [0]
  ended : ∃ o, st = .ended o ∧ ∀ s, o ≠ .suspended s

/-- The library `p` is in the first frame after the global one, and nothing of it can be undone. -/
structure Loaded (p : Program) (st : Stage) : Prop where
  loaded : st.context.preludePending = false
  made : 1 < st.context.store.nextFrame
  holds : st.context.store.HoldsLibrary p 1
  inside : st.context.store.HoldsProgram p 1 0
  fixed : ∀ name b, st.context.store.binding? 1 name = some b →
    ∃ v, st.context.store.Fixed 1 name v

/-- What is loaded stays loaded. -/
theorem Loaded.carries {p : Program} {a b : Stage} (h : a.Loaded p)
    (hLoaded : b.context.preludePending = false)
    (hCarries : a.context.store.Carries b.context.store) : b.Loaded p := by
  have hSame := hCarries.binding?_eq_of_fixed h.made h.fixed
  refine ⟨hLoaded, Nat.lt_of_lt_of_le h.made hCarries.nextFrame, ⟨fun n hn => ?_, fun n hn => ?_⟩,
    h.inside.carries hCarries, fun name binding hBinding => ?_⟩
  · obtain ⟨f, cell, hMem, hName, hHeld⟩ := h.holds.held n hn
    exact ⟨f, cell, hMem, hName, (hSame n).trans hHeld⟩
  · exact (hSame n).trans (h.holds.others n hn)
  · rw [hSame] at hBinding
    obtain ⟨v, hFixed⟩ := h.fixed name binding hBinding
    exact ⟨v, hCarries.fixed 1 name v hFixed⟩

/-- A context that was made ready for its first run. -/
theorem Untouched.loads {p : Program} {st : Stage} (h : Untouched chapter st) {limits : Limits}
    {d : Context} (hLoads : (st.context.prepare limits).Loads p d) :
    (Stage.errored d).Loaded p := by
  have hNext : (st.context.prepare limits).store.nextFrame = 1 := by
    show st.context.store.nextFrame = 1
    rw [h.store]
    exact nextFrame_new chapter
  have hHolds : d.store.HoldsLibrary p 1 := hNext ▸ hLoads.holds
  have hAdvances := hLoads.advances (.forget _)
  have hTrail : d.store.trail = #[] := hLoads.trail
  -- The frame of the library was entered from the global one, with the number of the next frame.
  have hInside : d.store.HoldsProgram p 1 0 := by
    obtain ⟨e, hEnter, hd⟩ := hLoads.entered
    have hHeld := (Program.holds_start (bind_of_ok hEnter _)).1
    rw [show e.store = d.store by rw [hd]; rfl] at hHeld
    have hCurrent : (st.context.prepare limits).current = 0 := by
      show st.context.outer.headD 0 = 0
      rw [h.outer]
      rfl
    rw [← hCurrent, ← hNext]
    exact hHeld
  refine ⟨by rw [show (Stage.errored d).context = d from rfl, hLoads.rest], ?_, hHolds, hInside, ?_⟩
  · show 1 < d.store.nextFrame
    rw [hLoads.nextFrame, hNext]
    exact Nat.lt_succ_self 1
  · intro name b hBinding
    obtain ⟨v, rfl⟩ := hHolds.const hBinding
    refine ⟨v, hBinding, fun u hu => ?_⟩
    rw [show (Stage.errored d).context.store.trail = #[] from hTrail] at hu
    exact absurd hu List.not_mem_nil

/-- Whether it succeeds or not, entering the frame of a program leaves the settings alone, but for
that frame. -/
theorem sameSettings_start (p : Program) (c : Context) :
    c.SameSettings { p.start.after c with outer := c.outer } := by
  let frame := c.store.nextFrame
  let c₁ := c.newFrame "programEnvironment" c.current none
  -- What is left to do once the program is entered makes a search and changes nothing.
  have hStart : p.start.after c = p.enter.after c := by
    unfold Program.start
    rw [after_bind]
    unfold after
    cases p.enter c <;> rfl
  have hEnter : p.enter.after c =
      after (hoist frame p.body >>= fun _ => modify (·.enterOuter frame)) c₁ := after_bind _ _ _
  have hHoisted := (@filling_hoist frame p.body).modest c₁
  rw [hStart, hEnter, after_bind]
  cases hHoist : hoist frame p.body c₁ with
  | ok u d =>
    rw [after_ok hHoist] at hHoisted
    have hSame : c.SameSettings d := .trans (d := c₁) (.of_rest rfl) hHoisted
    have hRest := hSame.rest
    refine ⟨?_, hSame.errors⟩
    show { d.enterOuter frame with outer := c.outer } = _
    rw [hRest]
    rfl
  | error t d =>
    rw [after_error hHoist] at hHoisted
    have hSame : c.SameSettings d := .trans (d := c₁) (.of_rest rfl) hHoisted
    show c.SameSettings { d with outer := c.outer }
    rw [← hSame.outer]
    exact hSame

/-- What holds after the program was started, and stays whether it goes on or not. -/
theorem after_begin {P : Context → Prop} (p : Program) {c : Context} (scheduler : Scheduler)
    (hStep : ∀ d, P d → P d.beginStep) (hAbort : ∀ d t, P d → P (d.abort t))
    (hStart : P (p.start.after (p.heeded c))) : P (p.begin c scheduler).context := by
  rw [p.begin_eq]
  unfold after at hStart
  cases hEq : p.start (p.heeded c) with
  | ok s d =>
    rw [hEq] at hStart
    exact hStep d hStart
  | error t d =>
    rw [hEq] at hStart
    exact hAbort d t hStart

/-- To begin a program does not load the library. -/
theorem preludePending_begin (p : Program) (c : Context) (scheduler : Scheduler) :
    (p.begin c scheduler).context.preludePending = c.preludePending := by
  refine after_begin (P := fun d => d.preludePending = c.preludePending) p scheduler
    (fun _ h => h) (fun _ _ h => h) ?_
  exact (sameSettings_start p (p.heeded c)).preludePending.trans (by rw [p.heeded_eq])

theorem unbounded_begin (p : Program) {c : Context} (h : c.Unbounded) (scheduler : Scheduler) :
    (p.begin c scheduler).context.Unbounded := by
  refine after_begin p scheduler (fun _ h => h) (fun _ _ h => h) ?_
  have hRest := (sameSettings_start p (p.heeded c)).rest
  rw [p.heeded_eq] at hRest ⊢
  exact ⟨(congrArg Context.limits hRest).trans h.1, (congrArg Context.interrupted hRest).trans h.2⟩

/-- After the run of a text was begun, the library is there. -/
theorem preludePending_runBy (code : String) (c : Context) (options : Options) :
    (runBy retire code c options).context.preludePending = false := by
  obtain ⟨d, hReadied, ⟨errors, hRun⟩ | ⟨p, -, hRun⟩⟩ :=
    runBy_cases retire code c options
  · rw [hRun]
    exact hReadied.preludePending
  · rw [hRun, preludePending_begin]
    exact hReadied.preludePending

theorem preludePending_runProgramBy (p : Program) (c : Context) (options : Options) :
    (runProgramBy retire p c options).context.preludePending = false := by
  obtain ⟨d, hReadied, hRun⟩ := runProgramBy_eq retire p c options
  rw [hRun, preludePending_begin]
  exact hReadied.preludePending

/-- A run without limits has none. -/
theorem unbounded_runProgramBy (p : Program) (c : Context) (scheduler : Scheduler) :
    (runProgramBy retire p c ⟨scheduler, .unlimited⟩).context.Unbounded := by
  obtain ⟨d, hReadied, hRun⟩ := runProgramBy_eq retire p c ⟨scheduler, .unlimited⟩
  rw [hRun]
  exact unbounded_begin p ⟨hReadied.limits_eq, hReadied.interrupted⟩ scheduler

/-- Once the library is there, it need not be loaded again. -/
theorem Next.preludePending {a b : Stage} (h : Next retire a b)
    (hLoaded : a.context.preludePending = false) : b.context.preludePending = false := by
  cases h with
  | leads hLeads =>
    cases hLeads with
    | step r =>
      have hSame := r.machine.sameSettings_step retire r.context
      -- a step that fails reports its fault besides, and that loads nothing
      rcases context_stepBy retire r with hContext | ⟨t, hContext⟩
      · rw [hContext]
        exact hSame.preludePending.trans hLoaded
      · rw [hContext]
        exact hSame.preludePending.trans hLoaded
    | resume s =>
      unfold Suspension.resume
      split <;> exact hLoaded
    | signal r => exact hLoaded
    | expire r => exact hLoaded
    | takeOutput r => exact hLoaded
  | run code o options => exact preludePending_runBy code o.context options
  | runProgram p o options => exact preludePending_runProgramBy p o.context options
  | interrupt o | signal o | takeOutput o =>
    exact Outcome.of_onContext (P := fun c => c.preludePending = false) hLoaded

/-- Either nothing has been run on the context, or the library is there for good. -/
theorem Session.loaded_or {st : Stage} (h : Session retire chapter st) :
    Untouched chapter st ∨ ∃ p, Prelude.parsed.program = some p ∧ st.Loaded p := by
  induction h with
  | refl =>
    refine .inl ⟨rfl, rfl, rfl, _, rfl, ?_⟩
    nofun
  | @tail a b hSession hNext ih =>
    have hCarries := hNext.carries (Session.regular hSession)
    rcases ih with hUntouched | ⟨p, hLibrary, hLoaded⟩
    · obtain ⟨hPending, hStore, hOuter, o, rfl, hEnded⟩ := hUntouched
      -- what else can be done to the context leaves its store alone
      have hRun {options : Options} {d : Context} (hReadied : o.context.Readied options.limits d)
          (hLater : d.store.Carries b.context.store) (hb : b.context.preludePending = false) :
          ∃ p, Prelude.parsed.program = some p ∧ b.Loaded p := by
        cases hReadied with
        | @first p _ _ hLibrary hLoads =>
          have hLoaded := Untouched.loads ⟨hPending, hStore, hOuter, o, rfl, hEnded⟩ hLoads
          exact ⟨p, hLibrary, hLoaded.carries hb hLater⟩
        | again hNot =>
          rw [show o.context.preludePending = true from hPending] at hNot
          cases hNot
      have hOnContext {f : Context → Context}
          (hp : (f o.context).preludePending = o.context.preludePending)
          (hs : (f o.context).store = o.context.store)
          (ho : (f o.context).outer = o.context.outer) :
          Untouched chapter (.ended (o.onContext f)) := by
        refine ⟨?_, ?_, ?_, _, rfl, ?_⟩
        · show (o.onContext f).context.preludePending = true
          rw [Outcome.context_onContext, hp]
          exact hPending
        · show (o.onContext f).context.store = _
          rw [Outcome.context_onContext, hs]
          exact hStore
        · show (o.onContext f).context.outer = _
          rw [Outcome.context_onContext, ho]
          exact hOuter
        · cases o with
          | suspended s => exact absurd rfl (hEnded s)
          | _ => nofun
      cases hNext with
      | leads hLeads =>
        cases hLeads with
        | resume s => exact absurd rfl (hEnded s)
      | run code _ options =>
        obtain ⟨d, hReadied, hLater⟩ := readied_runBy retire code o.context options
        exact .inr (hRun hReadied hLater.toCarries (preludePending_runBy _ _ _))
      | runProgram p _ options =>
        obtain ⟨d, hReadied, hLater⟩ := readied_runProgramBy retire p o.context options
        exact .inr (hRun hReadied hLater.toCarries (preludePending_runProgramBy _ _ _))
      | interrupt => exact .inl (hOnContext rfl rfl rfl)
      | signal => exact .inl (hOnContext rfl rfl rfl)
      | takeOutput => exact .inl (hOnContext rfl rfl rfl)
    · exact .inr ⟨p, hLibrary, hLoaded.carries (hNext.preludePending hLoaded.loaded) hCarries⟩

-- ---------------------------------------------------------------------------
-- Constants stay
-- ---------------------------------------------------------------------------

/-- From `a` to `b` a choice goes back to a moment at which `name` was not declared yet: it was a
placeholder when the choice was entered, or its frame was not even there. -/
structure Undeclares (retire : {k : Kind} → Search k → Bool) (chapter : Nat) (a b : Stage)
    (f : FrameId) (name : String) : Prop where
  exists_entry : ∃ r entry alternatives outside p, a = .running r ∧
    Restores retire entry.context.moment r b ∧
    Session retire chapter (.running entry) ∧ entry.machine = .pull (.choice alternatives) outside ∧
    Since retire entry outside (.running r) ∧
    b.context.store.binding? f name = some p ∧ p.slot = .placeholder ∧
    (entry.context.store.binding? f name = some p ∨ entry.context.store.nextFrame ≤ f)

/-- What comes next leaves a constant as it is, or makes it a placeholder again. -/
theorem Next.const {a b : Stage} (h : Next retire a b) (hSession : Session retire chapter a)
    {f : FrameId} {name : String} {v : Value}
    (hConst : a.context.store.binding? f name = some (.ofValue v true)) :
    b.context.store.binding? f name = some (.ofValue v true) ∨
      Undeclares retire chapter a b f name := by
  have hRegular := hSession.regular
  have hMade := lt_nextFrame_of_binding? hConst
  rcases h.advances_or_restores hRegular with hAdvances | ⟨r, start, rfl, hRestores⟩
  · have hEvolves := hAdvances.conserves.evolves hMade hMade name
    rw [hConst] at hEvolves
    exact .inl hEvolves.const
  -- A choice goes back, and the constant may have been declared since it was entered.
  · have hUnwound := (hRegular.conserves_unwindTo start.trailLength (f + 1)).evolves
      (Nat.lt_succ_self f) (by rw [nextFrame_unwindTo]; exact hMade) name
    have hStore : b.context.store = r.context.store.unwindTo start.trailLength := hRestores.store
    rw [hConst, show (Stage.running r).context = r.context from rfl, ← hStore] at hUnwound
    refine hUnwound.const_or_placeholder.imp_right fun ⟨p, hPlaceholder, hSlot⟩ => ?_
    obtain ⟨rest, left, below, hMachine⟩ := Machine.eq_of_restores hRestores.restores
    obtain ⟨first, hBegun, hFirst, hLeads⟩ := Session.exists_first hSession
    obtain ⟨entry, alternatives, outside, hReach, hEntry, hSince, -, rfl, -, hScopes⟩ :=
      exists_entry_of_restores hFirst hLeads hMachine
    refine ⟨r, entry, alternatives, outside, p, rfl, hRestores, ?_, hEntry, hSince, hPlaceholder,
      hSlot, ?_⟩
    · exact Session.Run.session ⟨first, hBegun, hFirst, hReach⟩
    · refine (Nat.lt_or_ge f entry.context.store.nextFrame).imp_left fun hThere => ?_
      rw [← hPlaceholder, hRestores.store, binding?_eq, binding?_eq, hScopes f hThere]

/-- Whatever is done with a context, one after the other: a constant stays as it is, or a choice
goes back to a moment at which it was not declared yet and it is the placeholder that it was then.
The global frame has the bindings that it was made with in every stage, and the frame of the library
has a constant for each of its functions as soon as it is there, and no other bindings ever
after. -/
theorem constants_stay (retire : {k : Kind} → Search k → Bool) (chapter : Nat) :
    (∀ a b, Session retire chapter a → Next retire a b → ∀ f name v,
      a.context.store.binding? f name = some (.ofValue v true) →
        b.context.store.binding? f name = some (.ofValue v true) ∨
          Undeclares retire chapter a b f name) ∧
    (∀ st, Session retire chapter st → ∀ name,
      st.context.store.binding? 0 name = (Context.new chapter).store.binding? 0 name) ∧
    ∃ library, Prelude.parsed.program = some library ∧ ∀ st, Session retire chapter st →
      st.context.preludePending = false →
        st.context.store.HoldsLibrary library 1 ∧
        ∀ later, Relation.ReflTransGen (Next retire) st later → ∀ name,
          later.context.store.binding? 1 name = st.context.store.binding? 1 name := by
  refine ⟨fun a b hSession hNext f name v => hNext.const hSession, fun st hSession name => ?_, ?_⟩
  · have hNew := constants_new chapter
    have hGlobal : 0 < (Context.new chapter).store.nextFrame := nextFrame_new chapter ▸ Nat.one_pos
    refine hSession.carries.binding?_eq_of_fixed hGlobal (fun n b hBinding => ?_) name
    -- all bindings of the global frame are constants, so what is carried to later stages is all of
    -- them
    obtain ⟨v, rfl⟩ := hNew.const 0 n b hBinding
    exact ⟨v, hNew.fixed hBinding⟩
  · obtain ⟨library, hLibrary, -⟩ := Prelude.exists_program
    refine ⟨library, hLibrary, fun st hSession hThere => ?_⟩
    -- the library is loaded by the first run, and before it there is nothing to show
    rcases hSession.loaded_or with hUntouched | ⟨p, hp, hLoaded⟩
    · rw [hUntouched.pending] at hThere
      cases hThere
    · rw [hLibrary] at hp
      cases hp
      refine ⟨hLoaded.holds, fun later hLater name => ?_⟩
      have hCarries := carries_of_next hLater hSession.regular
      exact hCarries.binding?_eq_of_fixed hLoaded.made hLoaded.fixed name

set_option maxRecDepth 4000 in
/-- A program is run on a new context: pairs are made as before, and the library is there to
stay. -/
theorem eitherTruth_keeps_pair :
    (runProgramBy Search.isExhausted eitherTruth (.new 4) .default).context.store.binding? 0 "pair" =
        some (.ofValue (.primitive .pair) true) ∧
      ∃ library, (runProgramBy Search.isExhausted eitherTruth (.new 4)
        .default).context.store.HoldsLibrary library 1 := by
  obtain ⟨hConstants, -, library, -, hLibrary⟩ := constants_stay Search.isExhausted 4
  have hNext : Next Search.isExhausted (fresh 4)
      (runProgramBy Search.isExhausted eitherTruth (.new 4) .default) := .runProgram _ _ _
  have hPair : (fresh 4).context.store.binding? 0 "pair" =
      some (.ofValue (.primitive .pair) true) := by rfl
  refine ⟨?_, library, (hLibrary _ (.single hNext) (preludePending_runProgramBy _ _ _)).1⟩
  refine (hConstants _ _ .refl hNext 0 "pair" _ hPair).resolve_right ?_
  rintro ⟨r, _, _, _, _, hRunning, -⟩
  cases hRunning

end Stage

end AmbScript
