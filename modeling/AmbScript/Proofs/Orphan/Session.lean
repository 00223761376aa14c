import AmbScript.Proofs.Orphan.Step
import AmbScript.Proofs.Session.Driver

/-!
# Programs that never start

A text that is not a program leaves the context as it was, but for the diagnostics. A program that
declares a name twice is not entered either; it leaves a frame that nothing refers to, and may have
set how diagnostics are listed. So whatever is run afterwards has the same outcomes as if it had
never been tried.

* `Move`, `Stage.follow` — what can be done with a stage.
* `Stage.Echoes` — two stages are the same, but that there is one more frame in the second one.
* `Stage.Sound.follow`, `Stage.Echoes.follow` — this stays so if the same is done with both, and
  `Stage.Echoes.followAll` says it of all that can be done.
* `Context.AtRest.inner_eq_nil` — between runs no frames are entered but those of programs.
* `Context.Whole.exists_unentered` — what a program leaves that is not entered.
* `Context.AtRest.unstarted_without_effect` — a program that never starts has no effect.

`Echoes` for stages also says that the text in force is the same. The two contexts it begins with
need not agree on it, but each run sets it, and nothing before that reads it but reports of faults.
`Sound` is what keeps frames grounded: nothing dangles between runs, nor in the middle of one.
-/

namespace AmbScript

variable {k : FrameId} {v : Bool} {retire : {k : Kind} → Search k → Bool}

open Eval Store

-- ---------------------------------------------------------------------------
-- Moves
-- ---------------------------------------------------------------------------

/-- What can be done with a stage. -/
inductive Move
  /-- A machine step is taken. -/
  | step
  /-- The time limit passes. -/
  | expire
  /-- A stop is asked for. -/
  | signal
  /-- The lines that were displayed so far are taken away. -/
  | takeOutput
  /-- The suspended run is resumed. -/
  | resume
  /-- Another text is run. -/
  | run (code : String) (options : Options)

namespace Stage

/-- The stage after a move; it is the same where the move cannot be made. -/
def follow : Stage → Move → Stage
  | .running r, .step => r.stepBy Search.isExhausted
  | .running r, .expire => .running r.expire
  | .running r, .signal => .running { r with context := r.context.signal }
  | .ended o, .signal => .ended (o.onContext Context.signal)
  | .running r, .takeOutput => .running { r with context := r.context.takeOutput.2 }
  | .ended o, .takeOutput => .ended (o.onContext fun c => c.takeOutput.2)
  | .ended (.suspended s), .resume => s.resume
  | .ended o, .run code options => AmbScript.run code o.context options
  | st, _ => st

/-- The library is there, and nothing dangles. -/
structure Sound (st : Stage) : Prop where
  closed : st.Closed
  whole : st.context.Whole
  loaded : st.context.preludePending = false

/-- What is done to a context between runs leaves nothing dangling, if it leaves the store and the
frames alone. -/
theorem Sound.onContext {o : Outcome} (h : (Stage.ended o).Sound) {g : Context → Context}
    (hClosedBy : ∀ {c : Context} {r : Region}, c.Closed r → (g c).Closed r)
    (hWholeBy : ∀ {c : Context}, c.Whole → (g c).Whole)
    (hLoadedBy : ∀ c : Context, (g c).preludePending = c.preludePending) :
    (Stage.ended (o.onContext g)).Sound := by
  obtain ⟨hClosed, hWhole, hLoaded⟩ := h
  refine ⟨?_, ?_, ?_⟩
  · cases hClosed with
    | ended hClosed =>
      -- each outcome has the context in a place of its own
      cases hClosed with
      | finished u hClosed =>
        obtain ⟨r, hClosed⟩ := hClosed
        exact .ended (.finished u ⟨r, hClosedBy hClosed⟩)
      | errored ds hClosed =>
        obtain ⟨r, hClosed⟩ := hClosed
        exact .ended (.errored ds ⟨r, hClosedBy hClosed⟩)
      | suspended hClosed hRest => exact .ended (.suspended (hClosedBy hClosed) hRest)
  · exact Outcome.of_onContext (P := Context.Whole) (hWholeBy hWhole)
  · refine Outcome.of_onContext (P := fun c => c.preludePending = false) ?_
    exact (hLoadedBy _).trans hLoaded

/-- A run that begins where nothing dangles. -/
theorem sound_run (code : String) {c : Context} (hClosed : c.IsClosed) (hWhole : c.Whole)
    (options : Options) : (AmbScript.run code c options).Sound :=
  ⟨closed_runBy code hClosed options, whole_runBy code hWhole options,
    preludePending_runBy code c options⟩

/-- What steps and resumes lead to. -/
theorem Sound.leads {a b : Stage} (h : a.Sound) (hLeads : Leads retire a b) : b.Sound :=
  ⟨h.closed.leads hLeads, whole_leads h.closed h.whole hLeads,
    (Next.leads hLeads).preludePending h.loaded⟩

/-- Whatever is done with a stage, nothing dangles. -/
theorem Sound.follow {st : Stage} (h : st.Sound) (move : Move) : (st.follow move).Sound := by
  cases st with
  | running r =>
    cases move with
    | step => exact h.leads (.step r : Leads Search.isExhausted _ _)
    | expire => exact h.leads (.expire r : Leads Search.isExhausted _ _)
    | signal => exact h.leads (.signal r : Leads Search.isExhausted _ _)
    | takeOutput => exact h.leads (.takeOutput r : Leads Search.isExhausted _ _)
    | resume => exact h
    | run code options => exact h
  | ended o =>
    -- a stage that has ended is run again in its context
    have hRun (code : String) (options : Options) :
        (AmbScript.run code o.context options).Sound := by
      refine sound_run code ?_ h.whole options
      cases h.closed with
      | ended hClosed => exact hClosed.context
    cases move with
    | step => exact h
    | expire => exact h
    | signal =>
      exact h.onContext (fun hClosed => hClosed.of_same rfl rfl rfl rfl)
        (fun hWhole => hWhole.of_same rfl rfl rfl rfl) fun _ => rfl
    | takeOutput =>
      exact h.onContext (fun hClosed => hClosed.of_same rfl rfl rfl rfl)
        (fun hWhole => hWhole.of_same rfl rfl rfl rfl) fun _ => rfl
    | run code options => cases o <;> exact hRun code options
    | resume =>
      cases o with
      | suspended s => exact h.leads (.resume s : Leads Search.isExhausted _ _)
      | finished u c => exact h
      | errored ds c => exact h

-- ---------------------------------------------------------------------------
-- Contexts with one more frame
-- ---------------------------------------------------------------------------

end Stage

namespace Context

variable {c d : Context}

/-- Where nothing dangles, a scope refers to nothing outside of some closed region. -/
theorem Whole.exists_alike (h : c.Whole) {f : FrameId} {scope : Scope}
    (hScope : c.store.scope? f = some scope) :
    ∃ r s', c.Closed r ∧ scope.Alike r.same f f s' := by
  obtain ⟨r, hClosed, hCovers⟩ := h
  have hMade : f < c.store.nextFrame := by
    rw [← scope?_isSome_iff, hScope]
    rfl
  obtain ⟨s, s', hs, -, hAlike⟩ := Agree.scopes hClosed (f := f) ⟨rfl, hCovers f hMade⟩
  rw [hScope] at hs
  cases hs
  exact ⟨r, s', hClosed, hAlike⟩

/-- Frames are younger than the frames around them. -/
theorem Whole.grounded (h : c.Whole) : c.Grounded := by
  intro f scope p hScope hParent
  obtain ⟨r, s', -, hAlike⟩ := h.exists_alike hScope
  have hOlder := hAlike.parent
  rw [hParent] at hOlder
  generalize s'.parent = q at hOlder
  cases hOlder with
  | some hOlder => exact hOlder.2.1

/-- All numbers are those of frames that there are. -/
theorem Whole.scope_renumber (h : c.Whole) {f : FrameId} {scope : Scope}
    (hScope : c.store.scope? f = some scope) : scope.renumber c.store.nextFrame = scope := by
  obtain ⟨r, s', hClosed, hAlike⟩ := h.exists_alike hScope
  exact hAlike.renumber_eq_self fun _ _ hPair => (Agree.lt_nextFrame hClosed hPair).1

/-- The frames of programs are there. -/
theorem Whole.outer_lt (h : c.Whole) {f : FrameId} (hMem : f ∈ c.outer) :
    f < c.store.nextFrame := by
  obtain ⟨r, hClosed, -⟩ := h
  have hOuter : ∀ fs gs : List FrameId, List.Forall₂ r.same.frames.Pairs fs gs →
      ∀ f ∈ fs, f < c.store.nextFrame := by
    intro fs gs hPairs
    induction hPairs with
    | nil => exact fun f hMem => absurd hMem List.not_mem_nil
    | cons hPair _ ih =>
      exact List.forall_mem_cons.mpr ⟨(Agree.lt_nextFrame hClosed hPair).1, ih⟩
  exact hOuter _ _ (Agree.outer hClosed) f hMem

/-- There is a frame at all. -/
theorem Whole.nextFrame_pos (h : c.Whole) : 0 < c.store.nextFrame := by
  obtain ⟨r, hClosed, hCovers⟩ := h
  obtain ⟨f, hMem⟩ := List.exists_mem_of_ne_nil _ (Agree.rooted hClosed)
  exact Nat.lt_of_le_of_lt (Nat.zero_le f) (Whole.outer_lt ⟨r, hClosed, hCovers⟩ hMem)

namespace Shifted

/-- A fault that is taken to be in the same text is reported in the same way. -/
theorem abort (h : c.Shifted k v d) (hSource : d.source = c.source) (t : Fault) :
    (c.abort t).Shifted k v (d.abort t) := by
  refine ⟨h.store, ?_⟩
  have hRest := h.rest
  rw [hSource] at hRest
  rw [hRest]
  rfl

/-- The counter of nodes is set back in both. -/
theorem beginStep (h : c.Shifted k v d) : c.beginStep.Shifted k v d.beginStep :=
  h.change fun _ _ _ _ _ _ => rfl

/-- A stop may be asked for in both. -/
theorem signal (h : c.Shifted k v d) : c.signal.Shifted k v d.signal :=
  h.change fun _ _ _ _ _ _ => rfl

/-- The lines that are taken away are the same. -/
theorem takeOutput (h : c.Shifted k v d) : c.takeOutput.2.Shifted k v d.takeOutput.2 :=
  h.change (f := fun e => { e with output := #[] }) fun _ _ _ _ _ _ => rfl

/-- The time limit may pass in both. -/
theorem expire (h : c.Shifted k v d) :
    Shifted k v { c with expired := true } { d with expired := true } :=
  h.change (f := fun e => { e with expired := true }) fun _ _ _ _ _ _ => rfl

/-- What has been reported is replaced. -/
theorem reporting (h : c.Shifted k v d) (ds : List Diagnostic) :
    Shifted k v { c with errors := ds } { d with errors := ds } :=
  h.change (f := fun e => { e with errors := ds }) fun _ _ _ _ _ _ => rfl

/-- The frame of a program is entered in both. -/
theorem enterOuter (h : c.Shifted k v d) (f : FrameId) :
    (c.enterOuter f).Shifted k v (d.enterOuter (past k f)) := by
  refine ⟨h.store, ?_⟩
  have hRest := h.rest
  rw [hRest]
  rfl

/-- The text that was run last is replaced. -/
theorem reading (h : c.Shifted k v d) (source : Source) :
    Shifted k v { c with source := source } { d with source := source } := by
  refine ⟨h.store, ?_⟩
  have hRest := h.rest
  rw [hRest]

/-- A program asks for the same in both. -/
theorem heeded (h : c.Shifted k v d) (p : Program) : (p.heeded c).Shifted k v (p.heeded d) := by
  rw [p.heeded_eq, p.heeded_eq]
  refine ⟨h.store, ?_⟩
  have hRest := h.rest
  rw [hRest, Bool.or_right_comm]

end Shifted

end Context

-- ---------------------------------------------------------------------------
-- Stages with one more frame
-- ---------------------------------------------------------------------------

namespace Stage

/-- The second stage is the first one with one more frame, the one with the number `k`: outcomes are
of the same kind, with the same diagnostics and the same value, renumbered. -/
inductive Echoes (k : FrameId) (v : Bool) : Stage → Stage → Prop
  | running {m : Machine} {c d : Context} (scheduler : Scheduler) (h : c.Shifted k v d)
      (hSource : d.source = c.source) :
      Echoes k v (.running ⟨m, c, scheduler⟩) (.running ⟨m.renumber k, d, scheduler⟩)
  | suspended {u : Value} {rest : Search .value} {c d : Context} (scheduler : Scheduler)
      (h : c.Shifted k v d) (hSource : d.source = c.source) :
      Echoes k v (.ended (.suspended ⟨u, c, rest, scheduler⟩))
        (.ended (.suspended ⟨u.renumber k, d, rest.renumber k, scheduler⟩))
  | finished (u : Value) {c d : Context} (h : c.Shifted k v d) :
      Echoes k v (.ended (.finished u c)) (.ended (.finished (u.renumber k) d))
  | errored (ds : List Diagnostic) {c d : Context} (h : c.Shifted k v d) :
      Echoes k v (.ended (.errored ds c)) (.ended (.errored ds d))

/-- What was reported is the same. -/
theorem echoes_errored {c d : Context} (h : c.Shifted k v d) :
    Echoes k v (Stage.errored c) (Stage.errored d) := by
  unfold Stage.errored
  rw [h.errors]
  exact .errored _ h

/-- A search begins to be run. -/
theorem echoes_begin {c d : Context} (h : c.Shifted k v d) (hSource : d.source = c.source)
    (s : Search .value) (scheduler : Scheduler) :
    Echoes k v (Stage.begin s c scheduler) (Stage.begin (s.renumber k) d scheduler) :=
  .running (m := .ofSearch s) scheduler h.beginStep hSource

theorem echoes_stepBy {m : Machine} {c d : Context} (scheduler : Scheduler) (h : c.Shifted k v d)
    (hSource : d.source = c.source) (hGrounded : c.Grounded) :
    Echoes k v (Running.stepBy Search.isExhausted ⟨m, c, scheduler⟩)
      (Running.stepBy Search.isExhausted ⟨m.renumber k, d, scheduler⟩) := by
  have hStep := m.echoes_step c d hGrounded h
  have hLeft := (m.sameSettings_step Search.isExhausted c).source
  have hRight := ((m.renumber k).sameSettings_step Search.isExhausted d).source
  unfold Running.stepBy
  unfold after at hLeft hRight
  dsimp only
  revert hStep hLeft hRight
  generalize m.step Search.isExhausted c = x, (m.renumber k).step Search.isExhausted d = y
  rintro (⟨m', hNext⟩ | ⟨t, hNext⟩) hLeft hRight
  -- Neither step has changed the text in force, so that what is reported afterwards quotes the same
  -- line.
  · have hSame := hRight.trans (hSource.trans hLeft.symm)
    rw [stage_ok, stage_ok, Machine.finished?_renumber]
    cases m'.finished? with
    | none => exact .running scheduler hNext hSame
    | some x =>
      obtain ⟨_ | u, rest⟩ := x
      · exact .finished .undefined hNext
      · cases scheduler with
        | nonDet => exact .suspended .nonDet hNext hSame
        | preemptive => exact .finished u hNext
  · exact echoes_errored (hNext.abort (hRight.trans (hSource.trans hLeft.symm)) t)

-- ---------------------------------------------------------------------------
-- Programs
-- ---------------------------------------------------------------------------

end Stage

/-- A program makes its frame and its declarations. -/
theorem Program.echoes_start {P : Context → Prop} (p : Program) :
    Eval.Echoes k v P (Search.renumber k) p.start p.start := by
  have hEnter : Eval.Echoes k v P id p.enter p.enter := by
    refine (echoes_childFrame _).bind fun frame => ?_
    refine (echoes_hoist frame p.body).bind fun _ => ?_
    exact echoes_modify fun c d h => h.enterOuter frame
  exact hEnter.bind fun _ => echoes_pure rfl

namespace Stage

/-- A program that is begun in both contexts. -/
theorem echoes_program (p : Program) {c d : Context} (h : c.Shifted k v d)
    (hSource : d.source = c.source) (scheduler : Scheduler) :
    Echoes k v (p.begin c scheduler) (p.begin d scheduler) := by
  have hStart := p.echoes_start (P := Context.Any) _ _ trivial (h.heeded p)
  have hHeeded : (p.heeded d).source = (p.heeded c).source := by
    rw [p.heeded_eq, p.heeded_eq]
    exact hSource
  have hLeft := (sameSettings_start p (p.heeded c)).source
  have hRight := (sameSettings_start p (p.heeded d)).source
  rw [p.begin_eq, p.begin_eq]
  unfold after at hLeft hRight
  revert hStart hLeft hRight
  generalize p.start (p.heeded c) = x, p.start (p.heeded d) = y
  rintro (⟨s, hNext⟩ | ⟨t, hNext⟩) hLeft hRight
  · exact echoes_begin hNext (hRight.trans (hHeeded.trans hLeft.symm)) s scheduler
  · exact echoes_errored (hNext.abort (hRight.trans (hHeeded.trans hLeft.symm)) t)

/-- The run of a text on contexts with the library in them. -/
theorem echoes_run (code : String) (options : Options) {c d : Context}
    (hLoaded : c.preludePending = false)
    (h : (c.prepare options.limits).Shifted k v (d.prepare options.limits)) :
    Echoes k v (AmbScript.run code c options) (AmbScript.run code d options) := by
  have hAlso : (d.prepare options.limits).preludePending = false := h.preludePending.trans hLoaded
  unfold AmbScript.run runBy
  rw [Context.loadPreludeBy_of_loaded _ hAlso,
    Context.loadPreludeBy_of_loaded _ (c := c.prepare options.limits) hLoaded]
  dsimp only
  cases (parse ⟨programName, code⟩).program with
  | none => exact echoes_errored (h.reporting _)
  | some p => exact echoes_program p (h.reading _) rfl options.scheduler

-- ---------------------------------------------------------------------------
-- All moves
-- ---------------------------------------------------------------------------

/-- Where a move can be made, it can be made with one more frame, and it makes no difference. -/
theorem Echoes.follow {a b : Stage} (h : Echoes k v a b) (hSound : a.Sound) (move : Move) :
    Echoes k v (a.follow move) (b.follow move) := by
  have hLoaded := hSound.loaded
  cases h with
  | running scheduler h hSource =>
    cases move with
    | step => exact echoes_stepBy scheduler h hSource hSound.whole.grounded
    | expire => exact .running scheduler h.expire hSource
    | signal => exact .running scheduler h.signal hSource
    | takeOutput => exact .running scheduler h.takeOutput hSource
    | resume => exact .running scheduler h hSource
    | run code options => exact .running scheduler h hSource
  | @suspended u rest c d scheduler h hSource =>
    cases move with
    | step => exact .suspended scheduler h hSource
    | expire => exact .suspended scheduler h hSource
    | signal => exact .suspended scheduler h.signal hSource
    | takeOutput => exact .suspended scheduler h.takeOutput hSource
    | run code options => exact echoes_run code options hLoaded (h.prepare _)
    | resume =>
      -- Whether the run was stopped meanwhile is the same in both, so both give up or both go on.
      show Echoes k v (Suspension.resume _) (Suspension.resume _)
      unfold Suspension.resume
      dsimp only
      rw [h.aborted]
      split
      · exact echoes_errored h
      · exact echoes_begin h hSource rest scheduler
  | finished u h =>
    cases move with
    | step => exact .finished u h
    | expire => exact .finished u h
    | signal => exact .finished u h.signal
    | takeOutput => exact .finished u h.takeOutput
    | resume => exact .finished u h
    | run code options => exact echoes_run code options hLoaded (h.prepare _)
  | errored ds h =>
    cases move with
    | step => exact .errored ds h
    | expire => exact .errored ds h
    | signal => exact .errored ds h.signal
    | takeOutput => exact .errored ds h.takeOutput
    | resume => exact .errored ds h
    | run code options => exact echoes_run code options hLoaded (h.prepare _)

/-- Whatever is done with two such stages, they stay the same. -/
theorem Echoes.followAll {a b : Stage} (h : Echoes k v a b) (hSound : a.Sound)
    (moves : List Move) : Echoes k v (moves.foldl Stage.follow a) (moves.foldl Stage.follow b) := by
  induction moves generalizing a b with
  | nil => exact h
  | cons move moves ih => exact ih (h.follow hSound move) (hSound.follow move)

-- ---------------------------------------------------------------------------
-- Between runs
-- ---------------------------------------------------------------------------

/-- Where a program begins, it is the only one that has been entered. -/
theorem unwound_begin (p : Program) (c : Context) (scheduler : Scheduler) :
    (p.begin c scheduler).Unwound := by
  rw [p.begin_eq]
  cases p.start (p.heeded c) with
  | ok s d => trivial
  | error t d => rfl

/-- At the end of a run the frames that it entered are left again. -/
theorem Unwound.run {a b : Stage} (h : a.Unwound) (hSettled : a.Settled)
    (hRun : Relation.ReflTransGen (Leads retire) a b) : b.Unwound := by
  have hBoth : b.Unwound ∧ b.Settled := by
    induction hRun with
    | refl => exact ⟨h, hSettled⟩
    | tail _ hLeads ih => exact ⟨ih.1.leads ih.2 hLeads, ih.2.leads hLeads⟩
  exact hBoth.1

end Stage

namespace Context

/-- Between runs no frames are entered but those of programs. -/
theorem AtRest.inner_eq_nil {c : Context} (h : c.AtRest) : c.inner = [] := by
  induction h with
  | new chapter => rfl
  | @ran c _ code options o hRun ih =>
    -- a run starts with no frame of its own, and whenever it ends it has left those it entered
    have hFirst : (run code c options).Unwound := by
      obtain ⟨d, hReadied, ⟨errors, hBegun⟩ | ⟨p, -, hBegun⟩⟩ :=
        runBy_cases Search.isExhausted code c options
      · unfold run
        rw [hBegun]
        exact hReadied.inner
      · unfold run
        rw [hBegun]
        exact Stage.unwound_begin _ _ _
    exact hFirst.run (Stage.BeginsOn.run code options).settled hRun
  | @ranProgram c _ p options o hRun ih =>
    have hFirst : (runProgram p c options).Unwound := by
      obtain ⟨d, -, hBegun⟩ := runProgramBy_eq Search.isExhausted p c options
      unfold runProgram
      rw [hBegun]
      exact Stage.unwound_begin _ _ _
    exact hFirst.run (Stage.BeginsOn.runProgram p options).settled hRun
  | interrupted _ _ => rfl
  | signalled _ ih => exact ih
  | taken _ ih => exact ih

/-- After a text that cannot be read, only the library has been run. -/
theorem AtRest.exists_loaded {c : Context} (h : c.AtRest) {code : String}
    (hNone : (parse (programText code)).program = none) (options : Options) :
    ∃ d : Context, d.AtRest ∧ d.preludePending = false := by
  obtain ⟨d, hLoad, hReadied⟩ := c.exists_readied Search.isExhausted options.limits
  let e : Context := { d with errors := (parse (programText code)).log.kept }
  have hRun : run code c options = .ended (.errored e.errors e) :=
    Stage.runBy_eq_errored Search.isExhausted options hLoad hNone
  have hEnded : Relation.ReflTransGen (Stage.Leads Search.isExhausted) (run code c options)
      (.ended (.errored e.errors e)) := hRun ▸ .refl
  exact ⟨e, h.ran code options hEnded, hReadied.preludePending⟩

-- ---------------------------------------------------------------------------
-- Programs that are not entered
-- ---------------------------------------------------------------------------

/-- A frame is added to those that there are, and nothing refers to it. -/
theorem Whole.shifted_store {c : Context} (h : c.Whole) {s : Store}
    (hKept : ∀ f < c.store.nextFrame, s.scope? f = c.store.scope? f)
    (hMade : s.nextFrame = c.store.nextFrame + 1) :
    c.store.forget.Shifted c.store.nextFrame s.forget where
  positive := h.nextFrame_pos
  old := Nat.le_refl _
  nextFrame := hMade
  trail := Array.map_empty.symm
  watermark := (past_of_lt h.nextFrame_pos).symm
  scopes f := by
    show s.scope? (past c.store.nextFrame f) = (c.store.scope? f).map _
    by_cases hf : f < c.store.nextFrame
    -- the older frames are as they were, and name only older frames themselves
    · rw [past_of_lt hf, hKept f hf]
      cases hScope : c.store.scope? f with
      | none => rfl
      | some scope => exact congrArg some (h.scope_renumber hScope).symm
    · -- there are no such frames
      have hNone : c.store.scope? f = none := by
        rw [← Option.not_isSome_iff_eq_none, scope?_isSome_iff]
        exact hf
      rw [past_of_le (Nat.le_of_not_lt hf), hNone, Option.map_none,
        ← Option.not_isSome_iff_eq_none, scope?_isSome_iff, hMade]
      exact fun hLess => hf (Nat.lt_of_succ_lt_succ hLess)

/-- A program that declares a name twice leaves one more frame, and may have set how diagnostics are
listed. -/
theorem Whole.exists_unentered {c : Context} (h : c.Whole) {p : Program} (hTwice : ¬ p.Distinct)
    (source : Source) (limits : Limits) :
    ∃ t e, p.start (p.heeded { c.prepare limits with source := source }) = .error t e ∧
      (e.abort t).errors ≠ [] ∧
      (e.abort t).environments = c.outer ∧
      (∀ f < c.store.nextFrame, (e.abort t).store.scope? f = c.store.scope? f) ∧
      (e.abort t).output = c.output ∧
      ∀ limits', (c.prepare limits').Shifted c.store.nextFrame
        (decide (p.directive? = some verboseDirective)) ((e.abort t).prepare limits') := by
  let c₁ : Context := { c.prepare limits with source := source }
  obtain ⟨t, s, hStart⟩ := Program.start_eq_error hTwice (p.heeded c₁)
  have hStore : (p.heeded c₁).store = c.store.forget := p.store_heeded c₁
  obtain ⟨hKept, hMade, -, -⟩ := p.kept_start (c := p.heeded c₁) (by
    rw [hStore]
    exact Nat.zero_le _)
  rw [after_error hStart, hStore] at hKept hMade
  -- the frames that outlast the run are older than the one left behind
  have hOuter : c.outer.map (past c.store.nextFrame) = c.outer := by
    refine (List.map_congr_left fun f hMem => ?_).trans (List.map_id _)
    exact past_of_lt (h.outer_lt hMem)
  rw [p.heeded_eq] at hStart ⊢
  refine ⟨t, _, hStart, ?_, rfl, hKept, rfl, fun limits' => ⟨h.shifted_store hKept hMade, ?_⟩⟩
  · exact List.append_ne_nil_of_right_ne_nil _ (List.cons_ne_nil _ _)
  · rw [show (c.prepare limits').outer.map (past c.store.nextFrame) = c.outer from hOuter]
    rfl

/-- A text that is not a program, and a program that declares a name twice, run on a context between
runs that has the library in it:  * the run fails, and what is wrong is reported; * the frames in
force, what is bound in all frames, and the displayed lines are as they were; * after a text that is
not a program every run is the same as if the text had not been run; * after a program that declares
a name twice, whatever texts are run, and resumed or stopped in whatever way, all outcomes are the
same, but for the numbers of frames and, if the program asks for it, elaborations in what is
listed. -/
theorem AtRest.unstarted_without_effect {c : Context} (hRest : c.AtRest)
    (hLoaded : c.preludePending = false) {code : String}
    (hFails : ∀ p, (parse (programText code)).program = some p → ¬ p.Distinct)
    (options : Options) :
    ∃ ds d, run code c options = .ended (.errored ds d) ∧ ds ≠ [] ∧
      d.environments = c.environments ∧
      (∀ f < c.store.nextFrame, d.store.scope? f = c.store.scope? f) ∧
      d.output = c.output ∧
      ((parse (programText code)).program = none →
        ∀ code' options', run code' d options' = run code' c options') ∧
      ∀ p, (parse (programText code)).program = some p →
        ∀ code' options' (moves : List Move),
          Stage.Echoes c.store.nextFrame (decide (p.directive? = some verboseDirective))
            (moves.foldl Stage.follow (run code' c options'))
            (moves.foldl Stage.follow (run code' d options')) := by
  have hLoad := Context.loadPreludeBy_of_loaded Search.isExhausted (c := c.prepare options.limits)
    hLoaded
  have hEnvironments : c.environments = c.outer := by
    show c.inner ++ c.outer = c.outer
    rw [hRest.inner_eq_nil]
    rfl
  -- an unreadable text leaves nothing behind but the reports; a duplicate declaration leaves a
  -- frame that was never entered
  cases hParsed : (parse (programText code)).program with
  | none =>
    let d : Context := { c.prepare options.limits with
      errors := (parse (programText code)).log.kept }
    have hRun : run code c options = .errored d :=
      Stage.runBy_eq_errored Search.isExhausted options hLoad hParsed
    refine ⟨_, d, hRun, kept_ne_nil_of_parse hParsed, ?_, fun f _ => rfl, rfl, fun _ _ _ => rfl,
      fun p hSome => ?_⟩
    · rw [hEnvironments]
      rfl
    · cases hSome
  | some p =>
    obtain ⟨t, e, hStart, hErrors, hForce, hKept, hOutput, hShifted⟩ :=
      hRest.whole.exists_unentered (hFails p hParsed) (programText code) options.limits
    have hRun : run code c options = .errored (e.abort t) := by
      unfold run
      rw [Stage.runBy_eq_begin Search.isExhausted options hLoad hParsed, p.begin_eq, hStart]
    refine ⟨_, e.abort t, hRun, hErrors, hForce.trans hEnvironments.symm, hKept, hOutput,
      fun hNone => ?_, fun q hSome code' options' moves => ?_⟩
    · cases hNone
    · cases hSome
      exact (Stage.echoes_run code' options' hLoaded (hShifted options'.limits)).followAll
        (Stage.sound_run code' hRest.isClosed hRest.whole options') moves

/-- A program that declares a name twice makes no difference to the runs that follow. -/
theorem declaredTwice_without_effect : ∃ c d : Context, ∃ ds,
    c.AtRest ∧ c.preludePending = false ∧ ds ≠ [] ∧
      run "let a = 1; let a = 2;" c .default = .ended (.errored ds d) ∧
      d.environments = c.environments ∧ d.output = c.output ∧
      ∀ (code : String) (options : Options) (moves : List Move),
        Stage.Echoes c.store.nextFrame false (moves.foldl Stage.follow (run code c options))
          (moves.foldl Stage.follow (run code d options)) := by
  have hUnread : (parse (programText "(")).program.isNone = true := by decide +kernel
  have hReads : ((parse (programText "let a = 1; let a = 2;")).program.any
      fun p => decide (¬ p.Distinct ∧ p.directive? ≠ some verboseDirective)) = true := by
    decide +kernel
  obtain ⟨p, hParsed, hRead⟩ := (Option.any_eq_true _ _).mp hReads
  obtain ⟨hTwice, hPlain⟩ := of_decide_eq_true hRead
  have hFails : ∀ q, (parse (programText "let a = 1; let a = 2;")).program = some q →
      ¬ q.Distinct := by
    intro q hq
    rw [hParsed] at hq
    cases hq
    exact hTwice
  -- a context with the library in it is had by running a text that cannot be read
  obtain ⟨c, hRest, hLoaded⟩ :=
    (AtRest.new 4).exists_loaded (Option.isNone_iff_eq_none.mp hUnread) .default
  obtain ⟨ds, d, hFailed, hReported, hFrames, -, hOutput, -, hEchoes⟩ :=
    hRest.unstarted_without_effect hLoaded hFails .default
  have hEchoes := hEchoes p hParsed
  rw [decide_eq_false hPlain] at hEchoes
  exact ⟨c, d, ds, hRest, hLoaded, hReported, hFailed, hFrames, hOutput, hEchoes⟩

end Context

end AmbScript
