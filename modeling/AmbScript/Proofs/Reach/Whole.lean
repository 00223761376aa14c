import AmbScript.Proofs.Machine.InForce
import AmbScript.Proofs.Reach.Frames
import AmbScript.Proofs.Session.History

/-!
# All frames ever made

From no frame that was ever made does anything lead to a frame that is not there, in whatever
context a run is, or has been left.

* `Machine.fills_step` — a machine step leaves no frame out.
* `Context.Whole` — all frames are in a closed region; `Stage.whole_leads` says that this stays so
  in a run.
* `Context.AtRest.whole` — it holds of contexts at rest.

A run is closed in a region that is tied to its machine, and a context at rest in one with all
frames. The two need not be the same, but two closed regions can be put together
(`Context.Closed.union`), so there is one that serves both purposes.
-/

namespace AmbScript

variable {α : Type} {r r' : Region} {retire : {k : Kind} → Search k → Bool}

open Eval

-- ---------------------------------------------------------------------------
-- The step
-- ---------------------------------------------------------------------------

namespace Machine

theorem still_startProduct (exprs : List Expr) (stack : Stack .tuple) :
    Still (startProduct exprs stack) := by
  cases exprs with
  | nil => exact still_pure _
  | cons e rest => exact still_bind e.still_start fun _ => still_pure _

/-- A value is put in its place, and the next operand is an expression. -/
theorem still_fillOperand (operand : Operand) (below : List Operand) (values : List Value)
    (v : Value) (stack : Stack .tuple) : Still (fillOperand operand below values v stack) := by
  unfold fillOperand
  split
  · exact still_pure _
  · exact still_bind (Expr.still_start _) fun _ => still_pure _

/-- A statement is started on top of the others. -/
theorem fills_startStatement (index : Nat) (stmt : Stmt) (rest : List Stmt) {below : List Reached}
    (hBelow : ReachedClosed r below) (commit : Option Nat) {stack : Stack .completion}
    (hStack : stack.Closed r) :
    Fills r Machine.Closed (startStatement index stmt rest below commit stack) := by
  refine fills_bind (stmt.fills_start r) fun _ hle _ hs => ?_
  exact fills_pure (closed_pullStatement (.cons index rest hs (hBelow.mono hle)) _ (hStack.mono
    hle))

/-- The first statement of a block is started. -/
theorem fills_startSequence (stmts : List Stmt) {stack : Stack .completion}
    (hStack : stack.Closed r) : Fills r Machine.Closed (startSequence stmts stack) := by
  cases stmts with
  | nil => exact (keeps_startSequence [] hStack).fills (still_pure _)
  | cons stmt rest => exact fills_startStatement 0 stmt rest .nil none hStack

/-- A statement is completed, and the next one may be started. -/
theorem fills_completeStatement (index : Nat) (rest : List Stmt) {completion : Completion}
    (hCompletion : ClosedItem .completion r completion) {reached : List Reached}
    (h : ReachedClosed r reached) (commit : Option Nat) {stack : Stack .completion}
    (hStack : stack.Closed r) :
    Fills r Machine.Closed (completeStatement index rest completion reached commit stack) := by
  unfold completeStatement
  split
  · exact fills_startStatement _ _ _ h commit hStack
  · exact fills_pure (closed_found (k := .completion) hCompletion (.sequenced h commit) hStack)

section

variable (header : Loop)

theorem still_enterLoop : Still (enterLoop header) := by
  cases header with
  | whileLoop test body => exact still_pure _
  | forLoop init test update body frame => exact still_enter frame

theorem still_leaveLoop : Still (leaveLoop header) := by
  cases header with
  | whileLoop test body => exact still_pure _
  | forLoop init test update body frame => exact still_leave

/-- The last part of a loop is asked, or the loop is left. -/
theorem still_pullPhase (phases : List Phase) (stack : Stack .completion) :
    Still (pullPhase header phases stack) := by
  unfold pullPhase
  split
  · exact still_bind (still_leaveLoop header) fun _ => still_pure _
  all_goals exact still_pure _

theorem still_completeLoop (phases : List Phase) (completion : Completion)
    (stack : Stack .completion) : Still (completeLoop header phases completion stack) := by
  refine still_bind (still_leaveLoop header) fun _ => ?_
  exact still_pure _

theorem still_startTest : Still (startTest header) := by
  cases header with
  | whileLoop test body => exact still_bind test.still_start fun _ => still_pure _
  | forLoop init test update body frame =>
    cases test with
    | none => exact still_pure _
    | some test => exact still_bind test.still_start fun _ => still_pure _

theorem still_startUpdate : Still (startUpdate header) := by
  unfold startUpdate
  split
  · exact still_bind (Expr.still_start _) fun _ => still_pure _
  · exact still_startTest header

theorem fills_startTest : Fills r Phase.Closed (startTest header) :=
  keeps_startTest.fills (still_startTest header)

/-- The first part of a loop. -/
theorem fills_startLoop : Fills r Phase.Closed (startLoop header) := by
  unfold startLoop
  split
  · exact fills_bind (Stmt.fills_start _ r) fun _ _ _ hs => fills_pure (.init hs)
  · exact fills_startTest _

end

section

variable {header : Loop} (hHeader : header.Closed r) {phases : List Phase}
  (hPhases : PhasesClosed r phases) {stack : Stack .completion} (hStack : stack.Closed r)
include hHeader

/-- The body is started in a new frame, if the loop has variables of its own. -/
theorem fills_startBody : Fills r Phase.Closed (startBody header) := by
  cases header with
  | whileLoop test body =>
    exact fills_bind (body.fills_start r) fun _ _ _ hs => fills_pure (.body hs)
  | forLoop init test update body frame =>
    refine fills_bind (fills_openRound init hHeader) fun _ _ round hRound => ?_
    refine fills_bind ((keeps_enter hRound).fills (still_enter round)) fun r₂ hle₂ _ _ => ?_
    refine fills_bind (body.fills_start r₂) fun _ hle₃ _ hs => ?_
    exact fills_bind (keeps_leave.fills still_leave) fun _ hle₄ _ _ =>
      fills_pure (.body (.within (hRound.mono (hle₂.trans (hle₃.trans hle₄))) (hs.mono hle₄)))

include hPhases hStack

/-- A part of the loop is started on top of the others. -/
theorem fills_launchPhase {x : Eval Phase} (hx : Fills r Phase.Closed x) :
    Fills r Machine.Closed (do pullPhase header ((← x) :: phases) stack) := by
  refine fills_bind hx fun _ hle _ hPhase => ?_
  exact (keeps_pullPhase (hHeader.mono hle) (.cons hPhase (hPhases.mono hle)) (hStack.mono
    hle)).fills (still_pullPhase _ _ _)

/-- The body is started, or the loop is left. -/
theorem fills_afterTest (test : Value) :
    Fills r Machine.Closed (afterTest header phases test stack) := by
  have hDone : ClosedItem .completion r (.value .undefined) := Value.Alike.undefined
  unfold afterTest
  split
  · exact fills_launchPhase hHeader hPhases hStack (fills_startBody hHeader)
  · exact (keeps_completeLoop hHeader hPhases hStack hDone).fills (still_completeLoop _ _ _ _)
  · exact (keeps_nonBoolean _ _).fills (still_throw _)

/-- The update comes next, then the test, unless the loop is left. -/
theorem fills_afterBody {completion : Completion}
    (hCompletion : ClosedItem .completion r completion) :
    Fills r Machine.Closed (afterBody header phases completion stack) := by
  refine (keeps_afterBody hHeader hPhases hStack hCompletion).fills ?_
  unfold afterBody
  split
  · exact still_bind (still_startUpdate header) fun _ => still_pullPhase _ _ _
  · exact still_bind (still_startUpdate header) fun _ => still_pullPhase _ _ _
  · exact still_completeLoop _ _ _ _
  · exact still_completeLoop _ _ _ _

end

/-- A search is asked for a result. -/
theorem fills_stepPull {k : Kind} {s : Search k} (h : s.Closed r) {stack : Stack k}
    (hStack : stack.Closed r) : Fills r Machine.Closed (stepPull s stack) := by
  have hKeeps := keeps_stepPull h hStack
  cases h with
  | within hFrame h =>
    exact hKeeps.fills (still_bind (still_enter _) fun _ => still_pure _)
  | choice es =>
    exact hKeeps.fills (still_bind still_checkpoint fun _ => (idle_nextAlternative _ _ _).still)
  | between start es => exact hKeeps.fills (idle_nextAlternative _ _ _).still
  | product es => exact hKeeps.fills (still_startProduct _ _)
  | sequence stmts => exact fills_startSequence stmts hStack
  | @loop header hHeader =>
    refine fills_bind ((keeps_enterLoop hHeader).fills (still_enterLoop header))
      fun _ hle _ _ => ?_
    exact fills_launchPhase (hHeader.mono hle) .nil (hStack.mono hle) (fills_startLoop header)
  | @looping header hHeader phases h =>
    exact hKeeps.fills
      (still_bind (still_enterLoop header) fun _ => still_pullPhase header phases stack)
  | _ => exact hKeeps.fills (still_pure _)

/-- A search has found a result. -/
theorem fills_stepFound {i o : Kind} {item : i.Item} (hItem : ClosedItem i r item) {s : Search i}
    (hs : s.Closed r) {p : Pending i o} (hp : p.Closed r) {stack : Stack o}
    (hStack : stack.Closed r) : Fills r Machine.Closed (stepFound retire item s p stack) := by
  -- where the step makes no frame, keeping the region is all there is to show
  have hKeeps : Keeps r Machine.Closed (stepFound retire item s p stack) :=
    keeps_stepFound hItem hs hp hStack
  cases hp with
  | @map i o f hf =>
    exact hKeeps.fills (still_bind (f.still_apply item) fun _ => still_pure _)
  | outer hf =>
    exact fills_bind (Expansion.fills_apply hf hItem) fun _ hle _ hNext =>
      fills_pure (closed_pull hNext (.push (.inner (hf.mono hle) (hs.mono hle)) (hStack.mono hle)))
  | within hFrame => exact hKeeps.fills (still_bind still_leave fun _ => still_pure _)
  | operand rest hBelow hValues => exact hKeeps.fills (still_fillOperand _ _ _ _ _)
  | statement index rest hBelow commit =>
    exact fills_completeStatement index rest hItem (reachedClosed_keep _ index rest hs hBelow)
      commit hStack
  | @init header hHeader below hBelow =>
    exact fills_launchPhase hHeader (phasesClosed_keep _ (.init hs) hBelow) hStack
      (fills_startTest header)
  | test hHeader hBelow =>
    exact fills_afterTest hHeader (phasesClosed_keep _ (.test hs) hBelow) hStack item
  | body hHeader hBelow =>
    exact fills_afterBody hHeader (phasesClosed_keep _ (.body hs) hBelow) hStack hItem
  | @update header hHeader below hBelow =>
    exact fills_launchPhase hHeader (phasesClosed_keep _ (.update hs) hBelow) hStack
      (fills_startTest header)
  | _ => exact hKeeps.fills (still_pure _)

/-- A search has no more results. No frame is made then, even where an alternative is started. -/
theorem still_stepDrained {i o : Kind} (rest : Search i) (p : Pending i o) (stack : Stack o) :
    Still (stepDrained rest p stack) := by
  cases p with
  | within frame => exact still_bind still_leave fun _ => still_pure _
  | choosing start es => exact still_bind (still_restore _) fun _ => (idle_nextAlternative _ _ _).still
  | init header below => exact still_pullPhase _ _ _
  | test header below => exact still_pullPhase _ _ _
  | body header below => exact still_pullPhase _ _ _
  | update header below => exact still_pullPhase _ _ _
  | _ => exact still_pure _

/-- A machine stays closed in larger regions. -/
theorem Closed.mono (hle : r ≤ r') {m : Machine} (h : m.Closed r) : m.Closed r' := by
  cases h with
  | mk hWalk hStack =>
    refine .mk ?_ (hStack.mono hle)
    cases hWalk with
    | pull h => exact .pull (h.mono hle)
    | found hItem h => exact .found (hItem.mono hle) (h.mono hle)
    | drained h => exact .drained (h.mono hle)

/-- A machine step leaves no frame out. -/
theorem fills_step {m : Machine} (h : m.Closed r) : Fills r Machine.Closed (m.step retire) := by
  have hKeeps : Keeps r Machine.Closed (m.step retire) := keeps_step h
  cases h with
  | @mk k walk stack hWalk hStack =>
    cases hWalk with
    | pull hs => exact fills_stepPull hs hStack
    | found hItem hs =>
      cases hStack with
      | nil => exact hKeeps.fills (still_pure _)
      | push hp hBelow => exact fills_stepFound hItem hs hp hBelow
    | drained hs =>
      cases hStack with
      | nil => exact hKeeps.fills (still_pure _)
      | push hp hBelow => exact hKeeps.fills (still_stepDrained _ _ _)

end Machine

-- ---------------------------------------------------------------------------
-- Contexts
-- ---------------------------------------------------------------------------

namespace Region

/-- The two regions together. -/
def union (r r' : Region) : Region :=
  ⟨fun f => r.frames f ∨ r'.frames f, fun i => r.cells i ∨ r'.cells i⟩

/-- The first one is part of it. -/
theorem le_union_left (r r' : Region) : r ≤ r.union r' := ⟨fun _ => .inl, fun _ => .inl⟩

theorem le_union_right (r r' : Region) : r' ≤ r.union r' := ⟨fun _ => .inr, fun _ => .inr⟩

end Region

namespace Context

/-- Nothing dangles, in whatever frame. -/
def Whole (c : Context) : Prop := ∃ r : Region, c.Closed r ∧ r.Covers c

variable {c d : Context}

/-- Nothing else of the context matters. -/
theorem Whole.of_same (h : c.Whole) (hStore : d.store = c.store) (hCells : d.nextCell = c.nextCell)
    (hInner : d.inner = c.inner) (hOuter : d.outer = c.outer) : d.Whole := by
  obtain ⟨r, hClosed, hCovers⟩ := h
  exact ⟨r, hClosed.of_same hStore hCells hInner hOuter, hCovers.of_le le_rfl (by rw [hStore])⟩

/-- What is reported does not matter. -/
theorem Whole.abort (h : c.Whole) (t : Fault) : (c.abort t).Whole := by
  obtain ⟨r, hClosed, hCovers⟩ := h
  exact Whole.of_same ⟨r, Closed.unwind hClosed, hCovers⟩ rfl rfl rfl rfl

theorem Whole.interrupt (h : c.Whole) : c.interrupt.Whole :=
  (h.abort (.interrupted .synthetic)).of_same rfl rfl rfl rfl

theorem Whole.prepare (h : c.Whole) (limits : Limits) : (c.prepare limits).Whole := by
  obtain ⟨r, hClosed, hCovers⟩ := h
  have hForgotten : Closed r { c.unwind with store := c.store.forget } :=
    Closed.withTrail (Closed.unwind hClosed) #[] (fun _ hu => absurd hu List.not_mem_nil) 0
  exact Whole.of_same ⟨r, hForgotten, hCovers⟩ rfl rfl rfl rfl

/-- Two regions that are closed in the same context are closed together. -/
theorem Closed.union (h : Agree r.same c c) (h' : Agree r'.same c c) :
    c.Closed (r.union r') := by
  have hLeft : r.same ≤ (r.union r').same := Region.same_mono (Region.le_union_left r r')
  have hRight : r'.same ≤ (r.union r').same := Region.same_mono (Region.le_union_right r r')
  refine ⟨?_, ?_, h.inner.imp hLeft.1, h.outer.imp hLeft.1, h.rooted, ?_⟩
  · rintro f _ ⟨rfl, hf | hf⟩
    · obtain ⟨s, s', hs, hs', hAlike⟩ := h.scopes (f := f) ⟨rfl, hf⟩
      exact ⟨s, s', hs, hs', hAlike.mono hLeft⟩
    · obtain ⟨s, s', hs, hs', hAlike⟩ := h'.scopes (f := f) ⟨rfl, hf⟩
      exact ⟨s, s', hs, hs', hAlike.mono hRight⟩
  · rintro i _ ⟨rfl, hi | hi⟩
    · exact h.cells (i := i) ⟨rfl, hi⟩
    · exact h'.cells (i := i) ⟨rfl, hi⟩
  -- Entries of the trail name bindings that are in the first region already.
  · intro u hu b hb
    obtain ⟨b', hAlike⟩ := h.logged hu hb
    exact ⟨b', hAlike.mono hLeft⟩

/-- A closed region can be extended so that it has all frames. -/
theorem Whole.extend (h : c.Whole) (hClosed : c.Closed r) :
    ∃ r', r ≤ r' ∧ c.Closed r' ∧ r'.Covers c := by
  obtain ⟨r', hClosed', hCovers⟩ := h
  exact ⟨r.union r', Region.le_union_left r r', Closed.union hClosed hClosed',
    fun f hf => .inr (hCovers f hf)⟩

end Context

-- ---------------------------------------------------------------------------
-- Programs
-- ---------------------------------------------------------------------------

theorem Program.fills_enter (p : Program) (r : Region) : Fills r ClosedUnit p.enter := by
  refine fills_bind (fills_childFrame _) fun r₁ _ f hFrame => ?_
  refine fills_bind ((keeps_unit (matches_hoist hFrame p.body)).fills (filling_hoist _).still)
    fun r₂ hle₂ _ _ => ?_
  exact (keeps_modify fun c hClosed => Context.Closed.enterOuter hClosed (hFrame.mono hle₂)).fills
    (still_modify fun _ => rfl)

/-- A program makes its frame and its declarations. -/
theorem Program.fills_start (p : Program) (r : Region) : Fills r ClosedSearch p.start := by
  refine fills_bind (p.fills_enter r) fun _ _ _ _ => ?_
  exact fills_pure (.map (f := .program) trivial (.sequence _))

namespace Stage

/-- A program that is begun leaves nothing dangling. -/
theorem whole_begin (p : Program) {c : Context} (h : c.Whole) (scheduler : Scheduler) :
    (p.begin c scheduler).context.Whole := by
  obtain ⟨r, hClosed, hCovers⟩ := h
  have hVerbose : (if p.directive? = some verboseDirective then { c with verbose := true }
      else c).Closed r := by
    split
    · exact hClosed.of_same rfl rfl rfl rfl
    · exact hClosed
  have hFilled := p.fills_start r _ hVerbose (by split <;> exact hCovers)
  unfold Program.begin
  dsimp only
  revert hFilled
  generalize p.start _ = x
  rintro (⟨-, hClosed', hCovers', -⟩ | ⟨-, hClosed', hCovers'⟩)
  · exact Context.Whole.of_same ⟨_, hClosed', hCovers'⟩ rfl rfl rfl rfl
  · exact Context.Whole.abort ⟨_, hClosed', hCovers'⟩ _

/-- While a driver step is under way, the machine, too, stays in a closed region that has all
frames. -/
theorem Closed.covered {x : Running} (h : (Stage.running x).Closed) (hWhole : x.context.Whole) :
    ∃ r : Region, x.context.Closed r ∧ r.Covers x.context ∧ x.machine.Closed r := by
  cases h with
  | running hClosed hMachine =>
    obtain ⟨r', hle, hClosed', hCovers⟩ := hWhole.extend hClosed
    exact ⟨r', hClosed', hCovers, hMachine.mono hle⟩

theorem whole_leads {a b : Stage} (h : a.Closed) (hWhole : a.context.Whole)
    (hLeads : Leads retire a b) : b.context.Whole := by
  cases hLeads with
  | step x =>
    -- The region has to have the machine in it, too, as a step is only known to be closed then.
    obtain ⟨r, hClosed, hCovers, hMachine⟩ := h.covered hWhole
    have hFilled : Filled r Machine.Closed (x.machine.step retire x.context) :=
      Machine.fills_step hMachine _ hClosed hCovers
    unfold Running.stepBy
    revert hFilled
    generalize x.machine.step retire x.context = y
    rintro (⟨-, hClosed', hCovers', -⟩ | ⟨-, hClosed', hCovers'⟩)
    · rw [context_stage]
      exact ⟨_, hClosed', hCovers'⟩
    · exact Context.Whole.abort ⟨_, hClosed', hCovers'⟩ _
  | resume s =>
    unfold Suspension.resume
    split
    · exact hWhole
    · exact Context.Whole.of_same hWhole rfl rfl rfl rfl
  | signal x => exact Context.Whole.of_same hWhole rfl rfl rfl rfl
  | expire x => exact Context.Whole.of_same hWhole rfl rfl rfl rfl
  | takeOutput x => exact Context.Whole.of_same hWhole rfl rfl rfl rfl

theorem whole_run {a b : Stage} (h : a.Closed) (hWhole : a.context.Whole)
    (hRun : Relation.ReflTransGen (Leads retire) a b) : b.Closed ∧ b.context.Whole := by
  induction hRun with
  | refl => exact ⟨h, hWhole⟩
  | tail _ hLeads ih => exact ⟨ih.1.leads hLeads, whole_leads ih.1 ih.2 hLeads⟩

end Stage

-- ---------------------------------------------------------------------------
-- Contexts at rest
-- ---------------------------------------------------------------------------

namespace Context

variable {c d : Context}

/-- The library is loaded by runs of its own. -/
theorem Whole.loads {p : Program} (h : c.Whole) (hLoads : c.Loads p d) : d.Whole := by
  obtain ⟨r, hClosed, hCovers⟩ := h
  obtain ⟨e, hEnter, rfl⟩ := hLoads.entered
  have hFilled := p.fills_enter r
    { c with preludePending := false, source := Prelude.source, limits := .unlimited }
    (hClosed.of_same rfl rfl rfl rfl) hCovers
  rw [hEnter] at hFilled
  cases hFilled with
  | ok _ hClosed' hCovers' _ => exact Whole.of_same ⟨_, hClosed', hCovers'⟩ rfl rfl rfl rfl

theorem Whole.readied {limits : Limits} (h : c.Whole) (hReadied : c.Readied limits d) :
    d.Whole := by
  cases hReadied with
  | first _ _ hLoads => exact (h.prepare limits).loads hLoads
  | again => exact h.prepare limits

/-- Primitives are bound in a frame that is there. -/
theorem nextFrame_install (s : Store) (f : FrameId) : (install s f).nextFrame = s.nextFrame := by
  have hAll {α : Type} (name : α → String) (b : α → Binding) (xs : List α) (s : Store) :
      (xs.foldl (fun s x => s.write f (name x) (b x)) s).nextFrame = s.nextFrame := by
    induction xs generalizing s with
    | nil => rfl
    | cons x xs ih => exact (ih _).trans (Store.nextFrame_write _ _ _ _)
  exact (hAll _ _ _ _).trans (hAll _ _ _ _)

/-- The global frame is the only one, and it is in force. -/
theorem whole_new (chapter : Nat) : (Context.new chapter).Whole := by
  obtain ⟨r, hClosed⟩ := isClosed_new chapter
  have hOuter : List.Forall₂ r.same.frames.Pairs [0] [0] := Agree.outer hClosed
  have hGlobal : r.frames 0 := by
    cases hOuter with
    | cons hPair _ => exact hPair.2
  refine ⟨r, hClosed, fun f hf => ?_⟩
  have hf : f < (install (Store.empty.newFrame "global" none none) 0).nextFrame := hf
  rw [nextFrame_install] at hf
  obtain rfl : f = 0 := Nat.lt_one_iff.mp hf
  exact hGlobal

end Context

namespace Stage

theorem whole_errored {c : Context} (h : c.Whole) : (Stage.errored c).context.Whole := h

/-- The run of a text begins with nothing dangling. -/
theorem whole_runBy (code : String) {c : Context} (h : c.Whole) (options : Options) :
    (runBy retire code c options).context.Whole := by
  obtain ⟨d, hReadied, ⟨errors, hErrored⟩ | ⟨p, -, hBegun⟩⟩ := runBy_cases retire code c options
  · rw [hErrored]
    exact whole_errored ((h.readied hReadied).of_same rfl rfl rfl rfl)
  · rw [hBegun]
    refine whole_begin p ?_ _
    exact (h.readied hReadied).of_same rfl rfl rfl rfl

theorem whole_runProgramBy (p : Program) {c : Context} (h : c.Whole) (options : Options) :
    (runProgramBy retire p c options).context.Whole := by
  obtain ⟨d, hReadied, hBegun⟩ := runProgramBy_eq retire p c options
  rw [hBegun]
  exact whole_begin p (h.readied hReadied) _

end Stage

/-- Between runs nothing dangles, in whatever frame. -/
theorem Context.AtRest.whole {c : Context} (h : c.AtRest) : c.Whole := by
  induction h with
  | new chapter => exact whole_new chapter
  | ran h code options hRun ih =>
    exact (Stage.whole_run (Stage.closed_runBy code h.isClosed options)
      (Stage.whole_runBy code ih options) hRun).2
  | ranProgram h p options hRun ih =>
    exact (Stage.whole_run (Stage.closed_runProgramBy p h.isClosed options)
      (Stage.whole_runProgramBy p ih options) hRun).2
  | interrupted _ ih => exact ih.interrupt
  | signalled _ ih => exact ih.of_same rfl rfl rfl rfl
  | taken _ ih => exact ih.of_same rfl rfl rfl rfl

-- ---------------------------------------------------------------------------
-- Runs
-- ---------------------------------------------------------------------------

/-- How runs on a context begin; a program may be begun without loading the library. -/
inductive Stage.BeginsOn (c : Context) : Stage → Prop
  | run (code : String) (options : Options) : BeginsOn c (run code c options)
  | runProgram (p : Program) (options : Options) : BeginsOn c (runProgram p c options)
  | program (p : Program) (scheduler : Scheduler) : BeginsOn c (p.begin c scheduler)

namespace Stage.BeginsOn

variable {c : Context} {first : Stage}

/-- Either the run ends before its program is begun, or the program is begun on some context. -/
theorem cases (h : first.BeginsOn c) :
    (∃ d, first = .errored d) ∨ ∃ p d scheduler, first = Program.begin p d scheduler := by
  cases h with
  | run code options =>
    unfold AmbScript.run runBy
    dsimp only
    split
    · exact .inl ⟨_, rfl⟩
    · split
      · exact .inl ⟨_, rfl⟩
      · exact .inr ⟨_, _, _, rfl⟩
  | runProgram p options =>
    unfold AmbScript.runProgram runProgramBy
    dsimp only
    split
    · exact .inl ⟨_, rfl⟩
    · exact .inr ⟨_, _, _, rfl⟩
  | program p scheduler => exact .inr ⟨_, _, _, rfl⟩

theorem choices_eq (h : first.BeginsOn c) : first.choices = [] := by
  rcases h.cases with ⟨d, rfl⟩ | ⟨p, d, scheduler, rfl⟩
  · rfl
  · exact choices_begin p d scheduler

/-- What the run starts with is settled. -/
theorem settled (h : first.BeginsOn c) : first.Settled := by
  rcases h.cases with ⟨d, rfl⟩ | ⟨p, d, scheduler, rfl⟩
  · exact settled_errored d
  · exact settled_begin p d scheduler

theorem closed (h : first.BeginsOn c) (hRest : c.AtRest) : first.Closed := by
  cases h with
  | run code options => exact closed_runBy code hRest.isClosed options
  | runProgram p options => exact closed_runProgramBy p hRest.isClosed options
  | program p scheduler => exact p.closed_begin hRest.isClosed scheduler

theorem whole (h : first.BeginsOn c) (hRest : c.AtRest) : first.context.Whole := by
  cases h with
  | run code options => exact whole_runBy code hRest.whole options
  | runProgram p options => exact whole_runProgramBy p hRest.whole options
  | program p scheduler => exact whole_begin p hRest.whole scheduler

end Stage.BeginsOn

end AmbScript
