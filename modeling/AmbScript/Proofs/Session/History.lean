import AmbScript.Proofs.Machine.Settings
import AmbScript.Proofs.Session.Library

/-!
# The history of a context

A context starts empty, and is handed from one driver step to the next: programs are run on it, runs
are resumed, interrupted, asked to stop or given up for another one. Its store only goes forwards,
but for choices that go back.

* `Stage.Next` — what can come next on a context; `Stage.Session` is all that can come of a new one.
* `runBy_cases` — how the run of a text begins; the library never stands in its way.
* `Stage.Next.advances_or_restores` — what comes next keeps every constant, or it goes back.
* `Stage.Session.exists_first` — every stage belongs to one run.

A choice can only go back to a moment of its own run. Between runs the trail is dropped and a run
that was given up is not resumed, so what has to be known of a choice that goes back can be looked
for in the run that the stage belongs to. The one thing in between are calls on the context of a
suspended run, after which it can still be resumed; they might as well have come afterwards
(`Stage.Session.Run.resume_handled`).
-/

namespace AmbScript

variable {retire : {k : Kind} → Search k → Bool} {chapter : Nat}

open Store Eval

-- ---------------------------------------------------------------------------
-- Stores of later contexts
-- ---------------------------------------------------------------------------

/-- `t` comes from `s` without going back. -/
structure Store.Advances (s t : Store) : Prop extends Carries s t where
  conserves : Conserves s.nextFrame s t

namespace Store.Advances

variable {s t u : Store}

/-- Nothing happens to the store. -/
theorem refl (h : s.Regular) : s.Advances s := ⟨.refl h, .refl _ s⟩

/-- A store goes forwards, and then further. -/
theorem trans (h : s.Advances t) (h' : t.Advances u) : s.Advances u :=
  ⟨h.toCarries.trans h'.toCarries, h.conserves.trans (h'.conserves.mono h.nextFrame)⟩

/-- The trail is dropped. -/
theorem forget (s : Store) : s.Advances s.forget := ⟨.forget s, conserves_forget s _⟩

end Store.Advances

/-- A frame is made and filled. -/
theorem Store.Builds.advances {s t : Store} (h : s.Builds s.nextFrame t) : s.Advances t :=
  ⟨h.carries, h.conserves⟩

/-- A program is started. -/
theorem Program.advances_start (p : Program) {c : Context} (h : c.store.Regular) :
    c.store.Advances (p.start.after c).store :=
  (p.builds_start (n := c.store.nextFrame) c h h.watermark (Nat.le_refl _)).advances

/-- The library is loaded. -/
theorem Context.Loads.advances {p : Program} {c d : Context} (h : c.Loads p d)
    (hRegular : c.store.Regular) : c.store.Advances d.store := by
  obtain ⟨e, hEnter, hd⟩ := h.entered
  have hBuilds := p.builds_enter (n := c.store.nextFrame)
    { c with preludePending := false, source := Prelude.source, limits := .unlimited }
    hRegular hRegular.watermark (Nat.le_refl _)
  rw [after_ok hEnter] at hBuilds
  rw [hd]
  exact hBuilds.advances

-- ---------------------------------------------------------------------------
-- Beginning a run
-- ---------------------------------------------------------------------------

/-- `d` is `c` made ready for a run, with the library in it. -/
inductive Context.Readied (c : Context) (limits : Limits) : Context → Prop
  | first {p : Program} {d : Context} (hPending : c.preludePending = true)
      (hLibrary : Prelude.parsed.program = some p) (h : (c.prepare limits).Loads p d) :
      Readied c limits d
  | again (hLoaded : c.preludePending = false) : Readied c limits (c.prepare limits)

variable (retire) in
/-- A library that is there is not loaded again. -/
theorem Context.loadPreludeBy_of_loaded {c : Context} (hLoaded : c.preludePending = false) :
    c.loadPreludeBy retire = .ok c := by
  unfold loadPreludeBy loadLibrary
  rw [hLoaded]
  rfl

variable (retire) in
/-- A context can always be made ready. -/
theorem Context.exists_readied (c : Context) (limits : Limits) :
    ∃ d, (c.prepare limits).loadPreludeBy retire = .ok d ∧ c.Readied limits d := by
  cases hPending : c.preludePending with
  | true =>
    obtain ⟨p, d, hLibrary, hLoad, hLoads⟩ := Context.loadPreludeBy_eq_ok retire
      (c := c.prepare limits) hPending rfl (Nat.zero_le _)
    exact ⟨d, hLoad, .first hPending hLibrary hLoads⟩
  | false =>
    exact ⟨c.prepare limits, Context.loadPreludeBy_of_loaded retire (c := c.prepare limits) hPending,
      .again hPending⟩

/-- What was there before is there still. -/
theorem Context.Readied.advances {c d : Context} {limits : Limits} (h : c.Readied limits d) :
    c.store.Advances d.store := by
  cases h with
  | first _ _ hLoads => exact (Advances.forget c.store).trans (hLoads.advances (.forget c.store))
  | again => exact .forget c.store

namespace Context.Readied

variable {c d : Context} {limits : Limits}

/-- The library may have been loaded; nothing is left of earlier runs. -/
theorem rest (h : c.Readied limits d) : d = { c with
    store := d.store, inner := [], outer := d.outer, nextCell := d.nextCell, errors := [],
    output := d.output, source := d.source, aborted := false, preludePending := false,
    steps := d.steps, limits := limits, expired := d.expired, interrupted := false } := by
  cases h with
  | first _ _ hLoads =>
    have hRest := hLoads.rest
    rw [hRest]
    rfl
  | again hLoaded =>
    show c.prepare limits = { c.prepare limits with preludePending := false }
    rw [← hLoaded]
    rfl

theorem inner (h : c.Readied limits d) : d.inner = [] := by rw [h.rest]

theorem errors (h : c.Readied limits d) : d.errors = [] := by rw [h.rest]

theorem aborted (h : c.Readied limits d) : d.aborted = false := by rw [h.rest]

theorem limits_eq (h : c.Readied limits d) : d.limits = limits := by rw [h.rest]

theorem interrupted (h : c.Readied limits d) : d.interrupted = false := by rw [h.rest]

/-- Whether a run has been made on the context before or not, the library is there. -/
theorem preludePending (h : c.Readied limits d) : d.preludePending = false := by rw [h.rest]

end Context.Readied

/-- A new context made ready for a run, with this library in it. It can be computed, since a library
only declares functions. -/
def Context.newWith? (chapter : Nat) (limits : Limits) (library : Program) : Option Context :=
  let c := (Context.new chapter).prepare limits
  match library.enter { c with
      preludePending := false, source := Prelude.source, limits := .unlimited } with
  | .ok _ e => some { e.beginStep with steps := library.body.statements.length, limits := c.limits }
  | .error .. => none

/-- What becomes of a new context that is made ready is what is computed with the library. -/
theorem Context.Readied.newWith?_eq {d : Context} {limits : Limits}
    (h : (Context.new chapter).Readied limits d) : ∃ library,
      Prelude.parsed.program = some library ∧ Context.newWith? chapter limits library = some d := by
  cases h with
  | again hLoaded => cases hLoaded
  | @first library _ _ hLibrary hLoads =>
    obtain ⟨e, hEnter, hd⟩ := hLoads.entered
    refine ⟨library, hLibrary, ?_⟩
    unfold newWith?
    dsimp only
    rw [hEnter, hd]

/-- The text of a program that is run. -/
def programText (code : String) : Source := ⟨programName, code⟩

namespace Stage

variable (retire) in
/-- The run of a text that is a program begins with it. -/
theorem runBy_eq_begin {code : String} {c d : Context} {p : Program} (options : Options)
    (hLoad : (c.prepare options.limits).loadPreludeBy retire = .ok d)
    (hParsed : (parse (programText code)).program = some p) :
    runBy retire code c options =
      p.begin { d with source := programText code } options.scheduler := by
  unfold runBy
  rw [hLoad]
  dsimp only
  rw [show (parse ⟨programName, code⟩).program = some p from hParsed]
  rfl

variable (retire) in
/-- The run of a text that is not a program only reports what is wrong with it. -/
theorem runBy_eq_errored {code : String} {c d : Context} (options : Options)
    (hLoad : (c.prepare options.limits).loadPreludeBy retire = .ok d)
    (hNone : (parse (programText code)).program = none) :
    runBy retire code c options =
      .errored { d with errors := (parse (programText code)).log.kept } := by
  unfold runBy
  rw [hLoad]
  dsimp only
  rw [show (parse ⟨programName, code⟩).program = none from hNone]
  rfl

end Stage

variable (retire) in
/-- The run of a text begins with its program, if the text is one. -/
theorem runBy_cases (code : String) (c : Context) (options : Options) :
    ∃ d, c.Readied options.limits d ∧
      ((∃ errors, runBy retire code c options = .errored { d with errors := errors }) ∨
        ∃ p, (parse ⟨programName, code⟩).program = some p ∧
          runBy retire code c options =
            p.begin { d with source := ⟨programName, code⟩ } options.scheduler) := by
  obtain ⟨d, hLoad, hReadied⟩ := c.exists_readied retire options.limits
  refine ⟨d, hReadied, ?_⟩
  cases hParsed : (parse (programText code)).program with
  | none => exact .inl ⟨_, Stage.runBy_eq_errored retire options hLoad hParsed⟩
  | some p => exact .inr ⟨p, hParsed, Stage.runBy_eq_begin retire options hLoad hParsed⟩

variable (retire) in
/-- The run of a program goes on from a context that was made ready for it. -/
theorem runProgramBy_eq (p : Program) (c : Context) (options : Options) :
    ∃ d, c.Readied options.limits d ∧
      runProgramBy retire p c options = p.begin d options.scheduler := by
  obtain ⟨d, hLoad, hReadied⟩ := c.exists_readied retire options.limits
  refine ⟨d, hReadied, ?_⟩
  unfold runProgramBy
  rw [hLoad]

/-- The context that a program is begun on, with its directive followed. -/
def Program.heeded (p : Program) (c : Context) : Context :=
  if p.directive? = some verboseDirective then { c with verbose := true } else c

/-- The only directive asks for elaborations in what is listed. -/
theorem Program.heeded_eq (p : Program) (c : Context) :
    p.heeded c = { c with
      verbose := c.verbose || decide (p.directive? = some verboseDirective) } := by
  unfold heeded
  split <;> rename_i hDirective
  · rw [decide_eq_true hDirective, Bool.or_true]
  · rw [decide_eq_false hDirective, Bool.or_false]

/-- It does not touch the store. -/
theorem Program.store_heeded (p : Program) (c : Context) : (p.heeded c).store = c.store := by
  rw [p.heeded_eq]

/-- A program is begun with its directive followed. -/
theorem Program.begin_eq (p : Program) (c : Context) (scheduler : Scheduler) :
    p.begin c scheduler =
      match p.start (p.heeded c) with
      | .ok s d => .begin s d scheduler
      | .error t d => .errored (d.abort t) := rfl

/-- What was there before a program is there when it is begun. -/
theorem Program.advances_begin (p : Program) {c : Context} (h : c.store.Regular)
    (scheduler : Scheduler) : c.store.Advances (p.begin c scheduler).context.store := by
  have hStart := p.advances_start (c := p.heeded c) (by rw [p.store_heeded]; exact h)
  rw [p.store_heeded] at hStart
  rw [p.begin_eq]
  unfold after at hStart
  cases hEq : p.start (p.heeded c) with
  | ok s d =>
    rw [hEq] at hStart
    exact hStart
  | error t d =>
    rw [hEq] at hStart
    exact hStart

variable (retire) in
/-- The run of a text goes on from a context that was made ready for it. -/
theorem readied_runBy (code : String) (c : Context) (options : Options) :
    ∃ d, c.Readied options.limits d ∧
      d.store.Advances (runBy retire code c options).context.store := by
  obtain ⟨d, hReadied, ⟨errors, hRun⟩ | ⟨p, -, hRun⟩⟩ :=
    runBy_cases retire code c options
  · refine ⟨d, hReadied, ?_⟩
    rw [hRun]
    exact .refl hReadied.advances.regular
  · refine ⟨d, hReadied, ?_⟩
    rw [hRun]
    exact p.advances_begin (c := { d with source := ⟨programName, code⟩ })
      hReadied.advances.regular options.scheduler

variable (retire) in
/-- The run of a program goes on from a context that was made ready for it. -/
theorem readied_runProgramBy (p : Program) (c : Context) (options : Options) :
    ∃ d, c.Readied options.limits d ∧
      d.store.Advances (runProgramBy retire p c options).context.store := by
  obtain ⟨d, hReadied, hRun⟩ := runProgramBy_eq retire p c options
  refine ⟨d, hReadied, ?_⟩
  rw [hRun]
  exact p.advances_begin hReadied.advances.regular _

-- ---------------------------------------------------------------------------
-- All that can come of a context
-- ---------------------------------------------------------------------------

/-- The outcome after something was done to its context from outside. -/
def Outcome.onContext (f : Context → Context) : Outcome → Outcome
  | finished v c => finished v (f c)
  | suspended s => suspended { s with context := f s.context }
  | errored diagnostics c => errored diagnostics (f c)

/-- The context of the outcome is what was done to it. -/
@[simp] theorem Outcome.context_onContext (f : Context → Context) (o : Outcome) :
    (o.onContext f).context = f o.context := by
  cases o <;> rfl

/-- What holds of the context once something was done to it, holds of the outcome's context. -/
theorem Outcome.of_onContext {P : Context → Prop} {f : Context → Context} {o : Outcome}
    (h : P (f o.context)) : P (o.onContext f).context := by
  rw [Outcome.context_onContext]
  exact h

namespace Stage

/-- A context on which nothing has been run, ready to be used. -/
def fresh (chapter : Nat) : Stage := .ended (.finished .undefined (.new chapter))

theorem context_fresh (chapter : Nat) : (fresh chapter).context = Context.new chapter := rfl

/-- What can come next on a context: the next part of the run that it is in; or else another text or
program is run, the suspended run is interrupted, a stop is asked for, or the lines that were
displayed are taken away. -/
inductive Next (retire : {k : Kind} → Search k → Bool) : Stage → Stage → Prop
  | leads {a b : Stage} (h : Leads @retire a b) : Next @retire a b
  | run (code : String) (o : Outcome) (options : Options) :
      Next @retire (.ended o) (runBy @retire code o.context options)
  | runProgram (p : Program) (o : Outcome) (options : Options) :
      Next @retire (.ended o) (runProgramBy @retire p o.context options)
  | interrupt (o : Outcome) : Next @retire (.ended o) (.ended (o.onContext Context.interrupt))
  | signal (o : Outcome) : Next @retire (.ended o) (.ended (o.onContext Context.signal))
  | takeOutput (o : Outcome) :
      Next @retire (.ended o) (.ended (o.onContext fun c => c.takeOutput.2))

/-- All that can come of a new context. -/
def Session (retire : {k : Kind} → Search k → Bool) (chapter : Nat) (st : Stage) : Prop :=
  Relation.ReflTransGen (Next retire) (fresh chapter) st

/-- A report leaves the store as it is. -/
theorem store_stepBy (r : Running) :
    (r.stepBy retire).context.store = ((r.machine.step retire).after r.context).store := by
  rcases context_stepBy retire r with hContext | ⟨t, hContext⟩
  · rw [hContext]
  · rw [hContext]
    rfl

/-- The machine step that comes next goes back to `start`. -/
structure Restores (retire : {k : Kind} → Search k → Bool) (start : Checkpoint) (r : Running)
    (b : Stage) : Prop where
  next : b = r.stepBy retire
  restores : r.machine.restores? = some start
  store : b.context.store = (r.context.restore start).store

/-- Within a run it is only a machine step that may go back. -/
theorem Leads.advances_or_restores {a b : Stage} (h : Leads retire a b)
    (hRegular : a.context.store.Regular) :
    a.context.store.Advances b.context.store ∨
      ∃ r start, a = .running r ∧ Restores retire start r b := by
  cases h with
  | step r =>
    -- a step only adds to the store, unless it starts by going back to a checkpoint
    have hPasses := r.machine.passes_step retire hRegular
    cases hRestores : r.machine.restores? with
    | none =>
      refine .inl ?_
      rw [store_stepBy]
      have hConserves := hPasses.conserves
      rw [Machine.origin, hRestores] at hConserves
      exact ⟨hPasses.carries, hConserves⟩
    | some start =>
      refine .inr ⟨r, start, rfl, rfl, hRestores, ?_⟩
      rw [store_stepBy]
      exact Machine.store_step_of_restores hRestores r.context
  | resume s =>
    refine .inl ?_
    unfold Suspension.resume
    split
    · exact .refl hRegular
    · exact .refl hRegular
  | signal r => exact .inl (.refl hRegular)
  | expire r => exact .inl (.refl hRegular)
  | takeOutput r => exact .inl (.refl hRegular)

namespace Next

variable {a b : Stage}

/-- What comes next goes back to a moment that a choice has noted, or does not go back at all. -/
theorem advances_or_restores (h : Next retire a b) (hRegular : a.context.store.Regular) :
    a.context.store.Advances b.context.store ∨
      ∃ r start, a = .running r ∧ Restores retire start r b := by
  cases h with
  | leads hLeads => exact hLeads.advances_or_restores hRegular
  | run code o options =>
    obtain ⟨d, hReadied, hLater⟩ := readied_runBy retire code o.context options
    exact .inl (hReadied.advances.trans hLater)
  | runProgram p o options =>
    obtain ⟨d, hReadied, hLater⟩ := readied_runProgramBy retire p o.context options
    exact .inl (hReadied.advances.trans hLater)
  | interrupt o | signal o | takeOutput o =>
    -- whatever is done to the context from outside leaves its store alone
    refine .inl ?_
    exact Outcome.of_onContext (P := fun c => o.context.store.Advances c.store) (.refl hRegular)

/-- Frames are kept with all their names, and so are the constants that nothing can undo. -/
theorem carries (h : Next retire a b) (hRegular : a.context.store.Regular) :
    a.context.store.Carries b.context.store := by
  rcases h.advances_or_restores hRegular with hAdvances | ⟨r, start, rfl, -, -, hStore⟩
  · exact hAdvances.toCarries
  · rw [hStore]
    exact .unwindTo hRegular _

end Next

/-- From one stage of a session to any later one. -/
theorem carries_of_next {a b : Stage} (h : Relation.ReflTransGen (Next retire) a b)
    (hRegular : a.context.store.Regular) : a.context.store.Carries b.context.store := by
  induction h with
  | refl => exact .refl hRegular
  | tail _ hNext ih => exact ih.trans (hNext.carries ih.regular)

-- ---------------------------------------------------------------------------
-- The run that a stage belongs to
-- ---------------------------------------------------------------------------

/-- The stage belongs to a run that began in the session. -/
def Session.Run (retire : {k : Kind} → Search k → Bool) (chapter : Nat) (st : Stage) : Prop :=
  ∃ first, Session retire chapter first ∧ first.choices = [] ∧
    Relation.ReflTransGen (Leads retire) first st

/-- A suspended run that was given up. -/
def Abandoned : Stage → Prop
  | .ended (.suspended s) => s.context.aborted = true
  | _ => False

/-- What can be done to the context of a suspended run, so that the run can still be resumed. -/
inductive Handled : Context → Context → Prop
  | untouched (c : Context) : Handled c c
  | signal {c d : Context} (h : Handled c d) : Handled c d.signal
  | takeOutput {c d : Context} (h : Handled c d) : Handled c d.takeOutput.2

/-- A suspended run to whose context things were done. -/
inductive Waiting (retire : {k : Kind} → Search k → Bool) (chapter : Nat) : Stage → Prop
  | handled {s : Suspension} {c : Context}
      (h : Session.Run @retire chapter (.ended (.suspended s))) (hHandled : Handled s.context c) :
      Waiting @retire chapter (.ended (.suspended { s with context := c }))

/-- A stage that nothing has come before in its run. -/
theorem Session.Run.first {st : Stage} (h : Session retire chapter st) (hFirst : st.choices = []) :
    Session.Run retire chapter st := ⟨st, h, hFirst, .refl⟩

/-- Where a run begins no choice is under way. -/
theorem choices_runBy (code : String) (c : Context) (options : Options) :
    (runBy retire code c options).choices = [] := by
  obtain ⟨d, -, ⟨errors, hRun⟩ | ⟨p, -, hRun⟩⟩ := runBy_cases retire code c options
  · rw [hRun]
    rfl
  · rw [hRun]
    exact choices_begin p _ _

/-- No matter whether it is that of a text or of a program. -/
theorem choices_runProgramBy (p : Program) (c : Context) (options : Options) :
    (runProgramBy retire p c options).choices = [] := by
  obtain ⟨d, -, hRun⟩ := runProgramBy_eq retire p c options
  rw [hRun]
  exact choices_begin p _ _

/-- An abandoned run is over. -/
theorem choices_resume_of_aborted {s : Suspension} (h : s.context.aborted = true) :
    s.resume.choices = [] := by
  unfold Suspension.resume
  rw [if_pos h]
  rfl

namespace Session

/-- What is done to the context of a suspended run could as well be done when it has been
resumed. -/
theorem Run.resume_handled {s : Suspension} {c : Context}
    (h : Run retire chapter (.ended (.suspended s))) (hHandled : Handled s.context c)
    (hNotAborted : c.aborted = false) :
    Run retire chapter { s with context := c }.resume := by
  have hResume {d : Context} (hNot : d.aborted = false) :
      ({ s with context := d } : Suspension).resume =
        .running ⟨.ofSearch s.rest, d.beginStep, s.scheduler⟩ := by
    unfold Suspension.resume
    dsimp only
    rw [hNot, if_neg Bool.false_ne_true]
    rfl
  rw [hResume hNotAborted]
  -- The call that came last is made right after the resumption; the calls before it by induction.
  induction hHandled with
  | untouched =>
    obtain ⟨first, hSession, hFirst, hLeads⟩ := h
    rw [← hResume hNotAborted]
    exact ⟨first, hSession, hFirst, hLeads.tail (.resume s)⟩
  | signal _ ih =>
    obtain ⟨first, hSession, hFirst, hLeads⟩ := ih hNotAborted
    exact ⟨first, hSession, hFirst, hLeads.tail (.signal _)⟩
  | takeOutput _ ih =>
    obtain ⟨first, hSession, hFirst, hLeads⟩ := ih hNotAborted
    exact ⟨first, hSession, hFirst, hLeads.tail (.takeOutput _)⟩

/-- What was done to the context of a run still to be resumed may be followed by more. -/
theorem waiting_of {s : Suspension} {g : Context → Context}
    (hMore : ∀ {c d : Context}, Handled c d → Handled c (g d))
    (h : Run retire chapter (.ended (.suspended s)) ∨ Abandoned (.ended (.suspended s)) ∨
      Waiting retire chapter (.ended (.suspended s)))
    (hKept : (g s.context).aborted = s.context.aborted) :
    Abandoned (.ended (.suspended { s with context := g s.context })) ∨
      Waiting retire chapter (.ended (.suspended { s with context := g s.context })) := by
  rcases h with hRun | hAbandoned | hWaiting
  · exact .inr (.handled hRun (hMore (.untouched _)))
  · exact .inl (hKept.trans hAbandoned)
  · cases hWaiting with
    | @handled s' _ hRun hHandled => exact .inr (.handled (s := s') hRun (hMore hHandled))

/-- Every stage belongs to a run, or is a suspended one that something was done to from outside. -/
theorem run_or {st : Stage} (h : Session retire chapter st) :
    Run retire chapter st ∨ st.Abandoned ∨ Waiting retire chapter st := by
  induction h with
  | refl => exact .inl (.first .refl rfl)
  | @tail a b hSession hNext ih =>
    have hb : Session retire chapter b := .tail hSession hNext
    cases hNext with
    | run code o options => exact .inl (.first hb (choices_runBy _ _ _))
    | runProgram p o options => exact .inl (.first hb (choices_runProgramBy _ _ _))
    | interrupt o =>
      cases o with
      | suspended s => exact .inr (.inl rfl)
      | _ => exact .inl (.first hb rfl)
    | signal o =>
      cases o with
      | suspended s => exact .inr (waiting_of .signal ih rfl)
      | _ => exact .inl (.first hb rfl)
    | takeOutput o =>
      cases o with
      | suspended s => exact .inr (waiting_of .takeOutput ih rfl)
      | _ => exact .inl (.first hb rfl)
    -- Within a run a stage belongs to the same one; a suspended run that was touched may be
    -- resumed.
    | leads hLeads =>
      rcases ih with ⟨first, hSession, hFirst, hBefore⟩ | hAbandoned | hWaiting
      · exact .inl ⟨first, hSession, hFirst, hBefore.tail hLeads⟩
      · cases hLeads with
        | resume s => exact .inl (.first hb (choices_resume_of_aborted hAbandoned))
        | _ => exact hAbandoned.elim
      · cases hWaiting with
        | @handled s c hRun hHandled =>
          cases hLeads with
          | resume =>
            cases hAborted : c.aborted with
            | true => exact .inl (.first hb (choices_resume_of_aborted hAborted))
            | false => exact .inl (hRun.resume_handled hHandled hAborted)

/-- What is under way belongs to a run. -/
theorem exists_first {r : Running} (h : Session retire chapter (.running r)) :
    Run retire chapter (.running r) := by
  rcases h.run_or with hRun | hAbandoned | hWaiting
  · exact hRun
  · exact hAbandoned.elim
  · cases hWaiting

/-- It is a stage of the session. -/
theorem Run.session {st : Stage} (h : Run retire chapter st) : Session retire chapter st := by
  obtain ⟨first, hSession, -, hLeads⟩ := h
  exact hSession.trans (Relation.ReflTransGen.mono (fun _ _ => Next.leads) _ _ hLeads)

end Session

end Stage

end AmbScript
