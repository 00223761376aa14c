import AmbScript.Proofs.Parser.Reports
import AmbScript.Proofs.Scoping.Session
import AmbScript.Proofs.Session.Diagnostics
import AmbScript.Proofs.Session.Entering

/-!
# What each call leaves behind

Whatever is done to a context, when it is done the frames in force are those of the programs that
were entered, one inside the other, and the global frame around them. The diagnostics of a call that
failed are those that the context has; after other calls it has none.

* `Store.Stacks` — the frames of programs, one inside the other.
* `Stage.Used` — what can be done to a new context, with the programs that are entered by that.
* `Stage.Orderly` — what holds at every stage; `Stage.Used.orderly` says why.
* `Stage.calls_leave_order` — what holds after every call.

`Used` keeps a ledger of the programs that calls have entered, independent of what the context says,
and `Orderly` ties the frames in force to it. A stage in the middle of a run is orderly as well, so
that the outcomes of a call follow from the one invariant.
-/

namespace AmbScript

variable {retire : {k : Kind} → Search k → Bool} {chapter : Nat}

open Store Eval

-- ---------------------------------------------------------------------------
-- Frames in force
-- ---------------------------------------------------------------------------

/-- The frame `0` is around all others. -/
def Store.HoldsGlobal (s : Store) : Prop :=
  ∃ sc, s.scope? 0 = some sc ∧ sc.name = "global" ∧ sc.parent = none

/-- The frames are those of the programs, each inside the next, and the last one is around all. -/
inductive Store.Stacks (s : Store) : List Program → List FrameId → Prop
  | global (h : s.HoldsGlobal) : Stacks s [] [0]
  | program {p : Program} {ps : List Program} {f g : FrameId} {frames : List FrameId}
      (h : s.HoldsProgram p f g) (hAround : Stacks s ps (g :: frames)) :
      Stacks s (p :: ps) (f :: g :: frames)

namespace Store

variable {s t : Store} {ps : List Program} {frames : List FrameId}

/-- The global frame stays what it is. -/
theorem HoldsGlobal.carries (h : s.HoldsGlobal) (hCarries : s.Carries t) : t.HoldsGlobal := by
  obtain ⟨sc, hsc, hName, hParent⟩ := h
  obtain ⟨sc', hsc', hSame⟩ := hCarries.names 0 sc hsc
  exact ⟨sc', hsc', hSame.name.trans hName, hSame.parent.trans hParent⟩

theorem Stacks.carries (h : s.Stacks ps frames) (hCarries : s.Carries t) : t.Stacks ps frames := by
  induction h with
  | global h => exact .global (h.carries hCarries)
  | program h _ ih => exact .program (h.carries hCarries) ih

/-- A frame inside the innermost one. -/
theorem Stacks.push (h : s.Stacks ps frames) {p : Program} {f : FrameId}
    (hProgram : s.HoldsProgram p f (frames.headD 0)) : s.Stacks (p :: ps) (f :: frames) := by
  cases h with
  | global hGlobal => exact .program hProgram (.global hGlobal)
  | program hNext hAround => exact .program hProgram (.program hNext hAround)

/-- In a new context there is only the global frame. -/
theorem stacks_new (chapter : Nat) : (Context.new chapter).store.Stacks [] [0] := by
  have hBare : (Store.empty.newFrame "global" none none).scope? 0 =
      some ⟨"global", none, none, fun _ => none⟩ := rfl
  obtain ⟨sc, hsc, hName, hParent, -⟩ :=
    exists_scope_writeAll Primitive.name Value.primitive Primitive.all hBare
  obtain ⟨sc', hsc', hName', hParent', -⟩ :=
    exists_scope_writeAll Prod.fst (fun x => Value.number x.2) numericConstants hsc
  exact .global ⟨sc', hsc', hName'.trans hName, hParent'.trans hParent⟩

end Store

-- ---------------------------------------------------------------------------
-- Calls
-- ---------------------------------------------------------------------------

/-- The library, if it is still to be loaded. -/
def Context.arrears (c : Context) : List Program :=
  if c.preludePending then Prelude.parsed.program.toList else []

/-- The program, if it can be entered. -/
def Program.entered (p : Program) : List Program := if p.Distinct then [p] else []

/-- What was done to a context last. -/
inductive Deed
  /-- It was made. -/
  | made
  /-- A text was run that is not a program. -/
  | unread
  /-- A program was run, or a run was resumed. -/
  | driven
  /-- What it runs was given up. -/
  | interrupted

namespace Stage

/-- What can become of a new context, the programs that were entered by that, the last one first,
and what was done last. At any time a stop may be asked for, and the lines displayed may be taken
away. -/
inductive Used (retire : {k : Kind} → Search k → Bool) (chapter : Nat) :
    List Program → Deed → Stage → Prop
  | fresh : Used retire chapter [] .made (fresh chapter)
  | unread {ps : List Program} {deed : Deed} {o : Outcome}
      (h : Used @retire chapter ps deed (.ended o)) {code : String}
      (hNone : (parse (programText code)).program = none) (options : Options) :
      Used @retire chapter (o.context.arrears ++ ps) .unread
        (runBy @retire code o.context options)
  | run {ps : List Program} {deed : Deed} {o : Outcome}
      (h : Used @retire chapter ps deed (.ended o)) {code : String} {p : Program}
      (hParsed : (parse (programText code)).program = some p) (options : Options) :
      Used @retire chapter (p.entered ++ (o.context.arrears ++ ps)) .driven
        (runBy @retire code o.context options)
  | runProgram {ps : List Program} {deed : Deed} {o : Outcome}
      (h : Used @retire chapter ps deed (.ended o)) (p : Program) (options : Options) :
      Used @retire chapter (p.entered ++ (o.context.arrears ++ ps)) .driven
        (runProgramBy @retire p o.context options)
  | leads {ps : List Program} {deed : Deed} {a b : Stage} (h : Used @retire chapter ps deed a)
      (hLeads : Leads @retire a b) : Used @retire chapter ps .driven b
  | interrupt {ps : List Program} {deed : Deed} {o : Outcome}
      (h : Used @retire chapter ps deed (.ended o)) :
      Used @retire chapter ps .interrupted (.ended (o.onContext Context.interrupt))
  | signal {ps : List Program} {deed : Deed} {o : Outcome}
      (h : Used @retire chapter ps deed (.ended o)) :
      Used @retire chapter ps deed (.ended (o.onContext Context.signal))
  | takeOutput {ps : List Program} {deed : Deed} {o : Outcome}
      (h : Used @retire chapter ps deed (.ended o)) :
      Used @retire chapter ps deed (.ended (o.onContext fun c => c.takeOutput.2))

/-- It is a part of a session. -/
theorem Used.session {ps : List Program} {deed : Deed} {st : Stage}
    (h : Used retire chapter ps deed st) : Session retire chapter st := by
  induction h with
  | fresh => exact .refl
  | unread _ _ options ih => exact .tail ih (.run _ _ options)
  | run _ _ options ih => exact .tail ih (.run _ _ options)
  | runProgram _ p options ih => exact .tail ih (.runProgram p _ options)
  | leads _ hLeads ih => exact .tail ih (.leads hLeads)
  | interrupt _ ih => exact .tail ih (.interrupt _)
  | signal _ ih => exact .tail ih (.signal _)
  | takeOutput _ ih => exact .tail ih (.takeOutput _)

end Stage

/-- What a call reports is what the context has to report. A fault of a run that was not given up is
the only one; a driver step with a value, or without one, has nothing to report. -/
def Outcome.Reported : Deed → Outcome → Prop
  | .unread, o => ∃ ds c, o = .errored ds c ∧ ds ≠ [] ∧ ds = c.errors
  | .driven, .errored ds c => ds ≠ [] ∧ ds = c.errors ∧ (c.aborted = false → ds.length = 1)
  | .driven, .suspended s => s.context.errors = []
  | .driven, .finished _ c => c.errors = []
  | .made, _ => True
  | .interrupted, _ => True

-- ---------------------------------------------------------------------------
-- Order at all stages
-- ---------------------------------------------------------------------------

namespace Stage

/-- As long as a run can go on, there is something to report just if it was given up. -/
def Clear : Stage → Prop
  | .running r => r.context.errors = [] ∧ r.context.aborted = false
  | .ended (.suspended s) => s.context.aborted = false ↔ s.context.errors = []
  | .ended _ => True

/-- Between calls no frames are entered but those of programs. -/
def Unwound : Stage → Prop
  | .running _ => True
  | .ended o => o.context.inner = []

/-- The frames that outlast a run are those of the programs, and nothing else is left of a call. -/
structure Orderly (ps : List Program) (st : Stage) : Prop where
  regular : st.context.store.Regular
  frames : st.context.store.Stacks ps st.context.outer
  settled : st.Settled
  unwound : st.Unwound
  clear : st.Clear

end Stage

/-- The context is ready for a program. -/
structure Context.Prepared (ps : List Program) (c : Context) : Prop where
  regular : c.store.Regular
  frames : c.store.Stacks ps c.outer
  inner : c.inner = []
  errors : c.errors = []
  aborted : c.aborted = false
  interrupted : c.interrupted = false

/-- Before a program is begun, the frame of the last one is in force. -/
theorem Context.Prepared.current {ps : List Program} {c : Context} (h : c.Prepared ps) :
    c.current = c.outer.headD 0 := by
  unfold Context.current
  rw [h.inner]

/-- Loading the library, if it is to be loaded, enters it. -/
theorem Context.Readied.prepared {ps : List Program} {c d : Context} {limits : Limits}
    (h : c.Readied limits d) (hStacks : c.store.Stacks ps c.outer) :
    d.Prepared (c.arrears ++ ps) := by
  have hForgotten : (c.prepare limits).Prepared ps :=
    ⟨.forget _, hStacks.carries (.forget _), rfl, rfl, rfl, rfl⟩
  have hLater := h.advances.toCarries
  obtain ⟨hInner, hErrors⟩ : d.inner = [] ∧ d.errors = [] := ⟨h.inner, h.errors⟩
  obtain ⟨hAborted, hInterrupted⟩ : d.aborted = false ∧ d.interrupted = false :=
    ⟨h.aborted, h.interrupted⟩
  cases h with
  | again hLoaded =>
    unfold arrears
    rw [hLoaded, if_neg Bool.false_ne_true]
    exact hForgotten
  | @first p d hPending hLibrary hLoads =>
    obtain ⟨e, hEnter, hd⟩ := hLoads.entered
    let c₁ : Context := { c.prepare limits with
      preludePending := false, source := Prelude.source, limits := .unlimited }
    -- When the library is loaded, its program is entered like any other, and stays entered.
    have hStart : p.start c₁ = .ok (.map .program (.sequence p.body.statements)) e :=
      bind_of_ok hEnter _
    obtain ⟨hProgram, -, -⟩ := Program.holds_start (c := c₁) hStart
    have hStore : d.store = e.store := by rw [hd]; rfl
    have hOuter : d.outer = (c.prepare limits).store.nextFrame :: c.outer :=
      congrArg Context.outer hLoads.rest
    have hArrears : c.arrears ++ ps = p :: ps := by
      unfold arrears
      rw [hPending, if_pos rfl, hLibrary]
      rfl
    refine ⟨hLater.regular, ?_, hInner, hErrors, hAborted, hInterrupted⟩
    rw [hArrears, hOuter]
    refine (hStacks.carries hLater).push ?_
    rw [hStore]
    exact hProgram

/-- Making a context ready changes no binding. -/
theorem Context.Readied.scope?_eq {c d : Context} {limits : Limits} (h : c.Readied limits d)
    {f : FrameId} (hf : f < c.store.nextFrame) : d.store.scope? f = c.store.scope? f := by
  cases h with
  | again => rfl
  | @first p d _ _ hLoads =>
    obtain ⟨e, hEnter, hd⟩ := hLoads.entered
    let c₁ : Context := { c.prepare limits with
      preludePending := false, source := Prelude.source, limits := .unlimited }
    have hStart : p.start c₁ = .ok (.map .program (.sequence p.body.statements)) e :=
      bind_of_ok hEnter _
    obtain ⟨hKept, -⟩ := p.kept_start (c := c₁) (Nat.zero_le _)
    have hSame := hKept f hf
    rw [after_ok hStart] at hSame
    rw [hd]
    exact hSame

namespace Stage

/-- Beginning a program enters it, or the outcome is the fault of a name that it declares twice. -/
theorem orderly_begin {ps : List Program} {c : Context} (h : c.Prepared ps) (p : Program)
    (scheduler : Scheduler) :
    Orderly (p.entered ++ ps) (p.begin c scheduler) ∧
      ∀ o, p.begin c scheduler = .ended o → o.Reported .driven := by
  have hHeeded : (p.heeded c).Prepared ps := by
    rw [p.heeded_eq]
    exact ⟨h.regular, h.frames, h.inner, h.errors, h.aborted, h.interrupted⟩
  have hSettled := settled_begin p c scheduler
  have hLater := (p.advances_begin (c := c) h.regular scheduler).toCarries
  have hStacks := h.frames.carries hLater
  rw [p.begin_eq] at hSettled hLater hStacks ⊢
  have hSame := sameSettings_start p (p.heeded c)
  have hErrors : (p.start.after (p.heeded c)).errors = [] := hSame.errors_eq_nil hHeeded.errors
  have hAborted : (p.start.after (p.heeded c)).aborted = false :=
    hSame.aborted.trans hHeeded.aborted
  -- A program is entered just if it declares no name twice; else its one fault is reported.
  by_cases hDistinct : p.Distinct
  · obtain ⟨d, hStart⟩ := Program.start_eq_ok hDistinct _
    obtain ⟨hProgram, -, hOuter⟩ := Program.holds_start hStart
    rw [hStart] at hSettled hLater hStacks ⊢
    rw [after_ok hStart] at hErrors hAborted
    refine ⟨⟨hLater.regular, ?_, hSettled, trivial, hErrors, hAborted⟩, fun o hEnded => ?_⟩
    · unfold Program.entered
      rw [if_pos hDistinct]
      show d.store.Stacks (p :: ps) d.outer
      rw [hHeeded.current] at hProgram
      rw [hOuter]
      exact (hHeeded.frames.carries (p.store_heeded c ▸ hLater)).push hProgram
    · cases hEnded
  · obtain ⟨t, s, hStart⟩ := Program.start_eq_error hDistinct (p.heeded c)
    rw [hStart] at hSettled hLater hStacks ⊢
    rw [after_error hStart] at hErrors
    have hOne := Context.errors_abort hErrors t
    refine ⟨⟨hLater.regular, ?_, hSettled, rfl, trivial⟩, fun o hEnded => ?_⟩
    · unfold Program.entered
      rw [if_neg hDistinct]
      exact hHeeded.frames.carries (p.store_heeded c ▸ hLater)
    · cases hEnded
      refine ⟨?_, rfl, fun _ => ?_⟩
      · rw [hOne]
        exact List.cons_ne_nil _ _
      · rw [hOne]
        rfl

-- ---------------------------------------------------------------------------
-- Driver steps
-- ---------------------------------------------------------------------------

/-- When the walk is over, no frames are entered but those that outlast it. -/
theorem frames_of_finished {m : Machine} {x : Option Value × Search .value}
    (h : m.finished? = some x) : m.stack.frames = [] := by
  unfold Machine.finished? at h
  split at h
  · rfl
  · rfl
  · cases h

/-- A machine step that ends a driver step leaves no frames of it entered. -/
theorem unwound_stepBy {r : Running} (h : (Stage.running r).Settled) :
    (r.stepBy retire).Unwound := by
  have hSettles : Eval.Settles r.machine.stack.frames (r.machine.step retire) :=
    Machine.settles_step h.level
  unfold Running.stepBy
  cases hStep : r.machine.step retire r.context with
  | error t d => rfl
  | ok m d =>
    have hInner : d.inner = m.stack.frames := hSettles _ _ _ h.inForce hStep
    rw [stage_ok]
    cases hFinished : m.finished? with
    | none => trivial
    | some x =>
      rw [frames_of_finished hFinished] at hInner
      obtain ⟨_ | v, rest⟩ := x
      · exact hInner
      · cases r.scheduler <;> exact hInner

/-- Whatever comes next in a run, no frames are left entered between driver steps. -/
theorem Unwound.leads {a b : Stage} (h : a.Unwound) (hSettled : a.Settled)
    (hLeads : Leads retire a b) : b.Unwound := by
  cases hLeads with
  | step r => exact unwound_stepBy hSettled
  | resume s =>
    unfold Suspension.resume
    split
    · exact h
    · trivial
  | signal r => trivial
  | expire r => trivial
  | takeOutput r => trivial

/-- A machine step that ends a driver step leaves nothing to report, or it reports its only
fault. -/
theorem clear_stepBy {r : Running} (h : (Stage.running r).Clear) :
    (r.stepBy retire).Clear ∧ ∀ o, r.stepBy retire = .ended o → o.Reported .driven := by
  obtain ⟨hErrors, hAborted⟩ : r.context.errors = [] ∧ r.context.aborted = false := h
  have hSame := r.machine.sameSettings_step retire r.context
  unfold Running.stepBy
  cases hStep : r.machine.step retire r.context with
  | error t d =>
    rw [after_error hStep] at hSame
    have hOne := Context.errors_abort (hSame.errors_eq_nil hErrors) t
    refine ⟨trivial, fun o hEnded => ?_⟩
    cases hEnded
    refine ⟨?_, rfl, fun _ => ?_⟩
    · rw [hOne]
      exact List.cons_ne_nil _ _
    · rw [hOne]
      rfl
  | ok m d =>
    rw [after_ok hStep] at hSame
    have hNone : d.errors = [] := hSame.errors_eq_nil hErrors
    have hGoesOn : d.aborted = false := hSame.aborted.trans hAborted
    rw [stage_ok]
    cases m.finished? with
    | none => exact ⟨⟨hNone, hGoesOn⟩, fun o hEnded => by cases hEnded⟩
    | some x =>
      obtain ⟨_ | v, rest⟩ := x
      · refine ⟨trivial, fun o hEnded => ?_⟩
        cases hEnded
        exact hNone
      · cases r.scheduler with
        -- A suspended run can be resumed, since nothing was reported.
        | nonDet =>
          refine ⟨iff_of_true hGoesOn hNone, fun o hEnded => ?_⟩
          cases hEnded
          exact hNone
        | preemptive =>
          refine ⟨trivial, fun o hEnded => ?_⟩
          cases hEnded
          exact hNone

/-- To resume a run that was given up only tells so. -/
theorem resume_of_aborted {s : Suspension} (h : s.context.aborted = true) :
    s.resume = .ended (.errored s.context.errors s.context) := if_pos h

/-- A run that was not given up goes on. -/
theorem resume_of_not_aborted {s : Suspension} (h : s.context.aborted = false) :
    s.resume = .begin s.rest s.context s.scheduler := by
  unfold Suspension.resume
  rw [h]
  rfl

/-- What comes next in a run leaves order behind. -/
theorem Orderly.leads {ps : List Program} {a b : Stage} (h : Orderly ps a) (hLeads : Leads retire a b) :
    Orderly ps b ∧ ∀ o, b = .ended o → o.Reported .driven := by
  have hCarries := (Next.leads hLeads).carries h.regular
  have hFrames : b.context.store.Stacks ps b.context.outer := by
    rw [outer_eq_of_leads hLeads]
    exact h.frames.carries hCarries
  have hSettled := h.settled.leads hLeads
  have hUnwound := h.unwound.leads h.settled hLeads
  cases hLeads with
  | step r =>
    obtain ⟨hClear, hReported⟩ := @clear_stepBy retire _ h.clear
    exact ⟨⟨hCarries.regular, hFrames, hSettled, hUnwound, hClear⟩, hReported⟩
  | resume s =>
    have hClear : s.context.aborted = false ↔ s.context.errors = [] := h.clear
    cases hAborted : s.context.aborted with
    | true =>
      have hErrors : s.context.errors ≠ [] := by
        rw [ne_eq, ← hClear, hAborted]
        exact Bool.noConfusion
      -- A run that was given up has reported so, and that report is all there is.
      rw [resume_of_aborted hAborted] at hCarries hFrames hSettled hUnwound ⊢
      refine ⟨⟨hCarries.regular, hFrames, hSettled, hUnwound, trivial⟩, fun o hEnded => ?_⟩
      cases hEnded
      refine ⟨hErrors, rfl, fun hNot => ?_⟩
      rw [hAborted] at hNot
      cases hNot
    | false =>
      rw [resume_of_not_aborted hAborted] at hCarries hFrames hSettled hUnwound ⊢
      refine ⟨⟨hCarries.regular, hFrames, hSettled, hUnwound, hClear.mp hAborted, hAborted⟩,
        fun o hEnded => ?_⟩
      cases hEnded
  | signal r =>
    exact ⟨⟨hCarries.regular, hFrames, hSettled, hUnwound, h.clear⟩, fun o hEnded => by cases hEnded⟩
  | expire r =>
    exact ⟨⟨hCarries.regular, hFrames, hSettled, hUnwound, h.clear⟩, fun o hEnded => by cases hEnded⟩
  | takeOutput r =>
    exact ⟨⟨hCarries.regular, hFrames, hSettled, hUnwound, h.clear⟩, fun o hEnded => by cases hEnded⟩

-- ---------------------------------------------------------------------------
-- All calls
-- ---------------------------------------------------------------------------

/-- What is done to a context from outside leaves the frames of programs alone. -/
theorem Orderly.onContext {ps : List Program} {o : Outcome} (h : Orderly ps (.ended o))
    {g : Context → Context} (hStore : (g o.context).store = o.context.store)
    (hOuter : (g o.context).outer = o.context.outer) (hInner : (g o.context).inner = [])
    (hClear : ∀ s, o = .suspended s →
      ((g s.context).aborted = false ↔ (g s.context).errors = [])) :
    Orderly ps (.ended (o.onContext g)) := by
  have hRegular : (g o.context).store.Regular := hStore ▸ h.regular
  have hFrames : (g o.context).store.Stacks ps (g o.context).outer := by
    rw [hStore, hOuter]
    exact h.frames
  cases o with
  | suspended s =>
    exact ⟨hRegular, hFrames, ⟨hInner, h.settled.level⟩, hInner, hClear s rfl⟩
  | finished v c =>
    exact ⟨hRegular, hFrames, ⟨trivial, fun _ hx => absurd hx List.not_mem_nil⟩, hInner, trivial⟩
  | errored ds c =>
    exact ⟨hRegular, hFrames, ⟨trivial, fun _ hx => absurd hx List.not_mem_nil⟩, hInner, trivial⟩

/-- What a call has reported stays reported, as long as the diagnostics are left alone. -/
theorem reported_onContext {deed : Deed} {o : Outcome} (h : o.Reported deed)
    {g : Context → Context} (hErrors : ∀ c, (g c).errors = c.errors)
    (hAborted : ∀ c, (g c).aborted = c.aborted) : (o.onContext g).Reported deed := by
  cases deed with
  | made => trivial
  | interrupted => trivial
  | unread =>
    obtain ⟨ds, c, rfl, hSome, rfl⟩ := h
    exact ⟨c.errors, g c, rfl, hSome, (hErrors c).symm⟩
  | driven =>
    cases o with
    | suspended s => exact (hErrors s.context).trans h
    | finished v c => exact (hErrors c).trans h
    | errored ds c =>
      obtain ⟨hSome, hAll, hOne⟩ := h
      exact ⟨hSome, hAll.trans (hErrors c).symm, fun hNot => hOne ((hAborted c).symm.trans hNot)⟩

/-- After all that can be done to a context, it is in order; a call has reported what there is. -/
theorem Used.orderly {ps : List Program} {deed : Deed} {st : Stage}
    (h : Used retire chapter ps deed st) :
    Orderly ps st ∧ ∀ o, st = .ended o → o.Reported deed := by
  induction h with
  | fresh =>
    refine ⟨⟨(constants_new chapter).regular, stacks_new chapter, ?_, rfl, trivial⟩,
      fun o _ => trivial⟩
    exact ⟨trivial, fun _ hx => absurd hx List.not_mem_nil⟩
  | @unread ps deed o _ code hNone options ih =>
    obtain ⟨d, hLoad, hReadied⟩ := o.context.exists_readied retire options.limits
    have hPrepared := hReadied.prepared ih.1.frames
    rw [runBy_eq_errored retire options hLoad hNone]
    refine ⟨⟨hPrepared.regular, hPrepared.frames, settled_errored _, hPrepared.inner, trivial⟩,
      fun o' hEnded => ?_⟩
    cases hEnded
    exact ⟨_, _, rfl, kept_ne_nil_of_parse hNone, rfl⟩
  | @run ps deed o _ code p hParsed options ih =>
    obtain ⟨d, hLoad, hReadied⟩ := o.context.exists_readied retire options.limits
    have hPrepared := hReadied.prepared ih.1.frames
    rw [runBy_eq_begin retire options hLoad hParsed]
    refine orderly_begin ?_ p options.scheduler
    exact ⟨hPrepared.regular, hPrepared.frames, hPrepared.inner, hPrepared.errors,
      hPrepared.aborted, hPrepared.interrupted⟩
  | @runProgram ps deed o _ p options ih =>
    obtain ⟨d, hReadied, hRun⟩ := runProgramBy_eq retire p o.context options
    rw [hRun]
    exact orderly_begin (hReadied.prepared ih.1.frames) p options.scheduler
  | leads _ hLeads ih => exact ih.1.leads hLeads
  | interrupt _ ih =>
    refine ⟨ih.1.onContext rfl rfl rfl fun s _ => ?_, fun o _ => trivial⟩
    -- it was given up, and that is reported
    refine iff_of_false Bool.noConfusion ?_
    exact List.append_ne_nil_of_right_ne_nil _ (List.cons_ne_nil _ _)
  | @signal ps deed o _ ih =>
    refine ⟨ih.1.onContext rfl rfl ih.1.unwound fun s hSuspended => ?_, fun o' hEnded => ?_⟩
    · subst hSuspended
      exact ih.1.clear
    · cases hEnded
      exact reported_onContext (ih.2 o rfl) (fun _ => rfl) fun _ => rfl
  | @takeOutput ps deed o _ ih =>
    refine ⟨ih.1.onContext rfl rfl ih.1.unwound fun s hSuspended => ?_, fun o' hEnded => ?_⟩
    · subst hSuspended
      exact ih.1.clear
    · cases hEnded
      exact reported_onContext (ih.2 o rfl) (fun _ => rfl) fun _ => rfl

/-- Whatever is done to a new context:

* when it is done, the frames in force are those of the programs that were entered, each inside the
  next, and the global frame around them, and all of them outlast the run;
* a call that failed gives just the diagnostics of the context, and there are some; a fault of a run
  that was not given up is the only one; after a value, and after the last one, there are none;
* to resume a suspended run that was given up tells that it was given up, and does nothing else;
* the next run begins with nothing to report, nothing asked for and all names bound as they were. -/
theorem calls_leave_order {ps : List Program} {deed : Deed} {o : Outcome}
    (h : Used retire chapter ps deed (.ended o)) :
    o.context.environments = o.context.outer ∧
      o.context.store.Stacks ps o.context.outer ∧
      o.Reported deed ∧
      (∀ s, o = .suspended s →
        ({ s with context := s.context.interrupt } : Suspension).resume =
            .ended (.errored (s.context.errors ++
              [(Fault.interrupted .synthetic).toDiagnostic s.context.source]) s.context.interrupt) ∧
          s.context.interrupt.store = s.context.store ∧
          s.context.interrupt.output = s.context.output ∧
          s.context.interrupt.steps = s.context.steps) ∧
      ∀ options : Options, ∃ d,
        (o.context.prepare options.limits).loadPreludeBy retire = .ok d ∧
          d.errors = [] ∧ d.interrupted = false ∧ d.aborted = false ∧
          ∀ f < o.context.store.nextFrame, d.store.scope? f = o.context.store.scope? f := by
  obtain ⟨hOrderly, hReported⟩ := h.orderly
  refine ⟨?_, hOrderly.frames, hReported o rfl, fun s _ => ⟨?_, rfl, rfl, rfl⟩, fun options => ?_⟩
  · show o.context.inner ++ o.context.outer = o.context.outer
    rw [show o.context.inner = [] from hOrderly.unwound]
    rfl
  · exact resume_of_aborted rfl
  · obtain ⟨d, hLoad, hReadied⟩ := o.context.exists_readied retire options.limits
    have hPrepared := hReadied.prepared hOrderly.frames
    exact ⟨d, hLoad, hPrepared.errors, hPrepared.interrupted, hPrepared.aborted,
      fun f hf => hReadied.scope?_eq hf⟩

/-- A program that declares a name twice is not entered, and the fault is reported. -/
theorem declaredTwice_leaves_order : ∃ ps ds c,
    Used Search.isExhausted 4 ps .driven (.ended (.errored ds c)) ∧
      c.environments = c.outer ∧ c.store.Stacks ps c.outer ∧
      (Outcome.errored ds c).Reported .driven := by
  have hReads : ((parse (programText "let a = 1; let a = 2;")).program.any
      fun p => !decide p.Distinct) = true := by decide +kernel
  obtain ⟨p, hParsed, hTwice⟩ := (Option.any_eq_true _ _).mp hReads
  have hTwice : ¬ p.Distinct := by simpa using hTwice
  have hFresh : Used Search.isExhausted 4 [] .made (fresh 4) := .fresh
  have hUsed := hFresh.run hParsed .default
  obtain ⟨d, hLoad, -⟩ := (Context.new 4).exists_readied Search.isExhausted
    Options.default.limits
  obtain ⟨t, s, hStart⟩ := Program.start_eq_error hTwice
    (p.heeded { d with source := programText "let a = 1; let a = 2;" })
  have hRun := runBy_eq_begin Search.isExhausted Options.default (c := Context.new 4) hLoad hParsed
  rw [p.begin_eq, hStart] at hRun
  have hUsed := hRun ▸ hUsed
  obtain ⟨hFrames, hStacks, hReported, -, -⟩ := calls_leave_order hUsed
  exact ⟨_, _, _, hUsed, hFrames, hStacks, hReported⟩

end Stage

end AmbScript
