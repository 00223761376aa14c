import AmbScript.Proofs.Machine.Budget
import AmbScript.Proofs.Machine.Metered
import AmbScript.Proofs.Session.Constants

/-!
# Budgets are transparent

A step budget is there to stop driver steps that take too long, and does nothing else. A driver
step that counts no more nodes than it may ends in the same way as without a budget; one that
counts more ends with the fault of the budget alone. The library is never charged for, and every
driver step counts from the beginning.

* `Running.advanceBy_budgeted` — how far a driver step gets on a budget.
* `Runnable.run_budgeted` — what is done before the first driver step is not charged for.
* `Stage.AtOutset` — nothing has been counted or reported at the beginning of a driver step.
* `Stage.budget_transparent` — all of this, for the driver steps of every program.

Two runs are compared, one with a budget and one without, whose contexts are the same but for the
limits. While the count is within the budget each machine step does the same in both; and as nodes
are counted one by one, the step in which the budget is exceeded is the first one that differs.
-/

namespace AmbScript

variable {b : Nat} {retire : {k : Kind} → Search k → Bool}

open Eval

-- ---------------------------------------------------------------------------
-- Budgets of stages
-- ---------------------------------------------------------------------------

/-- What can be run: a text, or a program that has been read already. -/
inductive Runnable
  | text (code : String)
  | program (p : Program)

/-- What is run may be a text or a program that was read before. -/
def Runnable.run : Runnable → Context → Options → Stage
  | text code, c, options => AmbScript.run code c options
  | program p, c, options => runProgram p c options

/-- The same with another step budget, or without one. -/
def Suspension.budgeted (budget : Option Nat) (s : Suspension) : Suspension :=
  { s with context := s.context.budgeted budget }

/-- The outcome with another budget in its context. -/
def Outcome.budgeted (budget : Option Nat) (o : Outcome) : Outcome :=
  o.onContext (.budgeted budget)

/-- The driver step with another budget. -/
def Running.budgeted (budget : Option Nat) (r : Running) : Running :=
  { r with context := r.context.budgeted budget }

namespace Stage

/-- The stage with another budget. -/
def budgeted (budget : Option Nat) : Stage → Stage
  | .running r => .running (r.budgeted budget)
  | .ended o => .ended (o.budgeted budget)

/-- How many nodes are counted in the next `n` machine steps of a driver step, and before them. -/
def ticks (retire : {k : Kind} → Search k → Bool) (n : Nat) : Stage → Nat
  | .running r => ((r.machine.run retire n).after r.context).steps
  | .ended _ => 0

/-- Taken however far, the driver step counts no more than `b` nodes. -/
def TicksAtMost (retire : {k : Kind} → Search k → Bool) (b : Nat) (st : Stage) : Prop :=
  ∀ n, st.ticks retire n ≤ b

/-- A stage has ended just if it has with another budget. -/
theorem budgeted_eq_ended {budget : Option Nat} {st : Stage} {o : Outcome} :
    st.budgeted budget = .ended o ↔ ∃ o', st = .ended o' ∧ o = o'.budgeted budget := by
  cases st with
  | running r => exact ⟨nofun, fun ⟨_, h, _⟩ => nomatch h⟩
  | ended o' =>
    refine ⟨fun h => ?_, ?_⟩
    · cases h
      exact ⟨o', rfl, rfl⟩
    · rintro ⟨_, ⟨⟩, rfl⟩
      rfl

/-- A budget does not change how a machine that was run is looked at. -/
theorem stage_budgeted (budget : Option Nat) (scheduler : Scheduler)
    (x : EStateM.Result Fault Context Machine) :
    Running.stage scheduler (withContext (.budgeted budget) x) =
      (Running.stage scheduler x).budgeted budget := by
  cases x with
  | error t c => rfl
  | ok m c =>
    show Running.stage scheduler (.ok m (c.budgeted budget)) = _
    rw [stage_ok, stage_ok]
    cases m.finished? with
    | none => rfl
    | some x =>
      obtain ⟨_ | v, rest⟩ := x
      · rfl
      · cases scheduler <;> rfl

end Stage

/-- Whatever is resumed is resumed on its budget. -/
theorem Suspension.resume_budgeted (budget : Option Nat) (s : Suspension) :
    (s.budgeted budget).resume = s.resume.budgeted budget := by
  unfold resume
  show (if s.context.aborted = true then _ else _) = _
  split <;> rfl

-- ---------------------------------------------------------------------------
-- Driver steps on a budget
-- ---------------------------------------------------------------------------

/-- Nothing but a fault of the program can end the run, and nothing has been reported. -/
structure Context.Clean (c : Context) : Prop extends c.Free where
  errors : c.errors = []

/-- A context in which nothing was stopped stays so. -/
theorem Context.SameSettings.clean {c d : Context} (h : c.SameSettings d) (hClean : c.Clean) :
    d.Clean := ⟨h.free hClean.toFree, h.errors_eq_nil hClean.errors⟩

/-- How far a driver step gets: as far as without a budget if no more than `b` nodes are counted by
then, and otherwise to the fault of the budget. -/
theorem Running.advanceBy_budgeted {r : Running} (hClean : r.context.Clean)
    (hSteps : r.context.steps ≤ b) (n : Nat) :
    ((Stage.running r).ticks retire n ≤ b ∧
        (r.budgeted (some b)).advanceBy retire n = (r.advanceBy retire n).budgeted (some b)) ∨
      (b < (Stage.running r).ticks retire n ∧
        ∃ span d, (r.budgeted (some b)).advanceBy retire n =
          .ended (.errored [(Fault.stepBudgetExceeded b span).toDiagnostic r.context.source] d)) := by
  have hMetered := r.machine.metered_run retire n
  unfold advanceBy
  -- the run stays within the budget, and is the same, or goes beyond it, and ends in the fault
  cases hMetered.charged hClean.toFree hSteps with
  | within hTicks h =>
    refine .inl ⟨hTicks, ?_⟩
    show stage r.scheduler (r.machine.run retire n (r.context.budgeted (some b))) = _
    rw [h]
    exact Stage.stage_budgeted _ _ _
  | @beyond hTicks span d h =>
    have hSame := hMetered.modest (r.context.budgeted (some b))
    rw [after_error h] at hSame
    refine .inr ⟨hTicks, span, d.abort (.stepBudgetExceeded b span), ?_⟩
    show stage r.scheduler (r.machine.run retire n (r.context.budgeted (some b))) = _
    rw [h]
    show Stage.ended (.errored (d.errors ++ [Fault.toDiagnostic _ d.source]) _) = _
    rw [hSame.errors_eq_nil hClean.errors, hSame.source]
    rfl

namespace Stage

/-- A driver step that has counted nothing yet and has nothing to report. -/
def AtOutset : Stage → Prop
  | .running r => r.context.Clean ∧ r.context.steps = 0
  | .ended (.suspended s) => s.context.Clean
  | .ended _ => True

/-- A driver step that is suspended leaves nothing stopped. -/
theorem AtOutset.ends {st : Stage} (h : st.AtOutset) {s : Suspension}
    (hEnds : st.Ends retire (.suspended s)) : s.context.Clean := by
  cases st with
  | ended o =>
    cases hEnds
    exact h
  | running r =>
    obtain ⟨n, hn⟩ := hEnds
    -- Evaluation counts nodes, but it is not what asks for a stop.
    have hSame := (r.machine.metered_run retire n).modest r.context
    unfold Running.advanceBy at hn
    cases hRun : r.machine.run retire n r.context with
    | error t d =>
      rw [hRun] at hn
      cases hn
    | ok m d =>
      rw [after_ok hRun] at hSame
      have hContext := congrArg Stage.context hn
      rw [hRun, context_stage] at hContext
      have hContext : d = s.context := hContext
      exact hContext ▸ hSame.clean h.1

/-- A run that is resumed begins to count anew. -/
theorem atOutset_resume {s : Suspension} (h : s.context.Clean) : s.resume.AtOutset := by
  unfold Suspension.resume
  split
  · trivial
  · exact ⟨⟨⟨h.limits, h.interrupted⟩, h.errors⟩, rfl⟩

theorem DriverStep.atOutset {first st : Stage} (hFirst : first.AtOutset)
    (h : DriverStep retire first st) : st.AtOutset := by
  induction h with
  | first => exact hFirst
  | resume _ hEnds ih => exact atOutset_resume (ih.ends hEnds)

variable {st : Stage}

/-- Within its budget a driver step has the outcome that it has without one. -/
theorem AtOutset.ends_budgeted_iff (h : st.AtOutset) (hTicks : st.TicksAtMost retire b)
    {o : Outcome} : (st.budgeted (some b)).Ends retire o ↔
      ∃ o', st.Ends retire o' ∧ o = o'.budgeted (some b) := by
  cases st with
  | ended o' => exact ⟨fun hEq => ⟨o', rfl, hEq.symm⟩, fun ⟨_, hEq, ho⟩ => hEq ▸ ho.symm⟩
  | running r =>
    -- the ticks never go beyond the budget, so the two runs advance together
    have hAdvance (n : Nat) :
        (r.budgeted (some b)).advanceBy retire n = (r.advanceBy retire n).budgeted (some b) := by
      rcases Running.advanceBy_budgeted h.1 (h.2 ▸ Nat.zero_le b) n with
        ⟨-, hSame⟩ | ⟨hBeyond, -⟩
      · exact hSame
      · exact absurd (hTicks n) (Nat.not_le.mpr hBeyond)
    constructor
    · rintro ⟨n, hn⟩
      rw [hAdvance, budgeted_eq_ended] at hn
      obtain ⟨o', hEnds, ho⟩ := hn
      exact ⟨o', ⟨n, hEnds⟩, ho⟩
    · rintro ⟨o', ⟨n, hn⟩, ho⟩
      exact ⟨n, (hAdvance n).trans (budgeted_eq_ended.mpr ⟨o', hn, ho⟩)⟩

/-- Beyond its budget a driver step ends with the fault of the budget, and only with this one. -/
theorem AtOutset.ends_of_beyond (h : st.AtOutset) (hTicks : ¬ st.TicksAtMost retire b) :
    ∃ span d, (st.budgeted (some b)).Ends retire
      (.errored [(Fault.stepBudgetExceeded b span).toDiagnostic st.context.source] d) := by
  unfold TicksAtMost at hTicks
  obtain ⟨n, hn⟩ := not_forall.mp hTicks
  cases st with
  | ended o => exact absurd (Nat.zero_le b) hn
  | running r =>
    rcases @Running.advanceBy_budgeted _ retire _ h.1 (h.2 ▸ Nat.zero_le b) n with
      ⟨hWithin, -⟩ | ⟨-, span, d, hEnded⟩
    · exact absurd hWithin hn
    · exact ⟨span, d, n, hEnded⟩

/-- A driver step that gets on with its budget has counted no more than that when it ends. -/
theorem AtOutset.ends_of_value (h : st.AtOutset) {o : Outcome}
    (hEnds : (st.budgeted (some b)).Ends retire o) (hValue : o.value?.isSome) :
    ∃ o', o = o'.budgeted (some b) ∧ st.Ends retire o' ∧
      ∀ b', b ≤ b' → (st.budgeted (some b')).Ends retire (o'.budgeted (some b')) := by
  cases st with
  | ended o' => exact ⟨o', hEnds.symm, rfl, fun _ _ => rfl⟩
  | running r =>
    obtain ⟨n, hn⟩ := hEnds
    rcases @Running.advanceBy_budgeted _ retire _ h.1 (h.2 ▸ Nat.zero_le b) n with
      ⟨hWithin, hSame⟩ | ⟨-, span, d, hEnded⟩
    · rw [hSame, budgeted_eq_ended] at hn
      obtain ⟨o', hAdvance, ho⟩ := hn
      refine ⟨o', ho, ⟨n, hAdvance⟩, fun b' hLarger => ⟨n, ?_⟩⟩
      rcases @Running.advanceBy_budgeted _ retire _ h.1 (h.2 ▸ Nat.zero_le b') n with
        ⟨-, hSame'⟩ | ⟨hBeyond, -⟩
      · exact hSame'.trans (budgeted_eq_ended.mpr ⟨o', hAdvance, rfl⟩)
      · exact absurd (Nat.le_trans hWithin hLarger) (Nat.not_le.mpr hBeyond)
    -- a fault has no value
    · cases hEnded.symm.trans hn
      cases hValue

end Stage

-- ---------------------------------------------------------------------------
-- Beginnings on a budget
-- ---------------------------------------------------------------------------

/-- The library is loaded without a budget. -/
theorem Context.loadLibrary_budgeted {library : Parsed} {c d : Context} (budget : Option Nat)
    (h : c.loadLibrary retire library = .ok d) :
    (c.budgeted budget).loadLibrary retire library = .ok (d.budgeted budget) := by
  unfold loadLibrary at h ⊢
  show (if (!c.preludePending) = true then _ else _) = _
  split at h
  · rename_i hLoaded
    rw [if_pos hLoaded]
    cases h
    rfl
  · rename_i hPending
    rw [if_neg hPending]
    dsimp only [budgeted] at h ⊢
    split at h
    · cases h
    · split at h <;> cases h <;> rfl

/-- To begin a program does not look at the limits. -/
theorem Program.blind_start (p : Program) : Blind p.start := by
  refine Blind.bind ?_ fun _ => blind_pure _
  exact (opening_childFrame _).blind.bind fun _ => (filling_hoist _).blind.bind fun _ =>
    blind_modify (fun _ _ => rfl) fun _ => rfl

theorem Program.begin_budgeted (budget : Option Nat) (p : Program) (c : Context)
    (scheduler : Scheduler) :
    p.begin (c.budgeted budget) scheduler = (p.begin c scheduler).budgeted budget := by
  have hHeeded : p.heeded (c.budgeted budget) = (p.heeded c).budgeted budget := by
    rw [heeded_eq, heeded_eq]
    rfl
  rw [p.begin_eq, p.begin_eq, hHeeded, p.blind_start.budgeted]
  cases p.start (p.heeded c) <;> rfl

/-- A run is made ready, and its program is entered, at no charge. -/
theorem Runnable.run_budgeted (x : Runnable) (c : Context) (scheduler : Scheduler)
    (budget : Option Nat) :
    x.run c ⟨scheduler, ⟨budget, none⟩⟩ = (x.run c ⟨scheduler, .unlimited⟩).budgeted budget := by
  obtain ⟨d, hLoad, -⟩ := c.exists_readied Search.isExhausted .unlimited
  have hPrepared : c.prepare ⟨budget, none⟩ = (c.prepare .unlimited).budgeted budget := rfl
  -- The library is loaded without limits, whatever those of the run are.
  have hLoadBudgeted : (c.prepare ⟨budget, none⟩).loadPreludeBy Search.isExhausted =
      .ok (d.budgeted budget) := by
    unfold Context.loadPreludeBy at hLoad ⊢
    rw [hPrepared]
    exact Context.loadLibrary_budgeted budget hLoad
  cases x with
  | text code =>
    show runBy _ code c _ = (runBy _ code c _).budgeted budget
    unfold runBy
    rw [hLoad, hLoadBudgeted]
    dsimp only
    cases (parse ⟨programName, code⟩).program with
    | none => rfl
    | some p => exact p.begin_budgeted budget { d with source := ⟨programName, code⟩ } scheduler
  | program p =>
    show runProgramBy _ p c _ = (runProgramBy _ p c _).budgeted budget
    unfold runProgramBy
    rw [hLoad, hLoadBudgeted]
    exact p.begin_budgeted budget d scheduler

/-- A context that was made ready for a run without limits is clean. -/
theorem Context.Readied.clean {c d : Context} (h : c.Readied .unlimited d) : d.Clean :=
  ⟨⟨h.limits_eq, h.interrupted⟩, h.errors⟩

namespace Stage

/-- A program that is begun has counted nothing yet. -/
theorem atOutset_begin (p : Program) {c : Context} (h : c.Clean) (scheduler : Scheduler) :
    (p.begin c scheduler).AtOutset := by
  have hHeeded : (p.heeded c).Clean := by
    rw [p.heeded_eq]
    exact ⟨⟨h.limits, h.interrupted⟩, h.errors⟩
  have hClean := (sameSettings_start p (p.heeded c)).clean hHeeded
  rw [p.begin_eq]
  cases hStart : p.start (p.heeded c) with
  | error t d => trivial
  | ok s d =>
    rw [after_ok hStart] at hClean
    exact ⟨⟨⟨hClean.limits, hClean.interrupted⟩, hClean.errors⟩, rfl⟩

/-- The same holds of what is run on any context. -/
theorem atOutset_run (x : Runnable) (c : Context) (scheduler : Scheduler) :
    (x.run c ⟨scheduler, .unlimited⟩).AtOutset := by
  cases x with
  | text code =>
    obtain ⟨d, hReadied, ⟨errors, hRun⟩ | ⟨p, -, hRun⟩⟩ :=
      runBy_cases Search.isExhausted code c ⟨scheduler, .unlimited⟩
    · show AtOutset (runBy _ code c _)
      rw [hRun]
      trivial
    · show AtOutset (runBy _ code c _)
      -- the context is clean when the program begins: no reports, and nothing that would stop it
      have hClean := hReadied.clean
      rw [hRun]
      refine atOutset_begin p (c := { d with source := _ }) ?_ scheduler
      exact ⟨⟨hClean.limits, hClean.interrupted⟩, hClean.errors⟩
  | program p =>
    obtain ⟨d, hReadied, hRun⟩ := runProgramBy_eq Search.isExhausted p c ⟨scheduler, .unlimited⟩
    show AtOutset (runProgramBy _ p c _)
    rw [hRun]
    exact atOutset_begin p hReadied.clean scheduler

-- ---------------------------------------------------------------------------
-- Runs on a budget
-- ---------------------------------------------------------------------------

/-- The driver steps of a run on a budget are driver steps of the run without one, each of them on
that budget. -/
theorem DriverStep.of_budgeted {first t : Stage} (hFirst : first.AtOutset)
    (h : DriverStep retire (first.budgeted (some b)) t) :
    ∃ st, DriverStep retire first st ∧ t = st.budgeted (some b) := by
  induction h with
  | first => exact ⟨first, .first, rfl⟩
  | @resume t s _ hEnds ih =>
    obtain ⟨st, hStep, rfl⟩ := ih
    obtain ⟨o, ho, hEnds', -⟩ := (hStep.atOutset hFirst).ends_of_value hEnds rfl
    cases o with
    | suspended s' =>
      cases ho
      exact ⟨s'.resume, .resume hStep hEnds', s'.resume_budgeted (some b)⟩
    | finished v d => cases ho
    | errored ds d => cases ho

/-- A budget of `b` steps is transparent. A run on it is the run without a budget, put on it before
anything is counted, and so is each of its driver steps. A driver step that counts no more than `b`
nodes has the outcome that it has without a budget; otherwise the fault of the budget is all that is
reported. So a larger budget does not change a driver step that came to a value. -/
theorem budget_transparent (x : Runnable) (c : Context) (scheduler : Scheduler) (b : Nat) {st : Stage}
    (hStep : DriverStep Search.isExhausted (x.run c ⟨scheduler, .unlimited⟩) st) :
    x.run c ⟨scheduler, ⟨some b, none⟩⟩ = (x.run c ⟨scheduler, .unlimited⟩).budgeted (some b) ∧
      (∀ s : Suspension, (s.budgeted (some b)).resume = s.resume.budgeted (some b)) ∧
      (∀ t, DriverStep Search.isExhausted (x.run c ⟨scheduler, ⟨some b, none⟩⟩) t →
        ∃ st', DriverStep Search.isExhausted (x.run c ⟨scheduler, .unlimited⟩) st' ∧
          t = st'.budgeted (some b)) ∧
      (∀ r, st = .running r → r.context.steps = 0) ∧
      (st.TicksAtMost Search.isExhausted b → ∀ o,
        (st.budgeted (some b)).Ends Search.isExhausted o ↔
          ∃ o', st.Ends Search.isExhausted o' ∧ o = o'.budgeted (some b)) ∧
      (¬ st.TicksAtMost Search.isExhausted b →
        ∃ span d, (st.budgeted (some b)).Ends Search.isExhausted
          (.errored [(Fault.stepBudgetExceeded b span).toDiagnostic st.context.source] d)) ∧
      ∀ o, (st.budgeted (some b)).Ends Search.isExhausted o → o.value?.isSome → ∀ b', b ≤ b' →
        (st.budgeted (some b')).Ends Search.isExhausted (o.budgeted (some b')) := by
  have hFirst := atOutset_run x c scheduler
  have hOutset := hStep.atOutset hFirst
  have hRun := x.run_budgeted c scheduler (some b)
  refine ⟨hRun, fun s => s.resume_budgeted (some b), fun t ht => ?_, ?_,
    fun hTicks o => hOutset.ends_budgeted_iff hTicks, hOutset.ends_of_beyond, ?_⟩
  · rw [hRun] at ht
    exact ht.of_budgeted hFirst
  · rintro r rfl
    exact hOutset.2
  · intro o hEnds hValue b' hLarger
    -- an outcome with a value has not met the limit, so it is there without one, and within a
    -- larger one
    obtain ⟨o', rfl, -, hLater⟩ := hOutset.ends_of_value hEnds hValue
    have hTwice : (o'.budgeted (some b)).budgeted (some b') = o'.budgeted (some b') := by
      cases o' <;> rfl
    rw [hTwice]
    exact hLater b' hLarger

/-- The program of the text `true;`. -/
def constantTrue : Program :=
  ⟨.mk [.expr (.bool true ⟨⟨1, 1⟩, ⟨1, 4⟩⟩)] ⟨⟨1, 1⟩, ⟨1, 5⟩⟩, ⟨⟨1, 1⟩, ⟨1, 5⟩⟩⟩

/-- This is how the text is read. -/
theorem parse_constantTrue : (parse (programText "true;")).program = some constantTrue := by
  rw [parse_of_toList (show (programText "true;").text.toList = ['t', 'r', 'u', 'e', ';'] from rfl)]
  rfl

/-- On whatever context it is begun without limits, the program counts two nodes. -/
theorem not_ticksAtMost_constantTrue {d : Context} (hLimits : d.limits = .unlimited)
    (hInterrupted : d.interrupted = false) :
    ¬ (constantTrue.begin d .nonDet).TicksAtMost Search.isExhausted 1 := by
  intro hTicks
  have hTwo : (constantTrue.begin d .nonDet).ticks Search.isExhausted 2 = 2 := by
    cases d
    cases hLimits
    cases hInterrupted
    rfl
  exact absurd (hTwo ▸ hTicks 2) (by decide)

/-- On a new context the program `true;` counts too many nodes for a budget of one. -/
theorem constant_beyond_budget :
    ∃ span source d, (run "true;" (.new 4) ⟨.nonDet, some 1, none⟩).Ends Search.isExhausted
      (.errored [(Fault.stepBudgetExceeded 1 span).toDiagnostic source] d) := by
  obtain ⟨hRun, -, -, -, -, hBeyond, -⟩ :=
    budget_transparent (.text "true;") (.new 4) .nonDet 1 .first
  dsimp only [Runnable.run] at hRun hBeyond
  have hTicks : ¬ (run "true;" (.new 4) ⟨.nonDet, .unlimited⟩).TicksAtMost Search.isExhausted 1 := by
    obtain ⟨d, hLoad, hReadied⟩ := (Context.new 4).exists_readied Search.isExhausted .unlimited
    rw [run, runBy_eq_begin Search.isExhausted ⟨.nonDet, .unlimited⟩ hLoad parse_constantTrue]
    exact not_ticksAtMost_constantTrue hReadied.limits_eq hReadied.interrupted
  rw [hRun]
  -- from here on it plays no role what the run is
  generalize run "true;" (.new 4) ⟨.nonDet, .unlimited⟩ = st at hTicks hBeyond
  obtain ⟨span, d, hEnds⟩ := hBeyond hTicks
  exact ⟨span, st.context.source, d, hEnds⟩

end Stage

end AmbScript
