import AmbScript.Proofs.Machine.Weight
import AmbScript.Proofs.Session.History

/-!
# Budgets end driver steps

A step budget is meant to end every driver step, and so it does, with one exception: it counts
evaluations of nodes, and a bare `for (;;) {}` goes round without evaluating any. Here the
exception is shown to be the only one.

* `Machine.reaches_bareTest` — from the test of a bare loop the machine comes back to it, and has
  counted nothing.
* `Running.counts_iff` — between two counts the machine takes finitely many steps, unless it comes
  to a bare loop.
* `Running.ends_iff` — a driver step with a budget, or with a stop asked for, ends unless it comes
  to a bare loop.
* `Stage.driver_step_ends_iff` — so it is with the driver steps of every program.
* `Stage.bare_loop_never_ends` — the program `for (;;) {}` does not end on a budget of a hundred.

That a step which counts nothing makes the machine lighter, unless it comes to a bare test, was
shown for single steps. So between two counts the weight falls, and over a whole driver step what
falls is the pair of what may still be counted and the weight, in this order.
-/

namespace AmbScript

variable {retire : {k : Kind} → Search k → Bool}

-- ---------------------------------------------------------------------------
-- Round and round
-- ---------------------------------------------------------------------------

namespace Eval

/-- To copy variables cannot fail, since what they are copied from is read as it is. -/
theorem copyVariables_apply (source target : FrameId) (names : List Ident) (c : Context) :
    ∃ s, copyVariables source target names c = .ok () { c with store := s } := by
  induction names generalizing c with
  | nil => exact ⟨c.store, rfl⟩
  | cons name names ih =>
    obtain ⟨s, hs⟩ := ih { c with
      store := c.store.write target name.name
        (.ofValue (((c.store.binding? source name.name) >>= Binding.value?).getD .undefined) true) }
    exact ⟨s, hs⟩

/-- The frame of a round can always be made. -/
theorem openRound_apply (init : Option LoopInit) (outer : FrameId) (c : Context) :
    ∃ round s, openRound init outer c = .ok round { c with store := s } := by
  obtain ⟨s, hs⟩ := copyVariables_apply outer c.store.nextFrame
    ((init.map LoopInit.declared).getD []) (c.newFrame "forBlockEnvironment" c.current none)
  refine ⟨c.store.nextFrame, s, bind_eq_ok.mpr ⟨_, _, rfl, bind_eq_ok.mpr ⟨(), _, hs, rfl⟩⟩⟩

end Eval

namespace Machine

/-- The body of a bare loop does nothing but make frames. -/
theorem startBody_of_isBare {header : Loop} (hBare : header.isBare = true) (c : Context) :
    ∃ round frame s, startBody header c =
      .ok (.body (.within round (.within frame (.sequence [])))) { c with store := s } := by
  cases header with
  | whileLoop test body => cases hBare
  | forLoop init test update body outer =>
    obtain ⟨statements, span⟩ := body
    simp only [Loop.isBare, Loop.body, Block.statements, Bool.and_eq_true, List.isEmpty_iff]
      at hBare
    obtain ⟨-, rfl⟩ := hBare
    obtain ⟨round, s, hRound⟩ := Eval.openRound_apply init outer c
    exact ⟨round, s.nextFrame, _, Eval.bind_eq_ok.mpr ⟨round, _, hRound, rfl⟩⟩

/-- After the body of a bare loop comes its test, which is missing. -/
theorem startUpdate_of_isBare {header : Loop} (hBare : header.isBare = true) (c : Context) :
    startUpdate header c = .ok (.test (.found (.bool true))) c := by
  cases header with
  | whileLoop test body => cases hBare
  | forLoop init test update body outer =>
    simp only [Loop.isBare, Loop.test?, Loop.update?, Bool.and_eq_true, Option.isNone_iff_eq_none]
      at hBare
    obtain ⟨⟨rfl, rfl⟩, -⟩ := hBare
    rfl

/-- What the machine looks like at the test of a bare loop. -/
theorem exists_of_atBareTest {m : Machine} (h : m.atBareTest = true) :
    ∃ header below stack, header.isBare = true ∧
      m = pull (.once (some (Value.bool true))) (.push (.test header below) stack) := by
  unfold atBareTest at h
  split at h
  · exact ⟨_, _, _, h, rfl⟩
  · cases h

/-- From the test of a bare loop the machine comes back to it, and has counted nothing. -/
theorem reaches_bareTest {m : Machine} (h : m.atBareTest = true) (c : Context) :
    ∃ n m' d, m.run retire (n + 1) c = .ok m' d ∧ m'.atBareTest = true ∧ d.steps = c.steps := by
  obtain ⟨header, below, stack, hBare, rfl⟩ := exists_of_atBareTest h
  obtain ⟨round, frame, s, hBody⟩ := startBody_of_isBare hBare c
  let phases := keep (retire (.failed : Search .value)) (.test .failed) below
  let waiting : Stack .completion := .push (.body header phases) stack
  let e : Context := { c with store := s }
  -- the test holds, and the body is started
  have hTest : (found (k := .value) (Value.bool true) .failed
      (.push (.test header below) stack)).Reaches retire c
      (pull (.within round (.within frame (.sequence []))) waiting) e :=
    reaches_of_step rfl (Eval.bind_eq_ok.mpr ⟨_, _, hBody, rfl⟩)
  -- the body completes at once
  have hEnter : (pull (.within round (.within frame (.sequence []))) waiting).Reaches retire e
      (pull (.sequence []) (.push (.within frame) (.push (.within round) waiting)))
      ((e.enter round).enter frame) :=
    (reaches_of_step rfl rfl).trans (reaches_of_step rfl rfl)
  have hLeave : (pull (.sequence []) (.push (.within frame) (.push (.within round) waiting))).Reaches
      retire ((e.enter round).enter frame)
      (found (k := .completion) (.value .undefined)
        (.within round (.within frame (.sequenced [] none))) waiting) e :=
    (reaches_of_step rfl rfl).trans ((reaches_of_step rfl rfl).trans (reaches_of_step rfl rfl))
  -- and the test is next again
  have hAgain : ∃ m', (found (k := .completion) (.value .undefined)
      (.within round (.within frame (.sequenced [] none))) waiting).Reaches retire e m' e ∧
      m'.atBareTest = true :=
    ⟨_, reaches_of_step rfl (Eval.bind_eq_ok.mpr ⟨_, _, startUpdate_of_isBare hBare e, rfl⟩), hBare⟩
  obtain ⟨m', hAgain, hTestAgain⟩ := hAgain
  obtain ⟨n, hn⟩ := hTest.trans (hEnter.trans (hLeave.trans hAgain))
  exact ⟨n, m', e, (run_succ rfl n c).trans hn, hTestAgain, rfl⟩

variable (retire) in
/-- So it goes on for any number of steps. -/
theorem run_bareTest {m : Machine} (h : m.atBareTest = true) (c : Context) (n : Nat) :
    ∃ j m' d, n ≤ j ∧ m.run retire j c = .ok m' d ∧ m'.atBareTest = true ∧ d.steps = c.steps := by
  induction n with
  | zero => exact ⟨0, m, c, Nat.le_refl _, rfl, h, rfl⟩
  | succ n ih =>
    obtain ⟨j, m₁, e, hj, hRun, hTest, hSteps⟩ := ih
    obtain ⟨i, m₂, d, hRound, hTest', hSteps'⟩ := reaches_bareTest hTest e
    refine ⟨j + (i + 1), m₂, d, by omega, (run_add hRun).trans hRound, hTest', ?_⟩
    rw [hSteps', hSteps]

/-- At such a test the walk is not over. -/
theorem unfinished_of_atBareTest {m : Machine} (h : m.atBareTest = true) : m.finished? = none := by
  obtain ⟨_, _, _, _, rfl⟩ := exists_of_atBareTest h
  rfl

/-- What was counted stays counted, also when a choice goes back. -/
theorem steps_le_of_step {m m' : Machine} {c d : Context} (h : m.step retire c = .ok m' d) :
    c.steps ≤ d.steps := by
  rw [← steps_origin m c]
  exact (proceeds_step h).steps

/-- No number of steps takes nodes off the count. -/
theorem steps_le_of_run {n : Nat} {m m' : Machine} {c d : Context}
    (h : m.run retire n c = .ok m' d) : c.steps ≤ d.steps := by
  induction n generalizing m c with
  | zero =>
    cases h
    exact Nat.le_refl _
  | succ n ih =>
    cases hFinished : m.finished? with
    | some x =>
      rw [run_of_finished hFinished] at h
      cases h
      exact Nat.le_refl _
    | none =>
      rw [run_succ hFinished] at h
      cases hStep : m.step retire c with
      | error t e =>
        rw [hStep] at h
        cases h
      | ok m₁ e =>
        rw [hStep] at h
        exact Nat.le_trans (steps_le_of_step hStep) (ih h)

/-- A machine that has run for a while has run for each shorter while. -/
theorem run_prefix {n j : Nat} {m m' : Machine} {c d : Context}
    (h : m.run retire (n + j) c = .ok m' d) :
    ∃ m₁ e, m.run retire n c = .ok m₁ e ∧ m₁.run retire j e = .ok m' d := by
  induction n generalizing m c with
  -- by induction on the shorter run: both take the same first step, and a machine that has finished
  -- stays where it is for any number of steps
  | zero =>
    rw [Nat.zero_add] at h
    exact ⟨m, c, rfl, h⟩
  | succ n ih =>
    cases hFinished : m.finished? with
    | some x =>
      rw [run_of_finished hFinished] at h
      cases h
      exact ⟨_, _, run_of_finished hFinished _ _, run_of_finished hFinished _ _⟩
    | none =>
      rw [Nat.succ_add, run_succ hFinished] at h
      rw [run_succ hFinished]
      cases hStep : m.step retire c with
      | error t e =>
        rw [hStep] at h
        cases h
      | ok m₁ e =>
        rw [hStep] at h
        exact ih h

/-- Whatever is reached from the test of a bare loop is neither finished nor has it counted. -/
theorem run_of_meets {j : Nat} {m m' : Machine} {c d : Context}
    (hRun : m.run retire j c = .ok m' d) (hTest : m'.atBareTest = true) (n : Nat) :
    ∃ m₁ e, m.run retire n c = .ok m₁ e ∧ m₁.finished? = none ∧ e.steps ≤ d.steps := by
  obtain ⟨i, m₂, d₂, hi, hRound, hTest₂, hSteps⟩ := run_bareTest retire hTest d n
  have hLong : m.run retire (n + (j + i - n)) c = .ok m₂ d₂ := by
    rw [show n + (j + i - n) = j + i by omega]
    exact (run_add hRun).trans hRound
  obtain ⟨m₁, e, hPrefix, hRest⟩ := run_prefix hLong
  refine ⟨m₁, e, hPrefix, ?_, hSteps ▸ steps_le_of_run hRest⟩
  cases hFinished : m₁.finished? with
  | none => rfl
  | some x =>
    rw [run_of_finished hFinished] at hRest
    cases hRest
    rw [unfinished_of_atBareTest hTest₂] at hFinished
    cases hFinished

end Machine

-- ---------------------------------------------------------------------------
-- Between two counts
-- ---------------------------------------------------------------------------

namespace Running

/-- The machine comes to the test of a bare loop. -/
def MeetsBareLoop (r : Running) : Prop :=
  ∃ n m d, r.machine.run Search.isExhausted n r.context = .ok m d ∧ m.atBareTest = true

/-- It does so before it has counted a node. -/
def MeetsBareLoopFirst (r : Running) : Prop :=
  ∃ n m d, r.machine.run Search.isExhausted n r.context = .ok m d ∧ m.atBareTest = true ∧
    d.steps = r.context.steps

/-- After some number of steps the machine has counted a node, or its walk is over. -/
def CountsOrEnds (r : Running) : Prop :=
  ∃ n, match r.machine.run Search.isExhausted n r.context with
    | .ok m d => m.finished?.isSome = true ∨ r.context.steps < d.steps
    | .error _ _ => True

/-- Whatever a machine weighs, it counts a node or comes to its end, but for the test of a bare
loop. -/
theorem countsOrEnds_of_weight (w : Nat) : ∀ r : Running, r.machine.weight = w →
    ¬ r.MeetsBareLoopFirst → r.CountsOrEnds := by
  -- the weight is what carries the induction: a step that counts nothing makes the machine lighter,
  -- unless it comes to the test of a bare loop
  induction w using Nat.strongRecOn with
  | ind w ih =>
    intro r hWeight hNever
    cases hFinished : r.machine.finished? with
    | some x => exact ⟨0, .inl (by rw [hFinished]; rfl)⟩
    | none =>
      cases hStep : r.machine.step Search.isExhausted r.context with
      | error t d =>
        refine ⟨1, ?_⟩
        rw [Machine.run_succ hFinished, hStep]
        trivial
      | ok m d =>
        have hOne : r.machine.run Search.isExhausted 1 r.context = .ok m d := by
          rw [Machine.run_succ hFinished, hStep]
          rfl
        rcases Machine.lighter_step hFinished _ _ _ hStep with
          hCounts | ⟨hSame, hLighter | hTest⟩
        · refine ⟨1, ?_⟩
          rw [hOne]
          exact .inr hCounts
        · -- nothing is counted, and the machine has become lighter
          have hRest : ¬ MeetsBareLoopFirst ⟨m, d, r.scheduler⟩ := by
            rintro ⟨n, m', d', hRun, hTest, hSteps⟩
            refine hNever ⟨1 + n, m', d', (Machine.run_add hOne).trans hRun, hTest, ?_⟩
            exact hSteps.trans hSame.symm
          obtain ⟨n, hn⟩ := ih m.weight (hWeight ▸ hLighter) ⟨m, d, r.scheduler⟩ rfl hRest
          refine ⟨1 + n, ?_⟩
          rw [Machine.run_add hOne, hSame]
          exact hn
        · exact absurd ⟨1, m, d, hOne, hTest, hSame.symm⟩ hNever

/-- Between two counts the machine takes finitely many steps, unless it comes to a bare loop. -/
theorem counts_iff (r : Running) : r.CountsOrEnds ↔ ¬ r.MeetsBareLoopFirst := by
  constructor
  · rintro ⟨n, hn⟩ ⟨j, m, d, hRun, hTest, hSteps⟩
    obtain ⟨m₁, e, hPrefix, hUnfinished, hLe⟩ := Machine.run_of_meets hRun hTest n
    rw [hPrefix] at hn
    rcases hn with hFinished | hCounts
    · rw [hUnfinished] at hFinished
      cases hFinished
    · omega
  · exact countsOrEnds_of_weight _ r rfl

end Running

-- ---------------------------------------------------------------------------
-- Limits
-- ---------------------------------------------------------------------------

namespace Context

/-- There is a budget, or a stop was asked for. -/
def IsBounded (c : Context) : Prop :=
  c.limits.stepBudget.isSome = true ∨ c.interrupted = true

/-- How many nodes may still be counted. -/
def allowance (c : Context) : Nat :=
  if c.interrupted then 0 else c.limits.stepBudget.getD 0 - c.steps

/-- In a bounded context a count that was allowed has made the allowance smaller. -/
theorem allowance_lt {c d : Context} (hBounded : c.IsBounded)
    (hInterrupted : d.interrupted = c.interrupted) (hLimits : d.limits = c.limits)
    (hSteps : c.steps < d.steps) (hAllowed : ∀ span, d.exceeded? span = none) :
    d.allowance < c.allowance := by
  have hNone := hAllowed .synthetic
  unfold exceeded? at hNone
  cases hStop : d.interrupted with
  | true =>
    rw [hStop, if_pos rfl] at hNone
    cases hNone
  | false =>
    rw [hInterrupted] at hStop
    -- not interrupted, so the allowance is what the budget leaves, and the budget was not exceeded
    rcases hBounded with hBudget | hInterrupt
    · obtain ⟨budget, hBudget⟩ := Option.isSome_iff_exists.mp hBudget
      rw [hInterrupted, hStop, hLimits, hBudget] at hNone
      simp only [Bool.false_eq_true, if_false] at hNone
      split at hNone
      · cases hNone
      · unfold allowance
        rw [hInterrupted, hStop, hLimits, hBudget]
        simp only [Bool.false_eq_true, if_false, Option.getD_some]
        omega
    · rw [hStop] at hInterrupt
      cases hInterrupt

end Context

namespace Machine

/-- Neither a step nor going back touches the limits. -/
theorem limits_of_step {m m' : Machine} {c d : Context} (h : m.step retire c = .ok m' d) :
    d.limits = c.limits ∧ d.interrupted = c.interrupted := by
  have hProceeds := proceeds_step h
  have hOrigin : (m.origin c).limits = c.limits ∧ (m.origin c).interrupted = c.interrupted := by
    unfold origin
    split <;> exact ⟨rfl, rfl⟩
  exact ⟨hProceeds.limits_eq.trans hOrigin.1, hProceeds.interrupted_eq.trans hOrigin.2⟩

/-- The limits are those from before the walk, whatever it comes to. -/
theorem limits_of_answers {n : Nat} {m : Machine} {c d : Context}
    {x : Option Value × Search .value} (h : m.Answers retire n c (.ok x d)) :
    d.limits = c.limits := by
  generalize hAnswer : (EStateM.Result.ok x d : Answer) = y at h
  induction h with
  | finished hFinished =>
    cases hAnswer
    rfl
  | fault hUnfinished hStep => cases hAnswer
  | step hUnfinished hStep _ ih => exact (ih hAnswer).trans (limits_of_step hStep).1

end Machine

namespace Running

/-- In a bounded context a walk ends, unless the machine comes to a bare loop: each step uses up
some of the allowance, or else some of the weight. -/
theorem exists_answers (r : Running) (hBounded : r.context.IsBounded)
    (hNever : ¬ r.MeetsBareLoop) :
    ∃ n x, r.machine.Answers Search.isExhausted n r.context x := by
  cases hFinished : r.machine.finished? with
  | some x => exact ⟨0, _, .finished hFinished⟩
  | none =>
    cases hStep : r.machine.step Search.isExhausted r.context with
    | error t d => exact ⟨0, _, .fault hFinished hStep⟩
    | ok m d =>
      have hOne : r.machine.run Search.isExhausted 1 r.context = .ok m d := by
        rw [Machine.run_succ hFinished, hStep]
        rfl
      -- a bare loop met later in the run would be one met from the start
      have hRest : ¬ MeetsBareLoop ⟨m, d, r.scheduler⟩ := by
        rintro ⟨n, m', d', hRun, hTest⟩
        exact hNever ⟨1 + n, m', d', (Machine.run_add hOne).trans hRun, hTest⟩
      obtain ⟨hLimits, hInterrupted⟩ := Machine.limits_of_step hStep
      have hBounded' : d.IsBounded := by
        unfold Context.IsBounded
        rw [hLimits, hInterrupted]
        exact hBounded
      -- the measure is the pair of allowance and weight, in that order: a step that counts uses up
      -- the allowance, every other step makes the machine lighter
      have hSmaller : d.allowance < r.context.allowance ∨
          d.allowance = r.context.allowance ∧ m.weight < r.machine.weight := by
        rcases Machine.lighter_step hFinished _ _ _ hStep with
          hCounts | ⟨hSame, hLighter | hTest⟩
        · have hProceeds := Machine.proceeds_step hStep
          refine .inl (Context.allowance_lt hBounded hInterrupted hLimits hCounts ?_)
          exact hProceeds.allowed (Machine.steps_origin r.machine r.context ▸ hCounts)
        · refine .inr ⟨?_, hLighter⟩
          unfold Context.allowance
          rw [hLimits, hInterrupted, hSame]
        · exact absurd ⟨1, m, d, hOne, hTest⟩ hNever
      obtain ⟨n, x, hAnswers⟩ := exists_answers ⟨m, d, r.scheduler⟩ hBounded' hRest
      exact ⟨n + 1, x, .step hFinished hStep hAnswers⟩
termination_by (r.context.allowance, r.machine.weight)
decreasing_by
  rcases hSmaller with hLess | ⟨hSame, hLess⟩
  · exact .left _ _ hLess
  · rw [hSame]
    exact .right _ hLess

/-- A driver step with a budget, or with a stop asked for, ends unless it comes to a bare loop. -/
theorem ends_iff (r : Running) (hBounded : r.context.IsBounded) :
    (∃ o, (Stage.running r).Ends Search.isExhausted o) ↔ ¬ r.MeetsBareLoop := by
  constructor
  · rintro ⟨o, n, hn⟩ ⟨j, m, d, hRun, hTest⟩
    obtain ⟨m₁, e, hPrefix, hUnfinished, -⟩ := Machine.run_of_meets hRun hTest n
    unfold advanceBy at hn
    rw [hPrefix, Stage.stage_ok, hUnfinished] at hn
    cases hn
  · intro hNever
    obtain ⟨n, x, hAnswers⟩ := r.exists_answers hBounded hNever
    exact ⟨_, Stage.ends_running_iff.mpr ⟨n, x, hAnswers, rfl⟩⟩

end Running

-- ---------------------------------------------------------------------------
-- Runs of programs
-- ---------------------------------------------------------------------------

namespace Stage

/-- The driver steps of a run: the first one, and those that resume it. -/
inductive DriverStep (retire : {k : Kind} → Search k → Bool) (first : Stage) : Stage → Prop
  | first : DriverStep @retire first first
  | resume {st : Stage} {s : Suspension} (h : DriverStep @retire first st)
      (hEnds : st.Ends @retire (.suspended s)) : DriverStep @retire first s.resume

/-- As long as it can go on, the stage has these limits. -/
def HasLimits (limits : Limits) : Stage → Prop
  | .running r => r.context.limits = limits
  | .ended (.suspended s) => s.context.limits = limits
  | .ended _ => True

/-- The stage comes to the test of a bare loop. -/
def MeetsBareLoop : Stage → Prop
  | .running r => r.MeetsBareLoop
  | .ended _ => False

/-- A suspension is left with the limits that its driver step had. -/
theorem HasLimits.ends {limits : Limits} {st : Stage} (h : st.HasLimits limits) {s : Suspension}
    (hEnds : st.Ends retire (.suspended s)) : s.context.limits = limits := by
  cases st with
  | ended o =>
    cases hEnds
    exact h
  | running r =>
    -- only a value found under the driver that asks for one at a time leaves a suspension
    obtain ⟨n, x, hAnswers, hOutcome⟩ := ends_running_iff.mp hEnds
    cases x with
    | error t d => cases hOutcome
    | ok x d =>
      obtain ⟨_ | v, rest⟩ := x
      · cases hOutcome
      · have hLimits := Machine.limits_of_answers hAnswers
        cases hScheduler : r.scheduler with
        | preemptive =>
          rw [hScheduler] at hOutcome
          cases hOutcome
        | nonDet =>
          rw [hScheduler] at hOutcome
          cases hOutcome
          exact hLimits.trans h

/-- To resume it changes no limits. -/
theorem hasLimits_resume {limits : Limits} {s : Suspension} (h : s.context.limits = limits) :
    s.resume.HasLimits limits := by
  unfold Suspension.resume
  split
  · trivial
  · exact h

/-- All driver steps have the limits that the run was started with. -/
theorem DriverStep.hasLimits {limits : Limits} {first st : Stage} (hFirst : first.HasLimits limits)
    (h : DriverStep retire first st) : st.HasLimits limits := by
  induction h with
  | first => exact hFirst
  | resume _ hEnds ih => exact hasLimits_resume (ih.ends hEnds)

/-- To begin a program makes a frame and fills it, and touches no limits. -/
theorem hasLimits_begin {limits : Limits} (p : Program) {c : Context} (scheduler : Scheduler)
    (h : c.limits = limits) : (p.begin c scheduler).HasLimits limits := by
  unfold Program.begin
  dsimp only
  split
  · rename_i s d hStart
    obtain ⟨u, e, hEnter, hPure⟩ := Eval.bind_eq_ok.mp hStart
    cases hPure
    obtain ⟨frame, c₁, hFrame, hRest⟩ := Eval.bind_eq_ok.mp hEnter
    obtain ⟨u', c₂, hHoist, hOuter⟩ := Eval.bind_eq_ok.mp hRest
    cases hOuter
    -- what starting runs, making a frame and hoisting, leaves the limits alone
    have hFirst := ((Eval.opening_childFrame _).forward _ _ _ hFrame).limits_eq
    have hSecond := ((Eval.filling_hoist _).forward _ _ _ hHoist).limits_eq
    show c₂.limits = limits
    rw [hSecond, hFirst, ← h]
    split <;> rfl
  · trivial

/-- A run sets the limits that its options give. -/
theorem hasLimits_run (code : String) (c : Context) (options : Options) :
    (run code c options).HasLimits options.limits := by
  unfold run
  obtain ⟨d, hReadied, ⟨errors, hErrored⟩ | ⟨p, -, hBegun⟩⟩ :=
    runBy_cases Search.isExhausted code c options
  · rw [hErrored]
    trivial
  · rw [hBegun]
    exact hasLimits_begin p options.scheduler hReadied.limits_eq

/-- With a step budget, exactly those driver steps of a program end that do not come to a bare
loop; and from every moment of a run on, the machine counts a node or comes to its end, unless it
comes to a bare loop first. -/
theorem driver_step_ends_iff (code : String) (c : Context) (options : Options)
    (hBudget : options.limits.stepBudget.isSome = true) {st : Stage}
    (hStep : DriverStep Search.isExhausted (run code c options) st) :
    ((∃ o, st.Ends Search.isExhausted o) ↔ ¬ st.MeetsBareLoop) ∧
      ∀ r : Running, r.CountsOrEnds ↔ ¬ r.MeetsBareLoopFirst := by
  refine ⟨?_, fun r => r.counts_iff⟩
  have hLimits := hStep.hasLimits (hasLimits_run code c options)
  cases st with
  | ended o => exact ⟨fun _ h => h, fun _ => ⟨o, rfl⟩⟩
  | running r =>
    refine r.ends_iff (.inl ?_)
    rw [show r.context.limits = options.limits from hLimits]
    exact hBudget

/-- The first driver step of a program that evaluates one node. -/
theorem driver_step_ends_iff_of_true :
    ((∃ o, (run "true;" (.new 4) ⟨.nonDet, some 100, none⟩).Ends Search.isExhausted o) ↔
      ¬ (run "true;" (.new 4) ⟨.nonDet, some 100, none⟩).MeetsBareLoop) ∧
      ∀ r : Running, r.CountsOrEnds ↔ ¬ r.MeetsBareLoopFirst :=
  driver_step_ends_iff "true;" (.new 4) ⟨.nonDet, some 100, none⟩ rfl .first

/-- Whether the machine is at the test of a bare loop after a number of steps. -/
def spinsAfter (n : Nat) : Stage → Bool
  | .running r =>
    match r.machine.run Search.isExhausted n r.context with
    | .ok m _ => m.atBareTest
    | .error _ _ => false
  | .ended _ => false

/-- If the test is seen to hold after some steps, the machine has come to a bare loop. -/
theorem meetsBareLoop_of_spinsAfter {n : Nat} {st : Stage} (h : st.spinsAfter n = true) :
    st.MeetsBareLoop := by
  cases st with
  | ended o => cases h
  | running r =>
    unfold spinsAfter at h
    dsimp only at h
    split at h
    · rename_i m d hRun
      exact ⟨n, m, d, hRun, h⟩
    · cases h

/-- The program of the text `for (;;) {}`. -/
def bareLoop : Program :=
  let loop : Stmt := .forLoop none none none (.mk [] ⟨⟨1, 10⟩, ⟨1, 11⟩⟩) ⟨⟨1, 1⟩, ⟨1, 11⟩⟩
  ⟨.mk [loop] ⟨⟨1, 1⟩, ⟨1, 11⟩⟩, ⟨⟨1, 1⟩, ⟨1, 11⟩⟩⟩

/-- The text is read as this program. -/
theorem parse_bareLoop : (parse (programText "for (;;) {}")).program = some bareLoop := by
  rw [parse_of_toList (show (programText "for (;;) {}").text.toList =
    ['f', 'o', 'r', ' ', '(', ';', ';', ')', ' ', '{', '}'] from rfl)]
  rfl

/-- On whatever context it is begun with a budget of a hundred steps, the program does not end. -/
theorem not_ends_bareLoop {d : Context} (hLimits : d.limits = ⟨some 100, none⟩)
    (hInterrupted : d.interrupted = false) :
    ¬ ∃ o, (bareLoop.begin d .nonDet).Ends Search.isExhausted o := by
  have hKept := hasLimits_begin bareLoop .nonDet hLimits
  have hSpins : (bareLoop.begin d .nonDet).spinsAfter 3 = true := by
    -- what else there is in the context plays no role
    cases d
    cases hLimits
    cases hInterrupted
    rfl
  have hMeets := meetsBareLoop_of_spinsAfter hSpins
  revert hKept hMeets
  cases bareLoop.begin d .nonDet with
  | ended o => exact fun _ hMeets => hMeets.elim
  | running r =>
    intro hKept hMeets hEnds
    refine (r.ends_iff (.inl ?_)).mp hEnds hMeets
    rw [show r.context.limits = ⟨some 100, none⟩ from hKept]
    rfl

/-- On a new context the program `for (;;) {}` does not end on a budget of a hundred steps. -/
theorem bare_loop_never_ends :
    ¬ ∃ o, (run "for (;;) {}" (.new 4) ⟨.nonDet, some 100, none⟩).Ends Search.isExhausted o := by
  obtain ⟨d, hLoad, hReadied⟩ := (Context.new 4).exists_readied Search.isExhausted ⟨some 100, none⟩
  rw [run, runBy_eq_begin Search.isExhausted ⟨.nonDet, some 100, none⟩ hLoad parse_bareLoop]
  exact not_ends_bareLoop hReadied.limits_eq hReadied.interrupted

end Stage

end AmbScript
