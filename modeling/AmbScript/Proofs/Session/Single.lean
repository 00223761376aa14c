import AmbScript.Proofs.Machine.Budget
import AmbScript.Proofs.Machine.Sure
import AmbScript.Proofs.Session.Driver

/-!
# Programs without choices

A program that evaluates no call to `amb` has one value at most, and nothing piles up while it is
run. If it evaluates no call to `require` either and no fault ends it, it has exactly one: the run
is suspended with it, and is finished when it is resumed.

* `Stage.LeadsPlainly`, `Stage.LeadsStraight` — what comes next without `amb`, and without both.
* `Stage.Single`, `Stage.Straight` — what holds throughout such runs.
* `Stage.single_without_choices` — what that means for the searches and for the outcomes.

Without `amb` a search that has found a result has no other one, so it is dropped at once. This is
what keeps the piles from growing: a sequence of statements, a loop or a list of operands never has
more than one search that may be asked again. Without `require` a search is not without results
either.
-/

namespace AmbScript

open Eval

namespace Stage

-- ---------------------------------------------------------------------------
-- Runs without choices
-- ---------------------------------------------------------------------------

/-- With the next machine step a call to `amb` is evaluated. -/
def asksAmb : Stage → Bool
  | .running r => r.machine.asksAmb
  | .ended _ => false

/-- With the next machine step a call to `require` is evaluated. -/
def asksRequire : Stage → Bool
  | .running r => r.machine.asksRequire
  | .ended _ => false

/-- What comes next in a run that evaluates no call to `amb` just now. -/
structure LeadsPlainly (a b : Stage) : Prop where
  leads : Leads Search.isExhausted a b
  plain : a.asksAmb = false

/-- What comes next in a driver step that evaluates neither `amb` nor `require` just now. -/
structure LeadsStraight (a b : Stage) : Prop extends LeadsPlainly a b where
  unconditional : a.asksRequire = false
  underWay : ∃ r, a = .running r

/-- A program is run, be it read from a text or not. -/
inductive Begins (c : Context) (options : Options) : Stage → Prop
  | run (code : String) : Begins c options (run code c options)
  | runProgram (p : Program) : Begins c options (runProgram p c options)

-- ---------------------------------------------------------------------------
-- One result at most
-- ---------------------------------------------------------------------------

/-- All searches that have found a result have no more, and the run was not given up. -/
def Single : Stage → Prop
  | .running r => r.machine.Single ∧ r.context.aborted = false
  | .ended (.suspended s) => s.rest.isExhausted = true ∧ s.context.aborted = false
  | .ended _ => True

/-- A program that is begun has found nothing yet. -/
theorem single_begin (p : Program) {c : Context} (h : c.aborted = false) (scheduler : Scheduler) :
    (p.begin c scheduler).Single := by
  have hHeeded : (p.heeded c).aborted = false := by
    rw [p.heeded_eq]
    exact h
  have hAborted := (sameSettings_start p (p.heeded c)).aborted.trans hHeeded
  rw [p.begin_eq]
  cases hStart : p.start (p.heeded c) with
  | error t d => trivial
  | ok s d =>
    obtain ⟨u, d', -, hSearch⟩ := bind_eq_ok.mp hStart
    cases hSearch
    rw [after_ok hStart] at hAborted
    exact ⟨Machine.single_pull (.map .program (.sequence _)) trivial, hAborted⟩

/-- Where a run begins, nothing was found yet. -/
theorem Begins.single {c : Context} {options : Options} {first : Stage}
    (h : Begins c options first) : first.Single := by
  cases h with
  | run code =>
    obtain ⟨d, hReadied, ⟨errors, hRun⟩ | ⟨p, -, hRun⟩⟩ :=
      runBy_cases Search.isExhausted code c options
    · rw [AmbScript.run, hRun]
      trivial
    · have hAborted : d.aborted = false := hReadied.aborted
      rw [AmbScript.run, hRun]
      exact single_begin p (c := { d with source := ⟨programName, code⟩ }) hAborted _
  | runProgram p =>
    obtain ⟨d, hReadied, hRun⟩ := runProgramBy_eq Search.isExhausted p c options
    rw [AmbScript.runProgram, hRun]
    exact single_begin p hReadied.aborted _

/-- What a machine step ends in. -/
theorem single_stage {scheduler : Scheduler} {m : Machine} {d : Context} (h : m.Single)
    (hAborted : d.aborted = false) : (Running.stage scheduler (.ok m d)).Single := by
  rw [stage_ok]
  cases hFinished : m.finished? with
  | none => exact ⟨h, hAborted⟩
  | some x =>
    obtain ⟨_ | v, rest⟩ := x
    · trivial
    · cases scheduler with
      | preemptive => trivial
      | nonDet =>
        unfold Machine.finished? at hFinished
        split at hFinished
        · cases hFinished
          exact ⟨h.1, hAborted⟩
        · cases hFinished
        · cases hFinished

/-- What comes next in a run without choices has one result at most, too. -/
theorem Single.leads {a b : Stage} (h : a.Single) (hLeads : LeadsPlainly a b) : b.Single := by
  obtain ⟨hLeads, hPlain⟩ := hLeads
  cases hLeads with
  | step r =>
    obtain ⟨hMachine, hAborted⟩ : r.machine.Single ∧ r.context.aborted = false := h
    have hSame := r.machine.sameSettings_step Search.isExhausted r.context
    unfold Running.stepBy
    cases hStep : r.machine.step Search.isExhausted r.context with
    | error t d => trivial
    | ok m d =>
      rw [after_ok hStep] at hSame
      exact single_stage (Machine.single_step hMachine hPlain _ _ _ hStep)
        (hSame.aborted.trans hAborted)
  | resume s =>
    obtain ⟨hExhausted, hAborted⟩ : s.rest.isExhausted = true ∧ s.context.aborted = false := h
    -- the search that is left is exhausted, so no more than one is ever under way
    rw [resume_of_not_aborted hAborted]
    exact ⟨⟨.inr hExhausted, trivial⟩, hAborted⟩
  | signal r => exact h
  | expire r => exact h
  | takeOutput r => exact h

theorem Single.run {a b : Stage} (h : a.Single) (hRun : Relation.ReflTransGen LeadsPlainly a b) :
    b.Single := by
  induction hRun with
  | refl => exact h
  | tail _ hLeads ih => exact ih.leads hLeads

/-- A run whose search is exhausted is finished when it is resumed, and nothing else happens. -/
theorem ends_resume_of_single {s : Suspension} (h : (Stage.ended (.suspended s)).Single) :
    s.resume.Ends Search.isExhausted (.finished .undefined s.context.beginStep) := by
  obtain ⟨hExhausted, hAborted⟩ : s.rest.isExhausted = true ∧ s.context.aborted = false := h
  rw [resume_of_not_aborted hAborted]
  obtain ⟨rest, ⟨n, hRun⟩, -⟩ := @Machine.drains_of_spent Search.isExhausted _ _
    (s.rest.spent_of_isExhausted hExhausted) .nil s.context.beginStep
  obtain ⟨j, hAnswers⟩ := Machine.answers_of_run hRun (.finished rfl)
  exact ends_running_iff.mpr ⟨j, _, hAnswers, rfl⟩

-- ---------------------------------------------------------------------------
-- One result at least
-- ---------------------------------------------------------------------------

/-- Each search so far was asked once only, and has come back with a result if it has come back; the
driver step ends with a value, unless a fault ends it. -/
def Straight (scheduler : Scheduler) : Stage → Prop
  | .running r => r.machine.Sure ∧ r.scheduler = scheduler
  | .ended o => (∃ ds c, o = .errored ds c) ∨
      ∃ v rest c, o = scheduler.outcome (.ok (some v, rest) c)

/-- A program that is begun has not come to an end without a value. -/
theorem straight_begin (p : Program) (c : Context) (scheduler : Scheduler) :
    (p.begin c scheduler).Straight scheduler := by
  rw [p.begin_eq]
  cases hStart : p.start (p.heeded c) with
  | error t d => exact .inl ⟨_, _, rfl⟩
  | ok s d =>
    obtain ⟨u, d', -, hSearch⟩ := bind_eq_ok.mp hStart
    cases hSearch
    exact ⟨⟨⟨.map .program (.sequence _), (Search.live_sequence _).map _⟩, trivial⟩, rfl⟩

theorem Begins.straight {c : Context} {options : Options} {first : Stage}
    (h : Begins c options first) : first.Straight options.scheduler := by
  cases h with
  | run code =>
    obtain ⟨d, -, ⟨errors, hRun⟩ | ⟨p, -, hRun⟩⟩ := runBy_cases Search.isExhausted code c options
    · rw [AmbScript.run, hRun]
      exact .inl ⟨_, _, rfl⟩
    · rw [AmbScript.run, hRun]
      exact straight_begin p _ _
  | runProgram p =>
    obtain ⟨d, -, hRun⟩ := runProgramBy_eq Search.isExhausted p c options
    rw [AmbScript.runProgram, hRun]
    exact straight_begin p _ _

/-- Whatever comes next without `amb` and `require`. -/
theorem Straight.leads {scheduler : Scheduler} {a b : Stage} (h : a.Straight scheduler)
    (hLeads : LeadsStraight a b) : b.Straight scheduler := by
  obtain ⟨⟨hLeads, hPlain⟩, hUnconditional, hUnderWay⟩ := hLeads
  cases hLeads with
  | step r =>
    obtain ⟨hMachine, hScheduler⟩ : r.machine.Sure ∧ r.scheduler = scheduler := h
    unfold Running.stepBy
    cases hStep : r.machine.step Search.isExhausted r.context with
    | error t d => exact .inl ⟨_, _, rfl⟩
    | ok m d =>
      have hNext : m.Sure := Machine.sure_step hMachine hPlain hUnconditional _ _ _ hStep
      rw [stage_ok, hScheduler]
      cases hFinished : m.finished? with
      | none => exact ⟨hNext, rfl⟩
      | some x =>
        obtain ⟨_ | v, rest⟩ := x
        · -- the walk would have come back without a result
          unfold Machine.finished? at hFinished
          split at hFinished
          · cases hFinished
          · exact hNext.1.elim
          · cases hFinished
        · exact .inr ⟨v, rest, d, rfl⟩
  -- the first driver step is at its end where a run is suspended
  | resume s =>
    obtain ⟨r, hEq⟩ := hUnderWay
    cases hEq
  | signal r => exact h
  | expire r => exact h
  | takeOutput r => exact h

theorem Straight.run {scheduler : Scheduler} {a b : Stage} (h : a.Straight scheduler)
    (hRun : Relation.ReflTransGen LeadsStraight a b) : b.Straight scheduler := by
  induction hRun with
  | refl => exact h
  | tail _ hLeads ih => exact ih.leads hLeads

-- ---------------------------------------------------------------------------
-- Searches and outcomes
-- ---------------------------------------------------------------------------

/-- Nothing has more than one result. -/
structure SingleValued (st : Stage) : Prop where
  /-- A search that has found a result is exhausted then: asked again, whatever has happened in the
  meantime, it comes back without a result, and nothing has changed. -/
  found : ∀ (r : Running) (k : Kind) (item : k.Item) (rest : Search k) (stack : Stack k),
    st = .running r → r.machine = .found item rest stack →
      rest.isExhausted = true ∧ ∀ (waiting : Stack k) (c : Context),
        Machine.Drained Search.isExhausted waiting (.pull rest waiting) c c
  /-- No two statements of one sequence, and no two parts of one loop, are under way at once. -/
  pile : ∀ r, st = .running r → r.machine.pile ≤ 1
  /-- A suspended run is finished when it is resumed. -/
  suspended : ∀ s, st = .ended (.suspended s) → s.rest.isExhausted = true ∧
    s.resume.Ends Search.isExhausted (.finished .undefined s.context.beginStep)

/-- Nothing comes back without a result. -/
structure Certain (scheduler : Scheduler) (st : Stage) : Prop where
  /-- A search that is asked has not been asked before. -/
  asked : ∀ (r : Running) (k : Kind) (s : Search k) (stack : Stack k),
    st = .running r → r.machine = .pull s stack → s.Fresh
  /-- It does not come back without a result. -/
  answered : ∀ (r : Running) (k : Kind) (rest : Search k) (stack : Stack k),
    st = .running r → r.machine ≠ .drained rest stack
  /-- A run that no fault ends is suspended with its only value; it does not even wait to be resumed
  if it was to stop at the first one. -/
  ended : ∀ o, st = .ended o → (∃ ds c, o = .errored ds c) ∨
    match scheduler with
    | .nonDet => ∃ s, o = .suspended s ∧
        s.resume.Ends Search.isExhausted (.finished .undefined s.context.beginStep)
    | .preemptive => ∃ v c, o = .finished v c

/-- What this means for the searches. -/
theorem Single.singleValued {st : Stage} (h : st.Single) : st.SingleValued where
  found r k item rest stack hRunning hFound := by
    subst hRunning
    obtain ⟨⟨hWalk, -⟩, -⟩ : r.machine.Single ∧ r.context.aborted = false := h
    rw [hFound] at hWalk
    exact ⟨hWalk, fun waiting c =>
      Machine.drains_of_spent (rest.spent_of_isExhausted hWalk) waiting c⟩
  pile r hRunning := by
    subst hRunning
    exact Machine.Single.pile_le h.1
  suspended s hSuspended := by
    subst hSuspended
    exact ⟨h.1, ends_resume_of_single h⟩

/-- What it means for the outcomes. -/
theorem Straight.certain {scheduler : Scheduler} {st : Stage} (h : st.Straight scheduler)
    (hSingle : st.Single) : st.Certain scheduler where
  asked r k s stack hRunning hPull := by
    subst hRunning
    obtain ⟨⟨hWalk, -⟩, -⟩ : r.machine.Sure ∧ r.scheduler = scheduler := h
    rw [hPull] at hWalk
    exact hWalk.1
  answered r k rest stack hRunning hDrained := by
    subst hRunning
    obtain ⟨⟨hWalk, -⟩, -⟩ : r.machine.Sure ∧ r.scheduler = scheduler := h
    rw [hDrained] at hWalk
    exact hWalk
  ended o hEnded := by
    subst hEnded
    have hEnd : (∃ ds c, o = .errored ds c) ∨
        ∃ v rest c, o = scheduler.outcome (.ok (some v, rest) c) := h
    rcases hEnd with hFault | ⟨v, rest, c, rfl⟩
    · exact .inl hFault
    · refine .inr ?_
      cases scheduler with
      | nonDet => exact ⟨⟨v, c, rest, .nonDet⟩, rfl, ends_resume_of_single hSingle⟩
      -- the run is over with its first value
      | preemptive => exact ⟨v, c, rfl⟩

/-- Up to any moment of a run that evaluates no call to `amb` until then, nothing has more than one
result. In a driver step that begins the run and evaluates no call to `require` either, nothing
comes back without one. -/
theorem single_without_choices {c : Context} {options : Options} {first : Stage}
    (hFirst : Begins c options first) :
    (∀ st, Relation.ReflTransGen LeadsPlainly first st → st.SingleValued) ∧
      ∀ st, Relation.ReflTransGen LeadsStraight first st → st.Certain options.scheduler := by
  refine ⟨fun st hRun => (hFirst.single.run hRun).singleValued, fun st hRun => ?_⟩
  have hPlain : Relation.ReflTransGen LeadsPlainly first st :=
    Relation.ReflTransGen.mono (fun _ _ h => h.toLeadsPlainly) _ _ hRun
  exact (hFirst.straight.run hRun).certain (hFirst.single.run hPlain)

/-- The suspension that a driver step comes to in up to `n` machine steps, none of which evaluates
`amb` or `require`. -/
def straightSuspension? : Nat → Stage → Option Suspension
  | _, .ended (.suspended s) => some s
  | n + 1, .running r =>
    if r.machine.asksAmb || r.machine.asksRequire then none
    else straightSuspension? n (r.stepBy Search.isExhausted)
  | _, _ => none

/-- A run that was computed is such a run. -/
theorem leadsStraight_of_straightSuspension? {n : Nat} {st : Stage} {s : Suspension}
    (h : straightSuspension? n st = some s) :
    Relation.ReflTransGen LeadsStraight st (.ended (.suspended s)) := by
  induction n generalizing st with
  | zero =>
    unfold straightSuspension? at h
    split at h
    · cases h
      exact .refl
    · rename_i hZero
      cases hZero
    · cases h
  | succ n ih =>
    unfold straightSuspension? at h
    split at h
    · cases h
      exact .refl
    · rename_i n' r hSucc
      cases hSucc
      split at h
      · cases h
      -- the function goes on only after a step that is plain and unconditional
      · rename_i hNeither
        rw [Bool.or_eq_true, not_or, Bool.not_eq_true, Bool.not_eq_true] at hNeither
        exact .head ⟨⟨.step r, hNeither.1⟩, hNeither.2, r, rfl⟩ (ih h)
    · cases h

/-- A program whose loop is run once. -/
def shortLoop : String := "let b = true; while (b) { b = false; }"

set_option maxRecDepth 100000 in
/-- With the library that there is, its run on a new context comes to a value. -/
theorem straightSuspension?_shortLoop :
    (Prelude.parsed.program.any fun library =>
      (Context.newWith? 4 .unlimited library).any fun c =>
        (parse (programText shortLoop)).program.any fun p =>
          (straightSuspension? 100
            (p.begin { c with source := programText shortLoop } .nonDet)).isSome) = true := by
  rw [Prelude.parsed, parse_of_toList Prelude.toList_text]
  simp only [Prelude.lines, List.map_cons, List.map_nil]
  repeat rw [String.toList_ofList]
  decide +kernel

/-- On a new context the program gives one value, and the run is finished then. -/
theorem shortLoop_single : ∃ s,
    Relation.ReflTransGen LeadsStraight (run shortLoop (.new 4) .default) (.ended (.suspended s)) ∧
      s.rest.isExhausted = true ∧
      s.resume.Ends Search.isExhausted (.finished .undefined s.context.beginStep) := by
  have hBegins : Begins (.new 4) .default (run shortLoop (.new 4) .default) := .run _
  obtain ⟨hPlainly, hStraight⟩ := single_without_choices hBegins
  obtain ⟨s, hRun⟩ : ∃ s, Relation.ReflTransGen LeadsStraight (run shortLoop (.new 4) .default)
      (.ended (.suspended s)) := by
    -- the suspension is computed from the context after loading, which is put together by hand as
    -- loading itself is too long to evaluate
    obtain ⟨library, hLibrary, hComputed⟩ :=
      (Option.any_eq_true _ _).mp straightSuspension?_shortLoop
    obtain ⟨c, hContext, hComputed⟩ := (Option.any_eq_true _ _).mp hComputed
    obtain ⟨p, hParsed, hSome⟩ := (Option.any_eq_true _ _).mp hComputed
    obtain ⟨d, hLoad, hReadied⟩ := (Context.new 4).exists_readied Search.isExhausted .unlimited
    obtain ⟨library', hLibrary', hContext'⟩ := hReadied.newWith?_eq
    cases hLibrary.symm.trans hLibrary'
    cases hContext.symm.trans hContext'
    obtain ⟨s, hs⟩ := Option.isSome_iff_exists.mp hSome
    rw [run, runBy_eq_begin Search.isExhausted .default hLoad hParsed]
    exact ⟨s, leadsStraight_of_straightSuspension? hs⟩
  obtain hFault | ⟨s', hSuspended, hEnds⟩ := (hStraight _ hRun).ended _ rfl
  · obtain ⟨ds, c, hEq⟩ := hFault
    cases hEq
  · cases hSuspended
    have hPlain := Relation.ReflTransGen.mono (fun _ _ h => h.toLeadsPlainly) _ _ hRun
    exact ⟨s, hRun, ((hPlainly _ hPlain).suspended s rfl).1, hEnds⟩

end Stage

end AmbScript
