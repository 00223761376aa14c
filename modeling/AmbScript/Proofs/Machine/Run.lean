import AmbScript.Session.Basic
import AmbScript.Proofs.Machine.Effect
import Mathlib.Logic.Function.Iterate
import Mathlib.Logic.Relation

/-!
# Steps and runs

What one machine step does to the context, and how steps make up driver steps and whole runs.

* `Machine.proceeds_step` — a step goes on from the context as it is, or as it was at the moment
  that the step goes back to.
* `Stage.Leads` — what can come next in a run: a machine step, the next driver step, or a sign
  from whoever runs it.
* `Machine.Answers` — how a walk ends, and after how many steps.
* `Stage.Ends` — the outcome of a driver step; `Stage.ends_running_iff` says that it is told by
  how the walk ends.
* `Stage.Yields` — the outcome after a number of driver steps.

A walk is described twice. `Answers` is an induction over its steps, for proofs; `ends_running_iff`
and `drain_eq_some_iff` say that the program, which runs the machine until it stops, comes to the
same, also where it does not stop.
-/

namespace AmbScript

variable {α β : Type} {retire : {k : Kind} → Search k → Bool}

-- ---------------------------------------------------------------------------
-- Computations that enter and leave frames
-- ---------------------------------------------------------------------------

/-- Every context that `x` ends in with a result is a later one. -/
def Eval.Onward (x : Eval α) : Prop :=
  ∀ (c : Context) (a : α) (d : Context), x c = .ok a d → c.Proceeds d

namespace Eval

/-- What leaves the frames in force alone only goes forwards. -/
theorem Forward.onward {x : Eval α} (h : Forward x) : Onward x :=
  fun c a d hEq => (h c a d hEq).toProceeds

theorem onward_pure (a : α) : Onward (pure a) := (forward_pure a).onward

/-- One computation behind the other. -/
theorem onward_bind {x : Eval α} {f : α → Eval β} (hx : Onward x) (hf : ∀ a, Onward (f a)) :
    Onward (x >>= f) := by
  intro c b d h
  obtain ⟨a, e, hFirst, hSecond⟩ := bind_eq_ok.mp h
  exact (hx _ _ _ hFirst).trans (hf a _ _ _ hSecond)

/-- A frame is entered. -/
theorem onward_enter (frame : FrameId) : Onward (enter frame) := by
  intro c b d h
  cases h
  exact .enter c frame

/-- A frame is left. -/
theorem onward_leave : Onward leave := by
  intro c b d h
  cases h
  exact .leave c

/-- A moment is noted. -/
theorem onward_checkpoint : Onward checkpoint := by
  intro c b d h
  cases h
  exact .checkpoint c

end Eval

open Eval

/-- The moment that is gone back to when the part that is waited for has no more results. -/
def Pending.restores? {i o : Kind} : Pending i o → Option Checkpoint
  | .choosing start _ => some start
  | _ => none

namespace Machine

-- ---------------------------------------------------------------------------
-- Parts of a step
-- ---------------------------------------------------------------------------

/-- The next alternative is started. -/
theorem forward_nextAlternative (start : Checkpoint) (alternatives : List Expr)
    (stack : Stack .value) : Forward (nextAlternative start alternatives stack) := by
  cases alternatives with
  | nil => exact forward_pure _
  | cons e rest => exact forward_bind e.forward_start fun _ => forward_pure _

/-- The first operand is started. -/
theorem forward_startProduct (exprs : List Expr) (stack : Stack .tuple) :
    Forward (startProduct exprs stack) := by
  cases exprs with
  | nil => exact forward_pure _
  | cons e rest => exact forward_bind e.forward_start fun _ => forward_pure _

/-- The next operand is started, or the product has a result. -/
theorem forward_fillOperand (operand : Operand) (below : List Operand) (values : List Value)
    (v : Value) (stack : Stack .tuple) :
    Forward (fillOperand operand below values v stack) := by
  unfold fillOperand
  split
  · exact forward_pure _
  · exact forward_bind (Expr.forward_start _) fun _ => forward_pure _

/-- A statement is started. -/
theorem forward_startStatement (index : Nat) (stmt : Stmt) (rest : List Stmt)
    (below : List Reached) (commit : Option Nat) (stack : Stack .completion) :
    Forward (startStatement index stmt rest below commit stack) := by
  refine forward_bind stmt.forward_start fun _ => ?_
  exact forward_pure _

/-- The first statement is started. -/
theorem forward_startSequence (statements : List Stmt) (stack : Stack .completion) :
    Forward (startSequence statements stack) := by
  cases statements with
  | nil => exact forward_pure _
  | cons stmt rest => exact forward_startStatement _ _ _ _ _ _

/-- The next statement is started, or the sequence has a result. -/
theorem forward_completeStatement (index : Nat) (rest : List Stmt) (completion : Completion)
    (reached : List Reached) (commit : Option Nat) (stack : Stack .completion) :
    Forward (completeStatement index rest completion reached commit stack) := by
  unfold completeStatement
  split
  · exact forward_startStatement _ _ _ _ _ _
  · exact forward_pure _

/-- The test of a loop is started. -/
theorem forward_startTest (header : Loop) : Forward (startTest header) := by
  cases header with
  | whileLoop test body => exact forward_bind test.forward_start fun _ => forward_pure _
  | forLoop init test update body frame =>
    cases test with
    | none => exact forward_pure _
    | some test => exact forward_bind test.forward_start fun _ => forward_pure _

/-- The part that a loop begins with is started. -/
theorem forward_startLoop (header : Loop) : Forward (startLoop header) := by
  unfold startLoop
  split
  · exact forward_bind (Stmt.forward_start _) fun _ => forward_pure _
  · exact forward_startTest _

/-- The part after the body is started. -/
theorem forward_startUpdate (header : Loop) : Forward (startUpdate header) := by
  unfold startUpdate
  split
  · exact forward_bind (Expr.forward_start _) fun _ => forward_pure _
  · exact forward_startTest _

/-- The body is started in a frame of its own, which stays entered. -/
theorem onward_startBody (header : Loop) : Onward (startBody header) := by
  cases header with
  | whileLoop test body => exact (forward_bind body.forward_start fun _ => forward_pure _).onward
  | forLoop init test update body frame =>
    exact onward_bind (opening_openRound _ _).forward.onward fun _ => onward_bind (onward_enter _) fun _ =>
      onward_bind body.forward_start.onward fun _ => onward_bind onward_leave fun _ => onward_pure _

/-- The frame of a loop is entered. -/
theorem onward_enterLoop (header : Loop) : Onward (enterLoop header) := by
  cases header with
  | whileLoop test body => exact onward_pure _
  | forLoop init test update body frame => exact onward_enter _

theorem onward_leaveLoop (header : Loop) : Onward (leaveLoop header) := by
  cases header with
  | whileLoop test body => exact onward_pure _
  | forLoop init test update body frame => exact onward_leave

/-- The last part of a loop is asked, or the loop is left. -/
theorem onward_pullPhase (header : Loop) (phases : List Phase) (stack : Stack .completion) :
    Onward (pullPhase header phases stack) := by
  unfold pullPhase
  split
  · exact onward_bind (onward_leaveLoop _) fun _ => onward_pure _
  all_goals exact onward_pure _

/-- The loop is left with a result. -/
theorem onward_completeLoop (header : Loop) (phases : List Phase) (completion : Completion)
    (stack : Stack .completion) : Onward (completeLoop header phases completion stack) := by
  refine onward_bind (onward_leaveLoop _) fun _ => ?_
  exact onward_pure _

/-- The body is started, or the loop is left. -/
theorem onward_afterTest (header : Loop) (phases : List Phase) (test : Value)
    (stack : Stack .completion) : Onward (afterTest header phases test stack) := by
  unfold afterTest
  split
  · exact onward_bind (onward_startBody _) fun _ => onward_pullPhase _ _ _
  · exact onward_completeLoop _ _ _ _
  · exact (forward_nonBoolean _ _).onward

/-- The next round is begun, or the loop is left. -/
theorem onward_afterBody (header : Loop) (phases : List Phase) (completion : Completion)
    (stack : Stack .completion) : Onward (afterBody header phases completion stack) := by
  unfold afterBody
  split
  · exact onward_bind (forward_startUpdate _).onward fun _ => onward_pullPhase _ _ _
  · exact onward_bind (forward_startUpdate _).onward fun _ => onward_pullPhase _ _ _
  · exact onward_completeLoop _ _ _ _
  · exact onward_completeLoop _ _ _ _

-- ---------------------------------------------------------------------------
-- The step
-- ---------------------------------------------------------------------------

/-- A search is asked for a result. -/
theorem onward_stepPull {k : Kind} (s : Search k) (stack : Stack k) :
    Onward (stepPull s stack) := by
  cases s with
  | once item =>
    cases item with
    | none => exact onward_pure _
    | some item => exact onward_pure _
  | map f inner => exact onward_pure _
  | bind f outer => exact onward_pure _
  | binding f outer inner => exact onward_pure _
  | within frame inner => exact onward_bind (onward_enter _) fun _ => onward_pure _
  | choice alternatives =>
    exact onward_bind onward_checkpoint fun _ => (forward_nextAlternative _ _ _).onward
  | choosing start current alternatives =>
    cases current with
    | none => exact (forward_nextAlternative _ _ _).onward
    | some s => exact onward_pure _
  | product exprs => exact (forward_startProduct _ _).onward
  | producing operands values => exact onward_pure _
  | sequence statements => exact (forward_startSequence _ _).onward
  | sequenced reached commit => exact onward_pure _
  | loop header =>
    exact onward_bind (onward_enterLoop _) fun _ => onward_bind (forward_startLoop _).onward
      fun _ => onward_pullPhase _ _ _
  | looping header phases =>
    exact onward_bind (onward_enterLoop _) fun _ => onward_pullPhase _ _ _

/-- Whatever waits for a result goes on with it. -/
theorem onward_stepFound {i o : Kind} (item : i.Item) (rest : Search i) (p : Pending i o)
    (stack : Stack o) : Onward (stepFound retire item rest p stack) := by
  cases p with
  | map f => exact onward_bind (f.forward_apply _).onward fun _ => onward_pure _
  | outer f => exact onward_bind (f.forward_apply _).onward fun _ => onward_pure _
  | inner f outer => exact onward_pure _
  | within frame => exact onward_bind onward_leave fun _ => onward_pure _
  | choosing start alternatives => exact onward_pure _
  | operand exprs below values => exact (forward_fillOperand _ _ _ _ _).onward
  | statement index stmts below commit => exact (forward_completeStatement _ _ _ _ _ _).onward
  | init header below =>
    exact onward_bind (forward_startTest _).onward fun _ => onward_pullPhase _ _ _
  | test header below => exact onward_afterTest _ _ _ _
  | body header below => exact onward_afterBody _ _ _ _
  | update header below =>
    exact onward_bind (forward_startTest _).onward fun _ => onward_pullPhase _ _ _

/-- The moment that the next step goes back to: an alternative has no more results. -/
def restores? : Machine → Option Checkpoint
  | ⟨_, .drained _, .push p _⟩ => p.restores?
  | _ => none

/-- The context that the next step goes on from. -/
def origin (m : Machine) (c : Context) : Context :=
  match m.restores? with
  | some start => c.restore start
  | none => c

/-- A search has no more results. Only a choice goes back, and then it goes forwards from there. -/
theorem proceeds_stepDrained {i o : Kind} {rest : Search i} {p : Pending i o} {stack : Stack o}
    {c d : Context} {m : Machine} (h : stepDrained rest p stack c = .ok m d) :
    (origin ⟨i, .drained rest, .push p stack⟩ c).Proceeds d := by
  cases p with
  | map f => exact onward_pure _ _ _ _ h
  | outer f => exact onward_pure _ _ _ _ h
  | inner f outer => exact onward_pure _ _ _ _ h
  | within frame => exact onward_bind onward_leave (fun _ => onward_pure _) _ _ _ h
  | choosing start alternatives =>
    -- going back is not part of proceeding: the origin is the context put back
    obtain ⟨u, e, hRestore, hNext⟩ := bind_eq_ok.mp h
    cases hRestore
    exact (forward_nextAlternative _ _ _).onward _ _ _ hNext
  | operand exprs below values => exact onward_pure _ _ _ _ h
  | statement index stmts below commit => exact onward_pure _ _ _ _ h
  | init header below => exact onward_pullPhase _ _ _ _ _ _ h
  | test header below => exact onward_pullPhase _ _ _ _ _ _ h
  | body header below => exact onward_pullPhase _ _ _ _ _ _ h
  | update header below => exact onward_pullPhase _ _ _ _ _ _ h

/-- Every step goes forwards from the context that it goes on from. -/
theorem proceeds_step {m m' : Machine} {c d : Context} (h : m.step retire c = .ok m' d) :
    (m.origin c).Proceeds d := by
  obtain ⟨k, walk, stack⟩ := m
  cases walk with
  | pull s => exact onward_stepPull _ _ _ _ _ h
  | found item rest =>
    cases stack with
    | nil => exact onward_pure _ _ _ _ h
    | push p stack => exact onward_stepFound _ _ _ _ _ _ _ h
  | drained rest =>
    cases stack with
    | nil => exact onward_pure _ _ _ _ h
    | push p stack => exact proceeds_stepDrained h

/-- Nothing is counted when going back. -/
theorem steps_origin (m : Machine) (c : Context) : (m.origin c).steps = c.steps := by
  unfold origin
  split <;> rfl

end Machine

-- ---------------------------------------------------------------------------
-- Walks to their end
-- ---------------------------------------------------------------------------

/-- How a walk ends: with a value or without one, and with what is left of the search. -/
abbrev Answer := EStateM.Result Fault Context (Option Value × Search .value)

namespace Machine

/-- A walk that is over stays where it is. -/
theorem run_of_finished {m : Machine} {x : Option Value × Search .value}
    (h : m.finished? = some x) (n : Nat) (c : Context) : m.run retire n c = .ok m c := by
  cases n with
  | zero => rfl
  | succ n =>
    unfold run
    rw [h]
    rfl

/-- Otherwise the first of the steps is taken. -/
theorem run_succ {m : Machine} (h : m.finished? = none) (n : Nat) (c : Context) :
    m.run retire (n + 1) c =
      match m.step retire c with
      | .ok m' c' => m'.run retire n c'
      | .error t c' => .error t c' := by
  rw [run, h]
  show EStateM.bind _ _ c = _
  unfold EStateM.bind
  cases m.step retire c <;> rfl

/-- Steps after steps. -/
theorem run_add {j n : Nat} {m m' : Machine} {c d : Context} (h : m.run retire j c = .ok m' d) :
    m.run retire (j + n) c = m'.run retire n d := by
  induction j generalizing m c with
  | zero =>
    cases h
    rw [Nat.zero_add]
  | succ j ih =>
    cases hFinished : m.finished? with
    -- a walk that is over stays as it is, for as many steps as there are
    | some x =>
      rw [run_of_finished hFinished] at h
      cases h
      rw [run_of_finished hFinished, run_of_finished hFinished]
    | none =>
      rw [run_succ hFinished] at h
      rw [Nat.succ_add, run_succ hFinished]
      cases hStep : m.step retire c with
      | error t e =>
        rw [hStep] at h
        cases h
      | ok m₁ e =>
        rw [hStep] at h
        exact ih h

/-- Some number of steps takes `m` to `m'`. -/
def Reaches (retire : {k : Kind} → Search k → Bool) (m : Machine) (c : Context) (m' : Machine)
    (d : Context) : Prop :=
  ∃ n, m.run retire n c = .ok m' d

theorem Reaches.refl (m : Machine) (c : Context) : m.Reaches retire c m c := ⟨0, rfl⟩

/-- Steps after steps, however many. -/
theorem Reaches.trans {m₁ m₂ m₃ : Machine} {c₁ c₂ c₃ : Context} (h₁ : m₁.Reaches retire c₁ m₂ c₂)
    (h₂ : m₂.Reaches retire c₂ m₃ c₃) : m₁.Reaches retire c₁ m₃ c₃ := by
  obtain ⟨j, hj⟩ := h₁
  obtain ⟨n, hn⟩ := h₂
  exact ⟨j + n, (run_add hj).trans hn⟩

theorem reaches_of_step {m m' : Machine} {c d : Context} (hUnfinished : m.finished? = none)
    (h : m.step retire c = .ok m' d) : m.Reaches retire c m' d :=
  ⟨1, by rw [run_succ hUnfinished, h]; rfl⟩

/-- The walk of `m` ends after `n` steps. -/
inductive Answers (retire : {k : Kind} → Search k → Bool) :
    Machine → Nat → Context → Answer → Prop
  | finished {m : Machine} {c : Context} {x : Option Value × Search .value}
      (h : m.finished? = some x) : Answers @retire m 0 c (.ok x c)
  | fault {m : Machine} {c d : Context} {t : Fault} (hUnfinished : m.finished? = none)
      (h : m.step @retire c = .error t d) : Answers @retire m 0 c (.error t d)
  | step {n : Nat} {m m' : Machine} {c d : Context} {x : Answer}
      (hUnfinished : m.finished? = none) (h : m.step @retire c = .ok m' d)
      (hRest : Answers @retire m' n d x) : Answers @retire m (n + 1) c x

/-- Running a machine takes it closer to the end of its walk. -/
theorem Answers.run {n : Nat} {m m' : Machine} {c d : Context} {x : Answer}
    (h : Answers retire m n c x) {j : Nat} (hRun : m.run retire j c = .ok m' d) :
    ∃ n', Answers retire m' n' d x ∧ n' ≤ n ∧ (m.finished? = none → 0 < j → n' < n) := by
  -- by induction on the answer, whose steps and the run's are the same until one of them ends
  induction h generalizing j with
  | @finished m c x hFinished =>
    rw [run_of_finished hFinished] at hRun
    cases hRun
    refine ⟨0, .finished hFinished, Nat.le_refl _, ?_⟩
    intro hUnfinished
    rw [hFinished] at hUnfinished
    cases hUnfinished
  | @fault m c e t hUnfinished hStep =>
    cases j with
    | zero =>
      cases hRun
      exact ⟨0, .fault hUnfinished hStep, Nat.le_refl _, fun _ h => absurd h (Nat.lt_irrefl _)⟩
    | succ j =>
      rw [run_succ hUnfinished, hStep] at hRun
      cases hRun
  | @step n m₁ m₂ c e x hUnfinished hStep hRest ih =>
    cases j with
    | zero =>
      cases hRun
      exact ⟨n + 1, .step hUnfinished hStep hRest, Nat.le_refl _,
        fun _ h => absurd h (Nat.lt_irrefl _)⟩
    | succ j =>
      rw [run_succ hUnfinished, hStep] at hRun
      obtain ⟨n', hAnswers, hLe, -⟩ := ih hRun
      exact ⟨n', hAnswers, Nat.le_succ_of_le hLe, fun _ _ => Nat.lt_succ_of_le hLe⟩

/-- A walk that goes on from where some steps have led is a longer one from the start. -/
theorem answers_of_run {n j : Nat} {m m' : Machine} {c d : Context} {x : Answer}
    (hRun : m.run retire j c = .ok m' d) (h : Answers retire m' n d x) :
    ∃ n', Answers retire m n' c x := by
  -- each step of the run is put in front of the answer; a machine that has finished takes none
  induction j generalizing m c with
  | zero =>
    cases hRun
    exact ⟨n, h⟩
  | succ j ih =>
    cases hFinished : m.finished? with
    | some y =>
      rw [run_of_finished hFinished] at hRun
      cases hRun
      exact ⟨n, h⟩
    | none =>
      rw [run_succ hFinished] at hRun
      cases hStep : m.step retire c with
      | error t e =>
        rw [hStep] at hRun
        cases hRun
      | ok m₁ e =>
        rw [hStep] at hRun
        obtain ⟨n', hAnswers⟩ := ih hRun
        exact ⟨n' + 1, .step hFinished hStep hAnswers⟩

/-- A fault within some number of steps ends the walk. -/
theorem answers_of_run_error {j : Nat} {m : Machine} {c d : Context} {t : Fault}
    (hRun : m.run retire j c = .error t d) : ∃ n, Answers retire m n c (.error t d) := by
  induction j generalizing m c with
  | zero => cases hRun
  | succ j ih =>
    cases hFinished : m.finished? with
    | some y =>
      rw [run_of_finished hFinished] at hRun
      cases hRun
    | none =>
      rw [run_succ hFinished] at hRun
      cases hStep : m.step retire c with
      | error t' e =>
        rw [hStep] at hRun
        cases hRun
        exact ⟨0, .fault hFinished hStep⟩
      | ok m₁ e =>
        rw [hStep] at hRun
        obtain ⟨n', hAnswers⟩ := ih hRun
        exact ⟨n' + 1, .step hFinished hStep hAnswers⟩

/-- A walk has one end at most. -/
theorem Answers.unique {n n' : Nat} {m : Machine} {c : Context} {x x' : Answer}
    (h : Answers retire m n c x) (h' : Answers retire m n' c x') : x = x' := by
  induction h generalizing n' with
  | finished hFinished => cases h' <;> simp_all
  | fault hUnfinished hStep => cases h' <;> simp_all
  | step hUnfinished hStep _ ih =>
    cases h' with
    | finished hFinished => simp_all
    | fault _ hFault => simp_all
    | step _ hStep' hRest' =>
      rw [hStep] at hStep'
      cases hStep'
      exact ih hRest'

/-- All values of `m` have been asked for, and the last walk ended like this. -/
inductive Drains (retire : {k : Kind} → Search k → Bool) :
    Machine → Context → EStateM.Result Fault Context Unit → Prop
  | fault {n : Nat} {m : Machine} {c d : Context} {t : Fault}
      (h : m.Answers @retire n c (.error t d)) : Drains @retire m c (.error t d)
  | done {n : Nat} {m : Machine} {c d : Context} {rest : Search .value}
      (h : m.Answers @retire n c (.ok (none, rest) d)) : Drains @retire m c (.ok () d)
  | more {n : Nat} {m : Machine} {c d : Context} {v : Value} {rest : Search .value}
      {x : EStateM.Result Fault Context Unit} (h : m.Answers @retire n c (.ok (some v, rest) d))
      (hRest : Drains @retire (ofSearch rest) d x) : Drains @retire m c x

/-- Where asking for all values comes to something after a step, it does so before it. -/
theorem Drains.of_step {m m' : Machine} {c d : Context} {x : EStateM.Result Fault Context Unit}
    (h : Drains retire m' d x) (hUnfinished : m.finished? = none)
    (hStep : m.step retire c = .ok m' d) : Drains retire m c x := by
  cases h with
  | fault h => exact .fault (.step hUnfinished hStep h)
  | done h => exact .done (.step hUnfinished hStep h)
  | more h hRest => exact .more (.step hUnfinished hStep h) hRest

/-- What asking for all values comes to once the first walk has ended. -/
def drainAfter (retire : {k : Kind} → Search k → Bool) :
    Answer → Option (EStateM.Result Fault Context Unit)
  | .error t d => some (.error t d)
  | .ok (none, _) d => some (.ok () d)
  | .ok (some _, rest) d => (ofSearch rest).drain retire d

/-- What the program computes, told by how the first walk ends. -/
theorem drain_of_answers {n : Nat} {m : Machine} {c : Context} {x : Answer}
    (h : m.Answers retire n c x) : m.drain retire c = drainAfter retire x := by
  induction h with
  | @finished m c x hFinished =>
    rw [drain, hFinished]
    obtain ⟨_ | v, rest⟩ := x <;> rfl
  | fault hUnfinished hStep =>
    rw [drain, hUnfinished, hStep]
    rfl
  | step hUnfinished hStep _ ih =>
    rw [drain, hUnfinished, hStep]
    exact ih

/-- The program that asks for all values computes just what `Drains` describes. -/
theorem drain_eq_some_iff {m : Machine} {c : Context} {x : EStateM.Result Fault Context Unit} :
    m.drain retire c = some x ↔ m.Drains retire c x := by
  constructor
  -- the function is a least fixed point, so what it gives back was found after finitely many walks
  · refine drain.partial_correctness retire (fun m c x => m.Drains retire c x) ?_ m c x
    intro drain' hDrain m c x hBody
    cases hFinished : m.finished? with
    | some y =>
      rw [hFinished] at hBody
      obtain ⟨_ | v, rest⟩ := y
      · cases hBody
        exact .done (.finished hFinished)
      · exact .more (.finished hFinished) (hDrain _ _ _ hBody)
    | none =>
      rw [hFinished] at hBody
      cases hStep : m.step retire c with
      | error t d =>
        rw [hStep] at hBody
        cases hBody
        exact .fault (.fault hFinished hStep)
      | ok m' d =>
        rw [hStep] at hBody
        exact (hDrain _ _ _ hBody).of_step hFinished hStep
  · intro h
    induction h with
    | fault h => exact drain_of_answers h
    | done h => exact drain_of_answers h
    | more h _ ih => exact (drain_of_answers h).trans ih

end Machine

-- ---------------------------------------------------------------------------
-- Driver steps
-- ---------------------------------------------------------------------------

/-- The outcome of a driver step whose walk has ended. -/
def Scheduler.outcome (scheduler : Scheduler) : Answer → Outcome
  | .error t d => .errored (d.abort t).errors (d.abort t)
  | .ok (none, _) d => .finished .undefined d
  | .ok (some v, rest) d =>
    match scheduler with
    | .nonDet => .suspended ⟨v, d, rest, scheduler⟩
    | .preemptive => .finished v d

namespace Running

/-- One machine step. -/
def stepBy (retire : {k : Kind} → Search k → Bool) (r : Running) : Stage :=
  stage r.scheduler (r.machine.step retire r.context)

end Running

namespace Stage

/-- Where the steps of a driver step have led. -/
theorem stage_ok (scheduler : Scheduler) (m : Machine) (c : Context) :
    Running.stage scheduler (.ok m c) =
      match m.finished? with
      | none => .running ⟨m, c, scheduler⟩
      | some x => .ended (scheduler.outcome (.ok x c)) := by
  unfold Running.stage
  dsimp only
  cases m.finished? with
  | none => rfl
  | some x =>
    obtain ⟨_ | v, rest⟩ := x
    · rfl
    · cases scheduler <;> rfl

/-- One step more than the walk has is enough to see its end. -/
theorem stage_run_of_answers (scheduler : Scheduler) {n : Nat} {m : Machine} {c : Context}
    {x : Answer} (h : m.Answers retire n c x) :
    Running.stage scheduler (m.run retire (n + 1) c) = .ended (scheduler.outcome x) := by
  induction h with
  | finished hFinished => rw [Machine.run_of_finished hFinished, stage_ok, hFinished]
  | fault hUnfinished hStep =>
    rw [Machine.run_succ hUnfinished, hStep]
    rfl
  | step hUnfinished hStep _ ih =>
    rw [Machine.run_succ hUnfinished, hStep]
    exact ih

end Stage

namespace Stage

/-- What can come next in a run: a machine step, the next driver step after a value, or something
that whoever runs it does: a stop is asked for, the time is seen to have passed, or the lines that
were displayed so far are taken away. A program cannot tell when that last thing is done, so it may
be done at any time here, not between driver steps only. -/
inductive Leads (retire : {k : Kind} → Search k → Bool) : Stage → Stage → Prop
  | step (r : Running) : Leads @retire (.running r) (r.stepBy @retire)
  | resume (s : Suspension) : Leads @retire (.ended (.suspended s)) s.resume
  | signal (r : Running) :
      Leads @retire (.running r) (.running { r with context := r.context.signal })
  | expire (r : Running) : Leads @retire (.running r) (.running r.expire)
  | takeOutput (r : Running) :
      Leads @retire (.running r) (.running { r with context := r.context.takeOutput.2 })

/-- What comes next if nobody gives a sign, and all values are asked for. -/
def next (retire : {k : Kind} → Search k → Bool) : Stage → Stage
  | .running r => r.stepBy retire
  | .ended (.suspended s) => s.resume
  | .ended o => .ended o

/-- Taking one step leads on, or there is none to take. -/
theorem leads_next (st : Stage) : Relation.ReflGen (Leads retire) st (st.next retire) := by
  cases st with
  | running r => exact .single (.step r)
  | ended o =>
    cases o with
    | suspended s => exact .single (.resume s)
    | _ => exact .refl

theorem leads_iterate_next (n : Nat) (st : Stage) :
    Relation.ReflTransGen (Leads retire) st ((next retire)^[n] st) := by
  induction n generalizing st with
  | zero => exact .refl
  | succ n ih => exact (leads_next st).to_reflTransGen.trans (ih (st.next retire))

/-- The driver step ends with this outcome, once it is taken far enough. -/
def Ends (retire : {k : Kind} → Search k → Bool) : Stage → Outcome → Prop
  | .running r, o => ∃ n, r.advanceBy retire n = .ended o
  | .ended o', o => o' = o

/-- The outcome of the driver step after `n` others, each of which found a value. -/
inductive Yields (retire : {k : Kind} → Search k → Bool) : Stage → Nat → Outcome → Prop
  | first {st : Stage} {o : Outcome} (h : Ends @retire st o) : Yields @retire st 0 o
  | later {st : Stage} {s : Suspension} {n : Nat} {o : Outcome}
      (hFirst : Ends @retire st (.suspended s)) (hRest : Yields @retire s.resume n o) :
      Yields @retire st (n + 1) o

/-- The outcome of a driver step is told by how its walk ends. -/
theorem ends_running_iff {r : Running} {o : Outcome} :
    Ends retire (.running r) o ↔
      ∃ n x, r.machine.Answers retire n r.context x ∧ r.scheduler.outcome x = o := by
  constructor
  · rintro ⟨n, hn⟩
    -- the steps that were taken may be more than the walk has
    unfold Running.advanceBy at hn
    cases hRun : r.machine.run retire n r.context with
    | error t d =>
      rw [hRun] at hn
      cases hn
      obtain ⟨n', hAnswers⟩ := Machine.answers_of_run_error hRun
      exact ⟨n', _, hAnswers, rfl⟩
    | ok m d =>
      rw [hRun, stage_ok] at hn
      cases hFinished : m.finished? with
      | none =>
        rw [hFinished] at hn
        cases hn
      | some x =>
        rw [hFinished] at hn
        cases hn
        obtain ⟨n', hAnswers⟩ := Machine.answers_of_run hRun (.finished hFinished)
        exact ⟨n', _, hAnswers, rfl⟩
  · rintro ⟨n, x, hAnswers, rfl⟩
    exact ⟨n + 1, stage_run_of_answers r.scheduler hAnswers⟩

/-- A driver step has one outcome at most. -/
theorem Ends.unique {st : Stage} {o o' : Outcome} (h : Ends retire st o)
    (h' : Ends retire st o') : o = o' := by
  cases st with
  | running r =>
    obtain ⟨n, x, hAnswers, rfl⟩ := ends_running_iff.mp h
    obtain ⟨n', x', hAnswers', rfl⟩ := ends_running_iff.mp h'
    rw [hAnswers.unique hAnswers']
  | ended _ => exact h.symm.trans h'

/-- There is one outcome at most after so many others. -/
theorem Yields.unique {st : Stage} {n : Nat} {o o' : Outcome} (h : Yields retire st n o)
    (h' : Yields retire st n o') : o = o' := by
  induction h with
  | first hEnds =>
    cases h' with
    | first hEnds' => exact hEnds.unique hEnds'
  | later hFirst _ ih =>
    cases h' with
    | later hFirst' hRest' =>
      cases hFirst.unique hFirst'
      exact ih hRest'

end Stage

end AmbScript
