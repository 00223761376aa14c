import AmbScript.Proofs.Declaration.Starts

/-!
# Promises are kept by every step

If the names of a machine are as they should be, so they are after a step: what is started has
placeholders for its names, what has found something has used them up and has to go back, and a
choice that goes back to a moment that it has noted finds them as they were.

* `Eval.Promises` — an action comes to a machine whose names are as they should be.
* `Machine.promising_step` — so does a step.

Three kinds of step are told apart. A search that was just started is asked with all of its names
still placeholders; one that has found something before must be asked with nothing known of the
store, because it goes back first; and what has no more results hands over to what is below it,
which goes back as well.
-/

namespace AmbScript

variable {W : Checkpoint → List Promise → Prop} {outer : List FrameId} {f : FrameId}
  {ps before : List Promise} {P : Store → Prop} {retire : {k : Kind} → Search k → Bool}

open Eval Store

/-- From stores with the property `P`, the action comes to machines whose names are as they should
be. -/
def Eval.Promises (W : Checkpoint → List Promise → Prop) (outer : List FrameId)
    (P : Store → Prop) (x : Eval Machine) : Prop :=
  Leaves P (fun m s => m.Promising W outer s) x

/-- Nothing need be known of the store. -/
theorem Eval.Promises.any {x : Eval Machine} (h : Promises W outer (fun _ => True) x)
    {c d : Context} {m : Machine} (hEq : x c = .ok m d) : m.Promising W outer d.store :=
  h c m d trivial hEq

theorem Eval.Promises.after {x : Eval Unit} {y : Eval Machine}
    (h : Promises W outer (fun _ => True) y) : Promises W outer P (x >>= fun _ => y) :=
  leaves_bind (Q := fun _ _ => True) (fun _ _ _ _ _ => trivial) fun _ => h

-- ---------------------------------------------------------------------------
-- What is kept below
-- ---------------------------------------------------------------------------

theorem OperandsGoBack.cons {rest : List Expr} {s : Search .value} {below : List Operand}
    (h : s.GoesBack W f ps) (hBelow : OperandsGoBack W f ps below) :
    OperandsGoBack W f ps (.mk rest s :: below) := by
  intro rest' s' hs
  rcases List.mem_cons.mp hs with hSame | hs
  · cases hSame
    exact h
  · exact hBelow rest' s' hs

/-- One more statement, which may be dropped. -/
theorem ReachedGoBack.kept (dropped : Bool) {index : Nat} {rest : List Stmt}
    {s : Search .completion} {below : List Reached} (h : s.GoesBack W f (promisedBy f rest ++ ps))
    (hBelow : ReachedGoBack W f ps below) :
    ReachedGoBack W f ps (Machine.keep dropped (.mk index rest s) below) := by
  cases dropped with
  | true => exact hBelow
  | false =>
    intro index' rest' s' hs
    rcases List.mem_cons.mp hs with hSame | hs
    · cases hSame
      exact h
    · exact hBelow index' rest' s' hs

/-- One more part of the loop, which may be dropped. -/
theorem PhasesGoBack.kept (dropped : Bool) {p : Phase} {below : List Phase}
    (h : p.started.2.GoesBack W f ps) (hBelow : PhasesGoBack W f ps below) :
    PhasesGoBack W f ps (Machine.keep dropped p below) := by
  cases dropped with
  | true => exact hBelow
  | false => exact List.forall_mem_cons.mpr ⟨h, hBelow⟩

/-- One more search that waits. -/
theorem Stack.GoesBack.push {i o : Kind} {stack : Stack o} (hStack : stack.GoesBack W outer)
    (p : Pending i o) (hp : p.GoesBack W (innermost outer stack.frames) (stack.promises outer)) :
    (Stack.push p stack).GoesBack W outer := ⟨hp, hStack⟩

namespace Machine

section

variable {k : Kind} {stack : Stack k} (hStack : stack.GoesBack W outer)
include hStack

/-- A result was found, and the names below are placeholders. -/
theorem promises_found {s : Search k}
    (h : s.GoesBack W (innermost outer stack.frames) (stack.promises outer)) (item : k.Item) :
    Promises W outer (·.Awaits (stack.promises outer)) (pure (found item s stack)) := by
  refine leaves_pure fun _ hAwaits => ?_
  exact ⟨.found item hAwaits h, hStack⟩

/-- Nothing was found, so nothing has to be known of the names. -/
theorem promises_drained (s : Search k) : Promises W outer P (pure (drained s stack)) :=
  leaves_pure fun _ _ => ⟨.drained s, hStack⟩

/-- A search that has to go back is asked. -/
theorem promises_again {s : Search k}
    (h : s.GoesBack W (innermost outer stack.frames) (stack.promises outer)) :
    Promises W outer P (pure (pull s stack)) :=
  leaves_pure fun _ _ => ⟨.back h, hStack⟩

/-- A search that was just started is asked. -/
theorem promises_launched {x : Eval (Search k)}
    (hx : Launches (innermost outer stack.frames) before (stack.promises outer) x) :
    Promises W outer (·.Awaits before) (do return pull (← x) stack) := by
  refine leaves_bind hx fun _ => ?_
  refine leaves_pure fun _ h => ?_
  exact ⟨.fresh h.1 h.2, hStack⟩

end

-- ---------------------------------------------------------------------------
-- Alternatives and lists of expressions
-- ---------------------------------------------------------------------------

/-- The next alternative is started after the choice has gone back. -/
theorem promises_nextAlternative {stack : Stack .value} (hStack : stack.GoesBack W outer)
    {start : Checkpoint} (hStart : W start (stack.promises outer)) (alternatives : List Expr) :
    Promises W outer (·.Awaits (stack.promises outer))
      (nextAlternative start alternatives stack) := by
  cases alternatives with
  | nil => exact promises_drained hStack _
  | cons e rest =>
    exact promises_launched (hStack.push (.choosing start rest) hStart) (e.launches_start _ _)

section

variable {stack : Stack .tuple} (hStack : stack.GoesBack W outer)
include hStack

/-- The last operand goes on, which goes back first. -/
theorem promises_pullOperand {operands : List Operand}
    (h : OperandsGoBack W (innermost outer stack.frames) (stack.promises outer) operands)
    (values : List Value) : Promises W outer P (pure (pullOperand operands values stack)) := by
  cases operands with
  | nil => exact promises_drained hStack _
  | cons operand below =>
    obtain ⟨rest, s⟩ := operand
    have hBelow : OperandsGoBack W (innermost outer stack.frames) (stack.promises outer) below :=
      fun rest' s' hs => h rest' s' (List.mem_cons_of_mem _ hs)
    exact promises_again (hStack.push (.operand rest below values) hBelow)
      (h rest s List.mem_cons_self)

/-- The next operand is started on top of the others. -/
theorem promises_launchOperand (e : Expr) (rest : List Expr) {below : List Operand}
    (hBelow : OperandsGoBack W (innermost outer stack.frames) (stack.promises outer) below)
    (values : List Value) :
    Promises W outer (·.Awaits (stack.promises outer))
      (do return pullOperand (.mk rest (← e.start) :: below) values stack) :=
  promises_launched (hStack.push (.operand rest below values) hBelow) (e.launches_start _ _)

/-- The first operand is started. -/
theorem promises_startProduct (exprs : List Expr) :
    Promises W outer (·.Awaits (stack.promises outer)) (startProduct exprs stack) := by
  have hNone : OperandsGoBack W (innermost outer stack.frames) (stack.promises outer) [] :=
    fun _ _ hs => absurd hs List.not_mem_nil
  cases exprs with
  | nil => exact promises_found hStack (.producing hNone []) _
  | cons e rest => exact promises_launchOperand hStack e rest hNone []

/-- An operand has found its value. -/
theorem promises_fillOperand (exprs : List Expr) {rest : Search .value} {below : List Operand}
    (h : OperandsGoBack W (innermost outer stack.frames) (stack.promises outer)
      (.mk exprs rest :: below)) (values : List Value) (v : Value) :
    Promises W outer (·.Awaits (stack.promises outer))
      (fillOperand (.mk exprs rest) below values v stack) := by
  cases exprs with
  | nil => exact promises_found hStack (.producing h values) _
  | cons e exprs => exact promises_launchOperand hStack e exprs h (v :: values)

end

-- ---------------------------------------------------------------------------
-- Statements
-- ---------------------------------------------------------------------------

section

variable {stack : Stack .completion} (hStack : stack.GoesBack W outer) {reached : List Reached}
  (h : ReachedGoBack W (innermost outer stack.frames) (stack.promises outer) reached)
include hStack h

/-- A statement is asked, unless a later one has committed. -/
theorem promising_askStatement {s : Store} {index : Nat} {rest : List Stmt}
    {t : Search .completion} (commit : Option Nat)
    (ht : Walk.Promising W s (innermost outer stack.frames)
      (promisedBy (innermost outer stack.frames) rest ++ stack.promises outer) (.pull t)) :
    (pullStatement (.mk index rest t :: reached) commit stack).Promising W outer s := by
  unfold pullStatement
  dsimp only
  by_cases hCommit : commit.any (index < ·)
  · rw [if_pos hCommit]
    exact ⟨.drained _, hStack⟩
  · rw [if_neg hCommit]
    exact ⟨ht, h, hStack⟩

/-- The last statement goes on, which goes back first. -/
theorem promises_pullStatement (commit : Option Nat) :
    Promises W outer P (pure (pullStatement reached commit stack)) := by
  cases reached with
  | nil => exact promises_drained hStack _
  | cons last below =>
    obtain ⟨index, rest, s⟩ := last
    exact leaves_pure fun _ _ => promising_askStatement hStack
      (fun index rest s hs => h index rest s (List.mem_cons_of_mem _ hs)) commit
      (.back (h index rest s List.mem_cons_self))

/-- A statement gives its name its value, and the ones behind it give theirs. -/
theorem promises_startStatement (index : Nat) (stmt : Stmt) (rest : List Stmt)
    (commit : Option Nat) :
    Promises W outer
      (·.Awaits (promisedBy (innermost outer stack.frames) (stmt :: rest) ++ stack.promises outer))
      (startStatement index stmt rest reached commit stack) := by
  rw [promisedBy_cons, List.append_assoc]
  exact leaves_bind (stmt.launches_start _ _) fun _ => leaves_pure fun _ hLaunched =>
    promising_askStatement hStack h _ (.fresh hLaunched.1 hLaunched.2)

/-- A statement is completed; the names of those behind it are still placeholders. -/
theorem promises_completeStatement (index : Nat) (rest : List Stmt) (completion : Completion)
    (commit : Option Nat) :
    Promises W outer
      (·.Awaits (promisedBy (innermost outer stack.frames) rest ++ stack.promises outer))
      (completeStatement index rest completion reached commit stack) := by
  unfold completeStatement
  split
  · exact promises_startStatement hStack h _ _ _ _
  · -- the names of what is not reached any more are given up
    exact leaves_pure fun _ hAwaits => ⟨.found _ hAwaits.of_append (.sequenced h commit), hStack⟩

end

/-- The first statement is started. -/
theorem promises_startSequence {stack : Stack .completion} (hStack : stack.GoesBack W outer)
    (statements : List Stmt) :
    Promises W outer
      (·.Awaits (promisedBy (innermost outer stack.frames) statements ++ stack.promises outer))
      (startSequence statements stack) := by
  have hNone : ReachedGoBack W (innermost outer stack.frames) (stack.promises outer) [] :=
    fun _ _ _ hs => absurd hs List.not_mem_nil
  cases statements with
  | nil => exact promises_found hStack (.sequenced hNone none) _
  | cons stmt rest => exact promises_startStatement hStack hNone _ _ _ _

-- ---------------------------------------------------------------------------
-- Loops
-- ---------------------------------------------------------------------------

section

variable {header : Loop} {stack : Stack .completion} (hStack : stack.GoesBack W outer)
  {phases : List Phase}
  (h : PhasesGoBack W (header.inside (innermost outer stack.frames)) (stack.promises outer) phases)
include hStack h

/-- A part of the loop is asked, with the others below it. -/
theorem promises_askPhase {p : Phase}
    (hp : ∀ s, P s → Walk.Promising W s (header.inside (innermost outer stack.frames))
      (stack.promises outer) (.pull p.started.2)) :
    Promises W outer P (pullPhase header (p :: phases) stack) := by
  rw [← innermost_loop] at hp
  cases p <;> exact leaves_pure fun s hs => ⟨hp s hs, h, hStack⟩

/-- The last part of the loop goes on, which goes back first. -/
theorem promises_pullPhase : Promises W outer P (pullPhase header phases stack) := by
  cases phases with
  | nil => exact .after (promises_drained hStack _)
  | cons p below =>
    obtain ⟨hp, hBelow⟩ := List.forall_mem_cons.mp h
    exact promises_askPhase hStack hBelow fun _ _ => .back hp

/-- A part of the loop is started on top of the others. -/
theorem promises_launchPhase {x : Eval Phase}
    (hx : LaunchesPhase (header.inside (innermost outer stack.frames)) before
      (stack.promises outer) x) :
    Promises W outer (·.Awaits before) (do pullPhase header ((← x) :: phases) stack) := by
  refine leaves_bind hx fun _ => ?_
  refine promises_askPhase hStack h fun _ hLaunched => ?_
  exact .fresh hLaunched.1 hLaunched.2

theorem promises_completeLoop (completion : Completion) :
    Promises W outer (·.Awaits (stack.promises outer))
      (completeLoop header phases completion stack) := by
  have hIdle : Idle (leaveLoop header) := by
    intro c
    cases header <;> rfl
  refine leaves_bind hIdle.leaves fun _ => ?_
  exact promises_found hStack (.looping h) _

/-- The body is started, or the loop is left. -/
theorem promises_afterTest (test : Value) :
    Promises W outer (·.Awaits (stack.promises outer)) (afterTest header phases test stack) := by
  unfold afterTest
  split
  · exact promises_launchPhase hStack h (launches_startBody _ _ _)
  · exact promises_completeLoop hStack h _
  · exact leaves_throw _

/-- The update and the test come next, or the loop is left. -/
theorem promises_afterBody (completion : Completion) :
    Promises W outer (·.Awaits (stack.promises outer))
      (afterBody header phases completion stack) := by
  unfold afterBody
  split
  · exact promises_launchPhase hStack h (launches_startUpdate _ _ _)
  · exact promises_launchPhase hStack h (launches_startUpdate _ _ _)
  · exact promises_completeLoop hStack h _
  · exact promises_completeLoop hStack h _

end

-- ---------------------------------------------------------------------------
-- The step
-- ---------------------------------------------------------------------------

/-- A search that has found something before is asked again. -/
theorem promises_pullAgain {k : Kind} {s : Search k} {stack : Stack k}
    (hStack : stack.GoesBack W outer)
    (h : s.GoesBack W (innermost outer stack.frames) (stack.promises outer)) :
    Promises W outer P (stepPull s stack) := by
  -- a search that is asked again starts nothing, so it promises what the stack does
  generalize hf : innermost outer stack.frames = f at h
  generalize hps : stack.promises outer = ps at h
  cases h with
  | failed => exact promises_drained hStack _
  | @map _ _ _ _ g inner h =>
    subst hf hps
    exact promises_again (hStack.push (.map g) trivial) h
  | @bind _ _ _ _ g inner h =>
    subst hf hps
    exact promises_again (hStack.push (.outer g) trivial) h
  | @binding _ _ _ _ g left inner hOuter hInner =>
    subst hf hps
    exact promises_again (hStack.push (.inner g left) hOuter) hInner
  | @within _ frame _ _ inner h =>
    subst hps
    exact .after (promises_again (hStack.push (.within frame) trivial) h)
  | exhausted => exact promises_drained hStack _
  | @choosing _ _ start hStart inner h alternatives =>
    subst hf hps
    exact promises_again (hStack.push (.choosing start alternatives) hStart) h
  | producing h values =>
    subst hf hps
    exact promises_pullOperand hStack h values
  | sequenced h commit =>
    subst hf hps
    exact promises_pullStatement hStack h commit
  | looping h =>
    subst hf hps
    exact .after (promises_pullPhase hStack h)

section

variable {c d : Context} {m : Machine}

/-- A choice notes the moment, at which all the names are placeholders. -/
theorem promising_pullFresh {k : Kind} {s : Search k} {stack : Stack k}
    (hW : W = ((pull s stack).opening c).store.Pledges) (hStack : stack.GoesBack W outer)
    (hFresh : s.Fresh)
    (h : c.store.Awaits (s.promises (innermost outer stack.frames) ++ stack.promises outer))
    (hEq : stepPull s stack c = .ok m d) : m.Promising W outer d.store := by
  have hAsk {i : Kind} {t : Search i} {p : Pending i k} (hp : p.GoesBack W
        (innermost outer stack.frames) (stack.promises outer)) (ht : t.Fresh)
      (hAwaits : c.store.Awaits (t.promises (innermost outer (p.frames ++ stack.frames)) ++
        (p.promises (innermost outer stack.frames) ++ stack.promises outer))) :
      (pull t (.push p stack)).Promising W outer c.store := ⟨.fresh ht hAwaits, hp, hStack⟩
  cases hFresh with
  | @once k item =>
    cases item with
    | none => exact (promises_drained hStack _).any hEq
    | some item => exact promises_found hStack (.failed _ _) item c m d h hEq
  | map g ht =>
    rw [Search.promises, List.append_assoc] at h
    cases hEq
    exact hAsk (p := .map g) trivial ht h
  | bind g ht =>
    cases hEq
    exact hAsk (p := .outer g) trivial ht h
  | within frame ht =>
    cases hEq
    exact hAsk (p := .within frame) trivial ht h
  | choice alternatives =>
    -- The choice notes the moment, at which the names below are placeholders.
    subst hW
    have hAwaits : c.checkpoint.store.Awaits (stack.promises outer) := h.congr fun _ _ => rfl
    exact promises_nextAlternative hStack (Awaits.pledges_mark h rfl) alternatives c.checkpoint m d
      hAwaits hEq
  | product exprs => exact promises_startProduct hStack exprs c m d h hEq
  | sequence statements => exact promises_startSequence hStack statements c m d h hEq
  | loop header =>
    have hNone : PhasesGoBack W (header.inside (innermost outer stack.frames))
      (stack.promises outer) [] := fun _ hp => absurd hp List.not_mem_nil
    refine leaves_bind (Idle.leaves fun c => ?_) (fun _ => promises_launchPhase hStack hNone
      (launches_startLoop header _ _)) c m d h hEq
    cases header <;> rfl

/-- What waits for a part that has found something goes on with it. -/
theorem promising_stepFound {i o : Kind} {item : i.Item} {rest : Search i} {p : Pending i o}
    {stack : Stack o} (hCurrent : c.current = innermost outer (p.frames ++ stack.frames))
    (hStack : (Stack.push p stack).GoesBack W outer)
    (hRest : rest.GoesBack W (innermost outer (p.frames ++ stack.frames))
      ((Stack.push p stack).promises outer))
    (h : c.store.Awaits ((Stack.push p stack).promises outer))
    (hEq : stepFound retire item rest p stack c = .ok m d) : m.Promising W outer d.store := by
  obtain ⟨hp, hStack⟩ := hStack
  cases p with
  | map g =>
    obtain ⟨y, e, hApply, hDone⟩ := bind_eq_ok.mp hEq
    cases hDone
    have hCurrent : c.current = innermost outer stack.frames := hCurrent
    -- a declaration fills the placeholder the stack promised to it
    rw [Stack.promises, Pending.promises, ← hCurrent] at h
    exact ⟨.found y (g.awaits_apply h hApply) (.map hRest), hStack⟩
  | outer g =>
    exact promises_launched (hStack.push (.inner g rest) hRest) (g.launches_apply item _ _) c m d h
      hEq
  | inner g left =>
    refine promises_found hStack ?_ item c m d h hEq
    split
    · exact .bind g hp
    · exact .binding g hp hRest
  | within frame =>
    cases hEq
    exact ⟨.found item h (.within _ hRest), hStack⟩
  | choosing start alternatives =>
    exact promises_found hStack (.choosing hp hRest alternatives) item c m d h hEq
  | operand exprs below values =>
    exact promises_fillOperand hStack exprs (hp.cons hRest) values item c m d h hEq
  | statement index stmts below commit =>
    exact promises_completeStatement hStack (hp.kept _ hRest) index stmts item commit c m d h hEq
  | init header below =>
    rw [Pending.frames, innermost_loop] at hRest
    exact promises_launchPhase hStack (hp.kept _ (p := .init rest) hRest)
      (launches_startTest header _ _) c m d h hEq
  | test header below =>
    rw [Pending.frames, innermost_loop] at hRest
    exact promises_afterTest hStack (hp.kept _ (p := .test rest) hRest) item c m d h hEq
  | body header below =>
    rw [Pending.frames, innermost_loop] at hRest
    exact promises_afterBody hStack (hp.kept _ (p := .body rest) hRest) item c m d h hEq
  | update header below =>
    rw [Pending.frames, innermost_loop] at hRest
    exact promises_launchPhase hStack (hp.kept _ (p := .update rest) hRest)
      (launches_startTest header _ _) c m d h hEq

/-- A choice goes back to the moment that it has noted, at which its names were placeholders. -/
theorem promising_stepDrained {i o : Kind} {rest : Search i} {p : Pending i o} {stack : Stack o}
    (hW : W = ((drained rest (.push p stack)).opening c).store.Pledges)
    (hStack : (Stack.push p stack).GoesBack W outer)
    (hEq : stepDrained rest p stack c = .ok m d) : m.Promising W outer d.store := by
  obtain ⟨hp, hStack⟩ := hStack
  cases p with
  | map g | outer g => exact (promises_drained hStack _).any hEq
  | inner g left =>
    exact (promises_again (hStack.push (.outer g) trivial) hp).any hEq
  | within frame =>
    cases hEq
    exact ⟨.drained _, hStack⟩
  | choosing start alternatives =>
    -- Going back is what makes the names placeholders again, whatever they are now.
    have hBack : (c.restore start).store.Awaits (stack.promises outer) := by
      subst hW
      have hAwaits : ((c.store.unwindTo start.trailLength).unwindTo start.trailLength).Awaits
        (stack.promises outer) := Pledges.awaits_unwindTo hp
      rw [unwindTo_unwindTo _ (Nat.le_refl _)] at hAwaits
      exact hAwaits
    exact promises_nextAlternative hStack hp alternatives (c.restore start) m d hBack hEq
  | operand exprs below values =>
    exact (promises_pullOperand hStack hp values.tail).any hEq
  | statement index stmts below commit =>
    exact (promises_pullStatement hStack hp commit).any hEq
  | init header below | test header below | body header below | update header below =>
    exact (promises_pullPhase hStack hp).any hEq

/-- If the names of the machine are as they should be, so they are after a step. -/
theorem promising_step {m' : Machine}
    (h : m.Promising (m.opening c).store.Pledges outer c.store)
    (hCurrent : c.current = innermost outer m.stack.frames)
    (hEq : m.step retire c = .ok m' d) :
    m'.Promising (m.opening c).store.Pledges outer d.store := by
  obtain ⟨k, walk, stack⟩ := m
  have hStack : stack.GoesBack _ outer := h.stack
  have hWalk : walk.Promising _ c.store (innermost outer stack.frames) (stack.promises outer) :=
    h.walk
  cases hWalk with
  | fresh hFresh hAwaits => exact promising_pullFresh rfl hStack hFresh hAwaits hEq
  | back hBack => exact (promises_pullAgain hStack hBack).any hEq
  -- with nothing waiting the walk is over, and the step changes nothing
  | found item hAwaits hRest =>
    cases stack with
    | nil =>
      cases hEq
      exact h
    | push p below => exact promising_stepFound hCurrent hStack hRest hAwaits hEq
  | drained rest =>
    cases stack with
    | nil =>
      cases hEq
      exact h
    | push p below => exact promising_stepDrained rfl hStack hEq

end

end Machine

end AmbScript
