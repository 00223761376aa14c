import AmbScript.Proofs.Machine.Run

/-!
# What is above a part of the stack

The machine never looks at the searches that wait below the one that it is at. So what it does
above some stack is the same above every stack, until it comes back to it.

* `Segment.onto` — a part of a stack on top of another one.
* `Machine.Uniform` — an action that does not depend on the stack it is given.
* `Machine.uniform_step` — a step above a stack is such an action.
* `Machine.Above` — the walk has not come back to a stack yet; `Machine.Attains` says when and how
  it does.
* `Machine.replies_or_stays` — it comes back to every stack with the same reply, or to none.

This is what allows to speak of the results of a search at all, and not only of those of a search in
some place. `Uniform` says it of one action in the plainest form: the walk and the segment that come
out of it are named before the stack is.
-/

namespace AmbScript

variable {α : Type} {i k m o : Kind} {retire : {k : Kind} → Search k → Bool}

-- ---------------------------------------------------------------------------
-- Segments
-- ---------------------------------------------------------------------------

/-- The searches that wait above some stack, from the inside out. -/
inductive Segment : Kind → Kind → Type
  | nil {k : Kind} : Segment k k
  | push {i m o : Kind} (p : Pending i m) (below : Segment m o) : Segment i o

namespace Segment

/-- The segment on top of the stack. -/
def onto {i o : Kind} : Segment i o → Stack o → Stack i
  | .nil, stack => stack
  | .push p below, stack => .push p (below.onto stack)

/-- One segment on top of another. -/
def append {i m o : Kind} : Segment i m → Segment m o → Segment i o
  | .nil, lower => lower
  | .push p below, lower => .push p (below.append lower)

/-- To put two segments on a stack, one after the other, is to put both on it at once. -/
theorem append_onto (upper : Segment i m) (lower : Segment m o) (stack : Stack o) :
    (upper.append lower).onto stack = upper.onto (lower.onto stack) := by
  induction upper with
  | nil => rfl
  | push p below ih => exact congrArg (Stack.push p) (ih lower)

/-- How many searches wait. -/
def length {i o : Kind} : Segment i o → Nat
  | .nil => 0
  | .push _ below => below.length + 1

end Segment

/-- How many searches wait. -/
def Stack.height {k : Kind} : Stack k → Nat
  | .nil => 0
  | .push _ below => below.height + 1

theorem Segment.height_onto (segment : Segment i o) (stack : Stack o) :
    (segment.onto stack).height = segment.length + stack.height := by
  induction segment with
  | nil => exact (Nat.zero_add _).symm
  | push p below ih =>
    show (below.onto stack).height + 1 = below.length + 1 + stack.height
    rw [ih]
    omega

/-- Some stack. -/
def baseStack : (k : Kind) → Stack k
  | .value => .nil
  | .completion => .push (.map .call) .nil
  | .tuple => .push (.map .array) .nil

/-- What comes of asking a search for a result. -/
inductive Reply (k : Kind)
  | found (item : k.Item) (rest : Search k)
  | drained (rest : Search k)

/-- The machine that brings the reply to a stack. -/
def Reply.machine (stack : Stack k) : Reply k → Machine
  | .found item rest => Machine.found item rest stack
  | .drained rest => Machine.drained rest stack

namespace Machine

-- ---------------------------------------------------------------------------
-- Actions above a stack
-- ---------------------------------------------------------------------------

/-- The machine that the action makes of a stack is the same above all stacks. -/
def Uniform (x : Stack o → Eval Machine) : Prop :=
  ∀ c, (∃ t d, ∀ stack, x stack c = .error t d) ∨
    ∃ (k : Kind) (walk : Walk k) (segment : Segment k o) (d : Context),
      ∀ stack, x stack c = .ok ⟨k, walk, segment.onto stack⟩ d

/-- The machine is there at once. -/
theorem uniform_pure (walk : Walk i) (segment : Segment i o) :
    Uniform fun stack => pure ⟨i, walk, segment.onto stack⟩ := by
  intro c
  refine .inr ?_
  refine ⟨i, walk, segment, c, ?_⟩
  intro _
  exact rfl

theorem uniform_throw (t : Fault) : Uniform fun _ : Stack o => throw t := by
  intro c
  refine .inl ⟨t, c, fun stack => ?_⟩
  rfl

/-- What is done first does not know of the stack. -/
theorem uniform_bind (x : Eval α) {f : α → Stack o → Eval Machine} (hf : ∀ a, Uniform (f a)) :
    Uniform fun stack => x >>= fun a => f a stack := by
  intro c
  cases hx : x c with
  | error t d =>
    refine .inl ⟨t, d, fun stack => ?_⟩
    show EStateM.bind x _ c = _
    rw [EStateM.bind, hx]
  | ok a d =>
    have hBind (stack : Stack o) : (x >>= fun a => f a stack) c = f a stack d := by
      show EStateM.bind x _ c = _
      rw [EStateM.bind, hx]
    simp only [hBind]
    exact hf a d

/-- Above a segment that is itself above a stack. -/
theorem Uniform.onto {x : Stack m → Eval Machine} (h : Uniform x) (lower : Segment m o) :
    Uniform fun stack => x (lower.onto stack) := by
  intro c
  rcases h c with ⟨t, d, hError⟩ | ⟨k, walk, segment, d, hOk⟩
  · exact .inl ⟨t, d, fun stack => hError _⟩
  · refine .inr ⟨k, walk, segment.append lower, d, fun stack => ?_⟩
    exact (hOk _).trans (by rw [segment.append_onto])

/-- One pending search on top of the stack. -/
theorem uniform_pull (s : Search i) (p : Pending i o) :
    Uniform fun stack => pure (pull s (.push p stack)) := by
  intro c
  refine .inr ⟨i, .pull s, .push p .nil, c, fun stack => ?_⟩
  rfl

theorem uniform_found (item : o.Item) (rest : Search o) :
    Uniform fun stack => pure (found item rest stack) := uniform_pure (.found item rest) .nil

theorem uniform_drained (rest : Search o) : Uniform fun stack => pure (drained rest stack) :=
  uniform_pure (.drained rest) .nil

-- ---------------------------------------------------------------------------
-- Parts of a step
-- ---------------------------------------------------------------------------

/-- The next alternative is started. -/
theorem uniform_nextAlternative (start : Checkpoint) (alternatives : List Expr) :
    Uniform (nextAlternative start alternatives) := by
  cases alternatives with
  | nil => exact uniform_drained _
  | cons e rest => exact uniform_bind e.start fun s => uniform_pull s _

theorem uniform_pullOperand (operands : List Operand) (values : List Value) :
    Uniform fun stack => pure (pullOperand operands values stack) := by
  rcases operands with _ | ⟨⟨rest, s⟩, below⟩
  · exact uniform_drained _
  · exact uniform_pull s _

theorem uniform_startProduct (exprs : List Expr) : Uniform (startProduct exprs) := by
  cases exprs with
  | nil => exact uniform_found (o := .tuple) _ _
  | cons e rest => exact uniform_bind e.start fun s => uniform_pullOperand _ _

/-- The next operand is started, or the values are the result. -/
theorem uniform_fillOperand (operand : Operand) (below : List Operand) (values : List Value)
    (v : Value) : Uniform (fillOperand operand below values v) := by
  rcases operand with ⟨_ | ⟨e, rest⟩, s⟩
  · exact uniform_found (o := .tuple) _ _
  · exact uniform_bind e.start fun s => uniform_pullOperand _ _

theorem uniform_pullStatement (reached : List Reached) (commit : Option Nat) :
    Uniform fun stack => pure (pullStatement reached commit stack) := by
  rcases reached with _ | ⟨⟨index, rest, s⟩, below⟩
  · exact uniform_drained _
  · by_cases hCommitted : commit.any (index < ·) = true
    · simpa only [pullStatement, if_pos hCommitted] using uniform_drained _
    · simpa only [pullStatement, if_neg hCommitted] using uniform_pull s _

theorem uniform_startStatement (index : Nat) (stmt : Stmt) (rest : List Stmt)
    (below : List Reached) (commit : Option Nat) :
    Uniform (startStatement index stmt rest below commit) := by
  refine uniform_bind stmt.start fun _ => ?_
  exact uniform_pullStatement _ _

theorem uniform_startSequence (statements : List Stmt) : Uniform (startSequence statements) := by
  cases statements with
  | nil => exact uniform_found (o := .completion) _ _
  | cons stmt rest => exact uniform_startStatement _ _ _ _ _

/-- The next statement is started, or the completion is the result. -/
theorem uniform_completeStatement (index : Nat) (rest : List Stmt) (completion : Completion)
    (reached : List Reached) (commit : Option Nat) :
    Uniform (completeStatement index rest completion reached commit) := by
  cases rest with
  | nil => cases completion <;> exact uniform_found (o := .completion) _ _
  | cons stmt rest =>
    cases completion with
    | value v => exact uniform_startStatement _ _ _ _ _
    | _ => exact uniform_found (o := .completion) _ _

theorem uniform_pullPhase (header : Loop) (phases : List Phase) :
    Uniform (pullPhase header phases) := by
  match phases with
  | [] => exact uniform_bind (leaveLoop header) fun _ => uniform_drained _
  | .init s :: below => exact uniform_pull s _
  | .test s :: below => exact uniform_pull s _
  | .body s :: below => exact uniform_pull s _
  | .update s :: below => exact uniform_pull s _

theorem uniform_completeLoop (header : Loop) (phases : List Phase) (completion : Completion) :
    Uniform (completeLoop header phases completion) :=
  uniform_bind (leaveLoop header) fun _ => uniform_found (o := .completion) _ _

/-- The body is started, or the loop is left. -/
theorem uniform_afterTest (header : Loop) (phases : List Phase) (test : Value) :
    Uniform (afterTest header phases test) := by
  unfold afterTest
  split
  · exact uniform_bind (startBody header) fun _ => uniform_pullPhase _ _
  · exact uniform_completeLoop _ _ _
  · exact uniform_throw _

/-- The update is started, or the test, or the loop is left. -/
theorem uniform_afterBody (header : Loop) (phases : List Phase) (completion : Completion) :
    Uniform (afterBody header phases completion) := by
  unfold afterBody
  split
  · exact uniform_bind (startUpdate header) fun _ => uniform_pullPhase _ _
  · exact uniform_bind (startUpdate header) fun _ => uniform_pullPhase _ _
  · exact uniform_completeLoop _ _ _
  · exact uniform_completeLoop _ _ _

-- ---------------------------------------------------------------------------
-- The step
-- ---------------------------------------------------------------------------

/-- A search is asked. -/
theorem uniform_stepPull (s : Search k) : Uniform (stepPull s) := by
  cases s with
  | once item =>
    cases item with
    | none => exact uniform_drained _
    | some item => exact uniform_found _ _
  | map f inner => exact uniform_pull _ _
  | bind f outer => exact uniform_pull _ _
  | binding f outer inner => exact uniform_pull _ _
  | within frame inner => exact uniform_bind (Eval.enter frame) fun _ => uniform_pull _ _
  | choice alternatives =>
    exact uniform_bind Eval.checkpoint fun _ => uniform_nextAlternative _ _
  | choosing start current alternatives =>
    cases current with
    | none => exact uniform_nextAlternative _ _
    | some s => exact uniform_pull _ _
  | product exprs => exact uniform_startProduct _
  | producing operands values => exact uniform_pullOperand _ _
  | sequence statements => exact uniform_startSequence _
  | sequenced reached commit => exact uniform_pullStatement _ _
  | loop header =>
    exact uniform_bind (enterLoop header) fun _ =>
      uniform_bind (startLoop header) fun _ => uniform_pullPhase _ _
  | looping header phases =>
    exact uniform_bind (enterLoop header) fun _ => uniform_pullPhase _ _

/-- A result is given to what waits for it. -/
theorem uniform_stepFound (item : i.Item) (rest : Search i) (p : Pending i o) :
    Uniform (stepFound retire item rest p) := by
  cases p with
  | map f => exact uniform_bind (f.apply item) fun _ => uniform_found _ _
  | outer f => exact uniform_bind (f.apply item) fun _ => uniform_pull _ _
  | inner f outer => exact uniform_found _ _
  | within frame => exact uniform_bind Eval.leave fun _ => uniform_found _ _
  | choosing start alternatives => exact uniform_found (o := .value) _ _
  | operand exprs below values => exact uniform_fillOperand _ _ _ _
  | statement index stmts below commit => exact uniform_completeStatement _ _ _ _ _
  | init header below =>
    exact uniform_bind (startTest header) fun _ => uniform_pullPhase _ _
  | test header below => exact uniform_afterTest _ _ _
  | body header below => exact uniform_afterBody _ _ _
  | update header below =>
    exact uniform_bind (startTest header) fun _ => uniform_pullPhase _ _

/-- What waits for results is told that there are no more. -/
theorem uniform_stepDrained (rest : Search i) (p : Pending i o) :
    Uniform (stepDrained rest p) := by
  cases p with
  | map f => exact uniform_drained _
  | outer f => exact uniform_drained _
  | inner f outer => exact uniform_pull _ _
  | within frame => exact uniform_bind Eval.leave fun _ => uniform_drained _
  | choosing start alternatives =>
    exact uniform_bind (Eval.restore start) fun _ => uniform_nextAlternative _ _
  | operand exprs below values => exact uniform_pullOperand _ _
  | statement index stmts below commit => exact uniform_pullStatement _ _
  | init header below => exact uniform_pullPhase _ _
  | test header below => exact uniform_pullPhase _ _
  | body header below => exact uniform_pullPhase _ _
  | update header below => exact uniform_pullPhase _ _

/-- Above all stacks that it has not come back to, a step is the same. -/
theorem uniform_step (walk : Walk i) (segment : Segment i o)
    (hAbove : ∀ reply : Reply o, ¬ ∀ stack, (⟨i, walk, segment.onto stack⟩ : Machine) =
      reply.machine stack) :
    Uniform fun stack => step retire ⟨i, walk, segment.onto stack⟩ := by
  cases walk with
  | pull s => exact (uniform_stepPull s).onto segment
  | found item rest =>
    cases segment with
    | nil => exact absurd (fun stack => rfl) (hAbove (.found item rest))
    | push p below => exact (uniform_stepFound item rest p).onto below
  | drained rest =>
    cases segment with
    | nil => exact absurd (fun stack => rfl) (hAbove (.drained rest))
    | push p below => exact (uniform_stepDrained rest p).onto below

-- ---------------------------------------------------------------------------
-- Coming back
-- ---------------------------------------------------------------------------

/-- Up to `n` steps further. -/
def ahead (n : Nat) : EStateM.Result Fault Context Machine → EStateM.Result Fault Context Machine
  | .ok m c => m.run Search.isExhausted n c
  | .error t c => .error t c

theorem ahead_zero (r : EStateM.Result Fault Context Machine) : ahead 0 r = r := by
  cases r <;> rfl

/-- One step is taken, and then the others. -/
theorem ahead_succ {m : Machine} (h : m.finished? = none) (n : Nat) (c : Context) :
    ahead (n + 1) (.ok m c) = ahead n (m.step Search.isExhausted c) := by
  show m.run Search.isExhausted (n + 1) c = _
  rw [run_succ h]
  cases m.step Search.isExhausted c <;> rfl

/-- What has failed stays so. -/
theorem run_add_of_error {j n : Nat} {m : Machine} {c d : Context} {t : Fault}
    (h : m.run Search.isExhausted j c = .error t d) :
    m.run Search.isExhausted (j + n) c = .error t d := by
  -- the run stops at the fault, so more steps change nothing
  induction j generalizing m c with
  | zero => cases h
  | succ j ih =>
    cases hFinished : m.finished? with
    | some x =>
      rw [run_of_finished hFinished] at h
      cases h
    | none =>
      rw [run_succ hFinished] at h
      rw [Nat.succ_add, run_succ hFinished]
      cases hStep : m.step Search.isExhausted c with
      | error t' e =>
        rw [hStep] at h
        exact h
      | ok m₁ e =>
        rw [hStep] at h
        exact ih h

/-- So many steps, and then more. -/
theorem ahead_add (i j : Nat) (r : EStateM.Result Fault Context Machine) :
    ahead (i + j) r = ahead j (ahead i r) := by
  cases r with
  | error t c => rfl
  | ok m c =>
    cases hRun : m.run Search.isExhausted i c with
    | ok m' d =>
      show m.run _ (i + j) c = ahead j (m.run _ i c)
      rw [run_add hRun, hRun]
      rfl
    | error t d =>
      show m.run _ (i + j) c = ahead j (m.run _ i c)
      rw [run_add_of_error hRun, hRun]
      rfl

/-- How far the walk is above the bottom of the stack; a search that is asked counts. -/
def level (m : Machine) : Nat :=
  match m.walk with
  | .pull _ => m.stack.height + 1
  | _ => m.stack.height

/-- A walk that is above some stack is not finished. -/
theorem finished?_of_level {m : Machine} (h : 0 < m.level) : m.finished? = none := by
  obtain ⟨k, walk, stack⟩ := m
  cases walk with
  | pull s => rfl
  | found item rest =>
    cases stack with
    | nil => exact absurd h (Nat.lt_irrefl 0)
    | push p below => rfl
  | drained rest =>
    cases stack with
    | nil => exact absurd h (Nat.lt_irrefl 0)
    | push p below => rfl

/-- The walk is above the stack. -/
def Above (stack : Stack k) (r : EStateM.Result Fault Context Machine) : Prop :=
  ∃ m c, r = .ok m c ∧ stack.height < m.level

/-- What is above a stack is above all that is below. -/
theorem Above.below {p : Pending i o} {stack : Stack o} {r : EStateM.Result Fault Context Machine}
    (h : Above (.push p stack) r) : Above stack r := by
  obtain ⟨m, c, hEq, hLevel⟩ := h
  exact ⟨m, c, hEq, Nat.lt_of_succ_lt hLevel⟩

/-- The walk is above the stack for `j` steps, and then it is at `r'`. -/
def Attains (stack : Stack k) (r : EStateM.Result Fault Context Machine) (j : Nat)
    (r' : EStateM.Result Fault Context Machine) : Prop :=
  ahead j r = r' ∧ ∀ i, i < j → Above stack (ahead i r)

namespace Attains

variable {stack : Stack k} {r r' r'' : EStateM.Result Fault Context Machine} {j : Nat}

/-- The walk is there already. -/
theorem here (stack : Stack k) (r : EStateM.Result Fault Context Machine) : Attains stack r 0 r := by
  refine ⟨ahead_zero r, ?_⟩
  intro _ hi
  exact absurd hi (Nat.not_lt_zero _)

/-- What comes back to a pending search is above the stack below. -/
theorem below {p : Pending i o} {stack : Stack o} (h : Attains (.push p stack) r j r') :
    Attains stack r j r' :=
  ⟨h.1, fun i hi => (h.2 i hi).below⟩

theorem above_add (h : Attains stack r j r') {n : Nat}
    (hAbove : ∀ i, i < n → Above stack (ahead i r')) (i : Nat) (hi : i < j + n) :
    Above stack (ahead i r) := by
  by_cases hLate : j ≤ i
  · obtain ⟨i, rfl⟩ := Nat.exists_eq_add_of_le hLate
    rw [ahead_add, h.1]
    exact hAbove i (by omega)
  · exact h.2 i (by omega)

/-- First to one place, then to the next. -/
theorem trans {n : Nat} (h : Attains stack r j r') (h' : Attains stack r' n r'') :
    Attains stack r (j + n) r'' :=
  ⟨by rw [ahead_add, h.1, h'.1], h.above_add h'.2⟩

/-- A walk that is above the stack takes a step. -/
theorem step {m : Machine} {c : Context} (h : stack.height < m.level) :
    Attains stack (.ok m c) 1 (m.step Search.isExhausted c) := by
  refine ⟨?_, fun i hi => ?_⟩
  · rw [ahead_succ (finished?_of_level (Nat.zero_lt_of_lt h)), ahead_zero]
  · obtain rfl : i = 0 := by omega
    exact ⟨m, c, rfl, h⟩

/-- A walk comes back to a stack only once. -/
theorem unique {n : Nat} (h : Attains stack r j r') (hBack : ¬ Above stack r')
    (h' : Attains stack r n r'') (hBack' : ¬ Above stack r'') : j = n ∧ r' = r'' := by
  have hSame : j = n := by
    rcases Nat.lt_trichotomy j n with hLess | hSame | hLess
    · exact absurd (h.1 ▸ h'.2 j hLess) hBack
    · exact hSame
    · exact absurd (h'.1 ▸ h.2 n hLess) hBack'
  subst hSame
  exact ⟨rfl, h.1.symm.trans h'.1⟩

end Attains

-- ---------------------------------------------------------------------------
-- Replies
-- ---------------------------------------------------------------------------

/-- A reply, or a fault, at a stack. -/
def deliver (stack : Stack k) :
    EStateM.Result Fault Context (Reply k) → EStateM.Result Fault Context Machine
  | .ok reply c => .ok (reply.machine stack) c
  | .error t c => .error t c

/-- A walk that is back is not above the stack any more. -/
theorem not_above_deliver (stack : Stack k) (r : EStateM.Result Fault Context (Reply k)) :
    ¬ Above stack (deliver stack r) := by
  rintro ⟨m, c, hEq, hLevel⟩
  cases r with
  | error t d => cases hEq
  | ok reply d =>
    cases reply <;> cases hEq <;> exact Nat.lt_irrefl _ hLevel

/-- The walk is above the stack, unless it is back with a reply. -/
theorem reply_or_above (walk : Walk i) (segment : Segment i o) :
    (∃ reply : Reply o, ∀ stack, (⟨i, walk, segment.onto stack⟩ : Machine) = reply.machine stack) ∨
      ∀ stack : Stack o, stack.height < level ⟨i, walk, segment.onto stack⟩ := by
  -- the walk is a reply when nothing is between it and the stack, else its level is higher
  have hHeight (stack : Stack o) := segment.height_onto stack
  cases walk with
  | pull s =>
    refine .inr fun stack => ?_
    show stack.height < (segment.onto stack).height + 1
    have := hHeight stack
    omega
  | found item rest =>
    cases segment with
    | nil => exact .inl ⟨.found item rest, fun stack => rfl⟩
    | push p below =>
      refine .inr fun stack => ?_
      show stack.height < (below.onto stack).height + 1
      have := below.height_onto stack
      omega
  | drained rest =>
    cases segment with
    | nil => exact .inl ⟨.drained rest, fun stack => rfl⟩
    | push p below =>
      refine .inr fun stack => ?_
      show stack.height < (below.onto stack).height + 1
      have := below.height_onto stack
      omega

/-- The action comes back to every stack with the reply `r`. -/
def Replies (x : Stack k → Eval Machine) (c : Context)
    (r : EStateM.Result Fault Context (Reply k)) : Prop :=
  ∃ j, ∀ stack, Attains stack (x stack c) j (deliver stack r)

/-- Within `n` steps the walk is back with a reply, or else it is above all stacks. -/
theorem replies_or_above {x : Stack o → Eval Machine} (hx : Uniform x) (c : Context) (n : Nat) :
    (∃ r, Replies x c r) ∨
      ∃ (i : Kind) (walk : Walk i) (segment : Segment i o) (d : Context), ∀ stack : Stack o,
        stack.height < level ⟨i, walk, segment.onto stack⟩ ∧
          Attains stack (x stack c) n (.ok ⟨i, walk, segment.onto stack⟩ d) := by
  -- what an action that is uniform comes to after some steps above the stack
  have hNext {j : Nat} {y : Stack o → Eval Machine} (hy : Uniform y) {d : Context}
      (h : ∀ stack, Attains stack (x stack c) j (y stack d)) :
      (∃ r, Replies x c r) ∨
        ∃ (i : Kind) (walk : Walk i) (segment : Segment i o) (d : Context), ∀ stack : Stack o,
          stack.height < level ⟨i, walk, segment.onto stack⟩ ∧
            Attains stack (x stack c) j (.ok ⟨i, walk, segment.onto stack⟩ d) := by
    rcases hy d with ⟨t, e, hError⟩ | ⟨i, walk, segment, e, hOk⟩
    · exact .inl ⟨.error t e, j, fun stack => by
        have hBack := h stack
        rwa [hError] at hBack⟩
    · rcases reply_or_above walk segment with ⟨reply, hReply⟩ | hAbove
      · exact .inl ⟨.ok reply e, j, fun stack => by
          have hBack := h stack
          rwa [hOk, hReply] at hBack⟩
      · exact .inr ⟨i, walk, segment, e, fun stack => ⟨hAbove stack, hOk stack ▸ h stack⟩⟩
  induction n with
  | zero => exact hNext hx fun stack => .here stack _
  | succ n ih =>
    refine ih.elim .inl fun ⟨i, walk, segment, d, hWalk⟩ => ?_
    refine hNext (y := fun stack => step Search.isExhausted ⟨i, walk, segment.onto stack⟩) ?_
      fun stack => (hWalk stack).2.trans (.step (hWalk stack).1)
    refine uniform_step walk segment fun reply hReply => ?_
    have hLevel := (hWalk (baseStack o)).1
    rw [hReply] at hLevel
    cases reply <;> exact Nat.lt_irrefl _ hLevel

/-- A walk comes back to every stack with the same reply, or it stays above all stacks. -/
theorem replies_or_stays {x : Stack o → Eval Machine} (hx : Uniform x) (c : Context) :
    (∃ r, Replies x c r) ∨ ∀ stack n, Above stack (ahead n (x stack c)) := by
  by_cases h : ∃ r, Replies x c r
  · exact .inl h
  · refine .inr fun stack n => ?_
    obtain ⟨i, walk, segment, d, hWalk⟩ := (replies_or_above hx c n).resolve_left h
    exact ⟨_, d, (hWalk stack).2.1, (hWalk stack).1⟩

end Machine

end AmbScript
