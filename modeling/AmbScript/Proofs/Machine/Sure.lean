import AmbScript.Proofs.Machine.Single

/-!
# Evaluation without conditions

As long as neither a call to `amb` nor one to `require` is evaluated, no search that is asked for
the first time comes back without a result.

* `Machine.asksRequire` — the search that a call to `require` evaluates to is asked.
* `Expr.live_start`, `Stmt.live_start`, `Expansion.live_apply` — what is started is not exhausted.
* `Machine.Sure` — each search is asked once only, and has come back with a result if it has come
  back; `Machine.sure_step` is the step.

There are only two ways to no result: a call to `amb`, which may have no alternatives, and `require`
of something false. Both are seen in the search before it is asked, so the invariant is not about
what programs say but about which searches the machine asks.
-/

namespace AmbScript

variable {retire : {k : Kind} → Search k → Bool}

open Eval

-- ---------------------------------------------------------------------------
-- Calls to `require`
-- ---------------------------------------------------------------------------

/-- A result goes to `require`. -/
def Expansion.isRequire {i o : Kind} : Expansion i o → Bool
  | .require _ => true
  | _ => false

/-- A call to `require` evaluates to this. -/
def Search.isRequirement {k : Kind} : Search k → Bool
  | .bind f _ => f.isRequire
  | _ => false

/-- With the next step a call to `require` is evaluated: its argument is asked for. -/
def Machine.asksRequire : Machine → Bool
  | ⟨_, .pull s, _⟩ => s.isRequirement
  | _ => false

-- ---------------------------------------------------------------------------
-- Searches that are not exhausted
-- ---------------------------------------------------------------------------

/-- The search is not known to have no results. -/
def Search.Live {k : Kind} (s : Search k) : Prop := s.isExhausted = false

/-- The part of the loop is not known to have no results. -/
def Phase.Live : Phase → Prop
  | .init s => s.Live
  | .test s => s.Live
  | .body s => s.Live
  | .update s => s.Live

namespace Search

/-- One item is a result. -/
theorem live_found {k : Kind} (item : k.Item) : Live (found item) := by
  unfold Live found
  rw [isExhausted]
  rfl

/-- What is done with results leaves their number as it is. -/
theorem Live.map {i o : Kind} {s : Search i} (h : s.Live) (f : Mapping i o) : Live (.map f s) := by
  unfold Live
  rw [isExhausted]
  exact h

/-- A search over results has some, as far as can be known at once. -/
theorem Live.bind {i o : Kind} {s : Search i} (h : s.Live) (f : Expansion i o) :
    Live (.bind f s) := by
  unfold Live
  rw [isExhausted]
  exact h

/-- Entering a frame leaves the results as they are. -/
theorem Live.within {k : Kind} {s : Search k} (h : s.Live) (frame : FrameId) :
    Live (.within frame s) := by
  unfold Live
  rw [isExhausted]
  exact h

/-- A choice that was not begun is not known to be over. -/
theorem live_choice (alternatives : List Expr) : Live (.choice alternatives) := by
  unfold Live
  rw [isExhausted]

/-- A product that was not begun is not known to be over. -/
theorem live_product (exprs : List Expr) : Live (.product exprs) := by
  unfold Live
  rw [isExhausted]

/-- A sequence that was not begun is not known to be over. -/
theorem live_sequence (statements : List Stmt) : Live (.sequence statements) := by
  unfold Live
  rw [isExhausted]

/-- A loop that was not begun is not known to be over. -/
theorem live_loop (header : Loop) : Live (.loop header) := by
  unfold Live
  rw [isExhausted]

end Search

open Search

/-- A node that is counted first. -/
theorem Eval.Returns.live {k : Kind} {span : Span} {x : Eval (Search k)} (h : Returns Live x) :
    Returns Live (tick span >>= fun _ => x) := returns_bind fun _ => h

/-- What is done with the results of a search that is started. -/
theorem Eval.Returns.liveMap {i o : Kind} {x : Eval (Search i)} (h : Returns Live x)
    (f : Mapping i o) : Returns Live (x >>= fun s => pure (.map f s)) := by
  refine h.bind fun _ hLive => ?_
  exact returns_pure (hLive.map f)

/-- What the results of a search that is started lead to. -/
theorem Eval.Returns.liveBind {i o : Kind} {x : Eval (Search i)} (h : Returns Live x)
    (f : Expansion i o) : Returns Live (x >>= fun s => pure (.bind f s)) := by
  refine h.bind fun _ hLive => ?_
  exact returns_pure (hLive.bind f)

/-- A block is started as a sequence that was not begun. -/
theorem Block.live_start (b : Block) : Returns Live b.start := by
  refine returns_bind fun frame => ?_
  exact returns_pure ((live_sequence _).within frame)

mutual

/-- An expression is started as something that may have results, by recursion on its first
operand. -/
theorem Expr.live_start : ∀ e : Expr, Returns Live e.start
  | .number .. => by
    refine returns_bind fun _ => ?_
    exact returns_pure (live_found _)
  | .string .. => by
    refine returns_bind fun _ => ?_
    exact returns_pure (live_found _)
  | .bool .. => by
    refine returns_bind fun _ => ?_
    exact returns_pure (live_found _)
  | .null _ => by
    refine returns_bind fun _ => ?_
    exact returns_pure (live_found _)
  | .undefined _ => by
    refine returns_bind fun _ => ?_
    exact returns_pure (live_found _)
  | .array items _ => by
    refine returns_bind fun _ => ?_
    exact returns_pure ((live_product items).map .array)
  | .ident _ => by
    refine returns_bind fun _ => ?_
    refine returns_bind fun _ => ?_
    exact returns_pure (live_found _)
  | .assign _ value _ => (value.live_start.liveMap _).live
  | .unary _ operand _ => (operand.live_start.liveMap _).live
  | .binary _ left _ _ => (left.live_start.liveBind _).live
  | .logical _ left _ _ => (left.live_start.liveBind _).live
  | .conditional test _ _ _ => (test.live_start.liveBind _).live
  | .call callee args span => by
    unfold Expr.start
    refine returns_bind fun _ => ?_
    split
    · exact returns_pure (live_choice _)
    · exact live_startRequire args span
    · exact callee.live_start.liveBind _
  | .index object _ _ => (object.live_start.liveBind _).live
  | .member object _ _ => (object.live_start.liveMap _).live
  | .function _ => by
    refine returns_bind fun _ => ?_
    refine returns_bind fun _ => ?_
    refine returns_bind fun _ => ?_
    exact returns_pure (live_found _)

/-- `require` itself may have results; what its argument leads to may not. -/
theorem live_startRequire : ∀ (args : List Expr) (span : Span),
    Returns Live (startRequire args span)
  | [predicate], _ => predicate.live_start.liveBind _
  | [], _ => returns_throw _
  | _ :: _ :: _, _ => returns_throw _

end

/-- A branch is started as a search over its test. -/
theorem Branch.live_start (b : Branch) : Returns Live b.start := by
  cases b with
  | mk test _ _ _ => exact (test.live_start.liveBind _).live

/-- A statement is started as something that may have results. -/
theorem Stmt.live_start (s : Stmt) : Returns Live s.start := by
  cases s with
  | expr e => exact (e.live_start.liveMap _).live
  | declare _ _ init _ => exact (init.live_start.liveMap _).live
  | function _ => exact returns_bind fun _ => returns_pure (live_found _)
  | returns value _ => exact (value.live_start.liveMap _).live
  | branch b => exact b.live_start
  | block b => exact b.live_start.live
  | whileLoop _ _ _ => exact returns_bind fun _ => returns_pure (live_loop _)
  | forLoop _ _ _ _ _ =>
    exact returns_bind fun _ => returns_bind fun _ => returns_pure (live_loop _)
  | breakLoop _ => exact returns_bind fun _ => returns_pure (live_found _)
  | continueLoop _ => exact returns_bind fun _ => returns_pure (live_found _)
  | cut _ => exact returns_bind fun _ => returns_pure (live_found _)

/-- So is what follows `else`; without one there is a result at once. -/
theorem Alternate.live_start (a : Alternate) : Returns Live a.start := by
  cases a with
  | absent => exact returns_pure (live_found _)
  | block b => exact b.live_start
  | branch b => exact b.live_start

/-- A call is started as the body of the closure, or with the result of a primitive. -/
theorem live_startCall (function : Value) (args : List Value) (span : Span) :
    Returns Live (startCall function args span) := by
  unfold startCall
  split
  · exact returns_bind fun frame => returns_pure (((live_sequence _).within frame).map .call)
  · exact returns_bind fun _ => returns_pure (live_found _)
  · exact returns_throw _

/-- Only `require` goes on to a search that has no results. -/
theorem Expansion.live_apply {i o : Kind} (f : Expansion i o) (hPlain : f.isRequire = false)
    (item : i.Item) : Returns Live (f.apply item) := by
  cases f with
  | binary op right span => exact right.live_start.liveMap _
  | logical op right leftSpan =>
    show Returns Live (continueLogical _ _ _ _)
    unfold continueLogical
    split
    · exact right.live_start
    · exact right.live_start
    · exact returns_pure (live_found _)
    · exact returns_throw _
  | conditional consequent alternate testSpan =>
    show Returns Live (continueConditional _ _ _ _)
    unfold continueConditional
    split
    · exact consequent.live_start
    · exact alternate.live_start
    · exact returns_throw _
  | callee args span => exact returns_pure ((live_product args).bind _)
  | arguments function span => exact live_startCall _ _ _
  | index key span => exact key.live_start.liveMap _
  | require span => cases hPlain
  | branch consequent alternate testSpan =>
    show Returns Live (continueBranch _ _ _ _)
    unfold continueBranch
    split
    · exact consequent.live_start
    · exact alternate.live_start
    · exact returns_throw _

-- ---------------------------------------------------------------------------
-- Searches that are asked for the first time
-- ---------------------------------------------------------------------------

/-- The search has not been asked yet, and is not known to have no results. -/
def Search.Sure {k : Kind} (s : Search k) : Prop := s.Fresh ∧ s.Live

/-- The part of the loop has not been asked yet, and is not known to have no results. -/
def Phase.Sure (p : Phase) : Prop := p.Fresh ∧ p.Live

/-- Two properties of the results. -/
theorem Eval.Returns.and {α : Type} {P Q : α → Prop} {x : Eval α} (hP : Returns P x)
    (hQ : Returns Q x) : Returns (fun a => P a ∧ Q a) x :=
  fun c a d h => ⟨hP c a d h, hQ c a d h⟩

/-- What an expression starts is asked for the first time. -/
theorem Expr.sure_start (e : Expr) : Returns Search.Sure e.start := e.fresh_start.and e.live_start

theorem Stmt.sure_start (s : Stmt) : Returns Search.Sure s.start := s.fresh_start.and s.live_start

namespace Machine

/-- The test of a loop; without one there is a result at once. -/
theorem sure_startTest (header : Loop) : Returns Phase.Sure (startTest header) := by
  refine (fresh_startTest header).and ?_
  cases header with
  | whileLoop test body => exact test.live_start.bind fun _ h => returns_pure h
  | forLoop init test update body frame =>
    cases test with
    | none => exact returns_pure (live_found (k := .value) _)
    | some test => exact test.live_start.bind fun _ h => returns_pure h

/-- The part that a loop begins with. -/
theorem sure_startLoop (header : Loop) : Returns Phase.Sure (startLoop header) := by
  unfold startLoop
  split
  · exact (Stmt.sure_start _).bind fun _ h => returns_pure h
  · exact sure_startTest _

/-- The part after the body. -/
theorem sure_startUpdate (header : Loop) : Returns Phase.Sure (startUpdate header) := by
  unfold startUpdate
  split
  · exact (Expr.sure_start _).bind fun _ h => returns_pure h
  · exact sure_startTest _

/-- The body, in a frame of its own. -/
theorem sure_startBody (header : Loop) : Returns Phase.Sure (startBody header) := by
  refine (fresh_startBody header).and ?_
  cases header with
  | whileLoop test body => exact body.live_start.bind fun _ h => returns_pure h
  | forLoop init test update body frame =>
    exact returns_bind fun round => returns_bind fun _ => body.live_start.bind fun _ h =>
      returns_bind fun _ => returns_pure (h.within round)

end Machine

-- ---------------------------------------------------------------------------
-- Machines
-- ---------------------------------------------------------------------------

/-- Nothing has come back without a result, and what is asked is asked for the first time. -/
def Walk.Sure {k : Kind} : Walk k → Prop
  | .pull s => s.Sure
  | .found .. => True
  | .drained _ => False

/-- A result of the part that is waited for goes on to a further one: the part is not the argument
of `require`, and no later statement has committed. -/
def Pending.Sure {i o : Kind} : Pending i o → Prop
  | .outer f => f.isRequire = false
  | .statement index _ _ commit => ∀ n ∈ commit, n ≤ index
  | _ => True

/-- Every result found on top of the stack goes on to further ones. -/
def Stack.Sure {k : Kind} : Stack k → Prop
  | .nil => True
  | .push p below => p.Sure ∧ below.Sure

/-- All searches so far that have come back have come back with a result. -/
def Machine.Sure (m : Machine) : Prop := m.walk.Sure ∧ m.stack.Sure

namespace Machine

variable {k : Kind} {stack : Stack k}

/-- A result may be found by anything. -/
theorem sure_found {item : k.Item} {rest : Search k} (hStack : stack.Sure) :
    (found item rest stack).Sure := ⟨trivial, hStack⟩

/-- The first operand is asked; a product without operands has a result. -/
theorem sure_startProduct (exprs : List Expr) {stack : Stack .tuple} (hStack : stack.Sure) :
    Returns Sure (startProduct exprs stack) := by
  cases exprs with
  | nil => exact returns_pure (sure_found hStack)
  | cons e rest => exact e.sure_start.bind fun _ h => returns_pure ⟨h, trivial, hStack⟩

/-- The next operand is asked, or the product has a result. -/
theorem sure_fillOperand (operand : Operand) (below : List Operand) (values : List Value)
    (v : Value) {stack : Stack .tuple} (hStack : stack.Sure) :
    Returns Sure (fillOperand operand below values v stack) := by
  obtain ⟨exprs, s⟩ := operand
  cases exprs with
  | nil => exact returns_pure (sure_found hStack)
  | cons e rest => exact e.sure_start.bind fun _ h => returns_pure ⟨h, trivial, hStack⟩

/-- A statement is asked when no later one has committed. -/
theorem sure_pullStatement {index : Nat} {s : Search .completion} (h : s.Sure)
    {commit : Option Nat} (hCommit : ∀ n ∈ commit, n ≤ index) (rest : List Stmt)
    (below : List Reached) {stack : Stack .completion} (hStack : stack.Sure) :
    (pullStatement (.mk index rest s :: below) commit stack).Sure := by
  have hAny : commit.any (index < ·) = false := by
    cases commit with
    | none => rfl
    | some n =>
      have hLe : n ≤ index := hCommit n rfl
      exact decide_eq_false (by omega)
  unfold pullStatement
  dsimp only
  rw [hAny, if_neg Bool.false_ne_true]
  exact ⟨h, hCommit, hStack⟩

/-- The statement is asked in its place. Where it is reached, no later one has been. -/
theorem sure_startStatement (index : Nat) (stmt : Stmt) (rest : List Stmt) (below : List Reached)
    {commit : Option Nat} (hCommit : ∀ n ∈ commit, n ≤ index) {stack : Stack .completion}
    (hStack : stack.Sure) : Returns Sure (startStatement index stmt rest below commit stack) := by
  refine stmt.sure_start.bind fun s h => returns_pure (sure_pullStatement h ?_ _ _ hStack)
  -- the number noted is that of the statement itself, or an earlier one
  split
  · intro n hn
    cases hn
    exact Nat.le_refl index
  · exact hCommit

/-- The first statement is asked; a sequence without statements has a result. -/
theorem sure_startSequence (statements : List Stmt) {stack : Stack .completion}
    (hStack : stack.Sure) : Returns Sure (startSequence statements stack) := by
  cases statements with
  | nil => exact returns_pure (sure_found hStack)
  | cons stmt rest =>
    have hNone : ∀ n ∈ (none : Option Nat), n ≤ 0 := by
      intro n hn
      cases hn
    exact sure_startStatement 0 stmt rest [] hNone hStack

/-- The next statement is asked, or the sequence has a result. -/
theorem sure_completeStatement {index : Nat} (rest : List Stmt) (completion : Completion)
    (reached : List Reached) {commit : Option Nat} (hCommit : ∀ n ∈ commit, n ≤ index)
    {stack : Stack .completion} (hStack : stack.Sure) :
    Returns Sure (completeStatement index rest completion reached commit stack) := by
  unfold completeStatement
  split
  · exact sure_startStatement _ _ _ _ (fun n hn => Nat.le_succ_of_le (hCommit n hn)) hStack
  · exact returns_pure (sure_found hStack)

/-- A part of a loop that was just started is asked. -/
theorem sure_pullPhase (header : Loop) {p : Phase} (h : p.Sure) (below : List Phase)
    {stack : Stack .completion} (hStack : stack.Sure) :
    Returns Sure (pullPhase header (p :: below) stack) := by
  cases p <;> exact returns_pure ⟨h, trivial, hStack⟩

/-- The loop has a result. -/
theorem sure_completeLoop (header : Loop) (phases : List Phase) (completion : Completion)
    {stack : Stack .completion} (hStack : stack.Sure) :
    Returns Sure (completeLoop header phases completion stack) := by
  refine returns_bind fun _ => ?_
  exact returns_pure (sure_found hStack)

/-- The body is asked, or the loop has a result. -/
theorem sure_afterTest (header : Loop) (phases : List Phase) (test : Value)
    {stack : Stack .completion} (hStack : stack.Sure) :
    Returns Sure (afterTest header phases test stack) := by
  unfold afterTest
  split
  · exact (sure_startBody header).bind fun _ h => sure_pullPhase header h _ hStack
  · exact sure_completeLoop header _ _ hStack
  · exact returns_throw _

/-- The part after the body is asked, or the loop has a result. -/
theorem sure_afterBody (header : Loop) (phases : List Phase) (completion : Completion)
    {stack : Stack .completion} (hStack : stack.Sure) :
    Returns Sure (afterBody header phases completion stack) := by
  unfold afterBody
  split
  · exact (sure_startUpdate header).bind fun _ h => sure_pullPhase header h _ hStack
  · exact (sure_startUpdate header).bind fun _ h => sure_pullPhase header h _ hStack
  · exact sure_completeLoop header _ _ hStack
  · exact sure_completeLoop header _ _ hStack

-- ---------------------------------------------------------------------------
-- The step
-- ---------------------------------------------------------------------------

/-- A search that is asked is taken apart, unless it is the choice or the requirement that is
excluded. -/
theorem sure_stepPull {s : Search k} (h : s.Sure) (hStack : stack.Sure)
    (hChoice : s.isChoice = false) (hRequirement : s.isRequirement = false) :
    Returns Sure (stepPull s stack) := by
  obtain ⟨hFresh, hLive⟩ := h
  cases hFresh with
  | once item =>
    cases item with
    -- a search that is known to have no results is not asked
    | none =>
      rw [Search.Live, Search.isExhausted] at hLive
      cases hLive
    | some item => exact returns_pure (sure_found hStack)
  | map f hInner =>
    rw [Search.Live, Search.isExhausted] at hLive
    exact returns_pure ⟨⟨hInner, hLive⟩, trivial, hStack⟩
  | bind f hOuter =>
    rw [Search.Live, Search.isExhausted] at hLive
    exact returns_pure ⟨⟨hOuter, hLive⟩, hRequirement, hStack⟩
  | within frame hInner =>
    rw [Search.Live, Search.isExhausted] at hLive
    exact returns_bind fun _ => returns_pure ⟨⟨hInner, hLive⟩, trivial, hStack⟩
  | choice alternatives => cases hChoice
  | product exprs => exact sure_startProduct exprs hStack
  | sequence statements => exact sure_startSequence statements hStack
  | loop header =>
    exact returns_bind fun _ => (sure_startLoop header).bind fun _ h =>
      sure_pullPhase header h [] hStack

/-- A result goes on to a search that is asked for the first time, or to a further result. -/
theorem sure_stepFound {i o : Kind} (item : i.Item) (rest : Search i) {p : Pending i o}
    {stack : Stack o} (hPending : p.Sure) (hStack : stack.Sure) :
    Returns Sure (stepFound retire item rest p stack) := by
  cases p with
  | map f => exact returns_bind fun _ => returns_pure (sure_found hStack)
  | outer f =>
    exact ((f.fresh_apply item).and (f.live_apply hPending item)).bind fun _ h =>
      returns_pure ⟨h, trivial, hStack⟩
  | inner f outer => exact returns_pure (sure_found hStack)
  | within frame => exact returns_bind fun _ => returns_pure (sure_found hStack)
  | choosing start alternatives => exact returns_pure (sure_found hStack)
  | operand exprs below values => exact sure_fillOperand _ _ _ _ hStack
  | statement index stmts below commit => exact sure_completeStatement _ _ _ hPending hStack
  | init header below =>
    exact (sure_startTest header).bind fun _ h => sure_pullPhase header h _ hStack
  | test header below => exact sure_afterTest header _ _ hStack
  | body header below => exact sure_afterBody header _ _ hStack
  | update header below =>
    exact (sure_startTest header).bind fun _ h => sure_pullPhase header h _ hStack

/-- After a step that evaluates neither `amb` nor `require`, no search has come back without a
result. -/
theorem sure_step {m : Machine} (h : m.Sure) (hAmb : m.asksAmb = false)
    (hRequire : m.asksRequire = false) : Returns Sure (m.step retire) := by
  obtain ⟨k, walk, stack⟩ := m
  obtain ⟨hWalk, hStack⟩ := h
  cases walk with
  | pull s => exact sure_stepPull hWalk hStack hAmb hRequire
  | found item rest =>
    cases stack with
    | nil => exact returns_pure ⟨hWalk, hStack⟩
    | push p stack => exact sure_stepFound item rest hStack.1 hStack.2
  | drained rest => exact hWalk.elim

end Machine

end AmbScript
