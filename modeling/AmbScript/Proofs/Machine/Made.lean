import AmbScript.Proofs.Machine.Run

/-!
# What a step is made of

Whatever a machine does in one step is a sequence of a few actions. So what all of these actions do
to a context, and what a sequence of two keeps, holds of every step.

* `Eval.Made` — a computation is made of these actions, none of which goes back to a moment.
* `Expr.made_start`, `Stmt.made_start`, `Expansion.made_apply` — the starts of nodes are.
* `Machine.formed_step` — so is every step, once a moment was noted or gone back to.
* `Machine.stepped_step` — what it comes to in the context that it goes on from.

`Made` turns a fact about all steps into one about each action, with the induction done once and for
all. It has an action for every way in which the machine touches its context, not for the reading of
it, except in `current`, `lookup` and `assign`, whose results depend on it.
-/

namespace AmbScript

variable {α β : Type} {retire : {k : Kind} → Search k → Bool}

namespace Eval

/-- The computation is a sequence of actions, each of which may depend on the results before it. -/
inductive Made : {α : Type} → Eval α → Prop
  | pure {α : Type} (a : α) : Made (pure a)
  | throw {α : Type} (t : Fault) : Made (throw t : Eval α)
  | bind {α β : Type} {x : Eval α} {f : α → Eval β} (hx : Made x) (hf : ∀ a, Made (f a)) :
      Made (x >>= f)
  | current : Made (get >>= fun c => Pure.pure c.current)
  | tick (span : Span) : Made (tick span)
  | newCell : Made newCell
  | showLine (v : Value) (heading : Option Value) : Made (Primitive.showLine v heading)
  | enter (frame : FrameId) : Made (enter frame)
  | leave : Made leave
  | openBlock (b : Block) : Made (openBlock b)
  | openLoop (init : Option LoopInit) : Made (openLoop init)
  | openCall (f : Function) (env : FrameId) (args : List Value) (span : Span) :
      Made (openCall f env args span)
  | openRound (init : Option LoopInit) (frame : FrameId) : Made (openRound init frame)
  | define (name : Ident) (v : Value) (isConst : Bool) : Made (define name v isConst)
  | lookup (name : Ident) : Made (lookup name)
  | assign (name : Ident) (v : Value) : Made (assign name v)

/-- An action whose result is only wrapped. -/
theorem Made.map {x : Eval α} {f : α → β} (h : Made x) : Made (x >>= fun a => Pure.pure (f a)) :=
  h.bind fun _ => .pure _

/-- A node that is counted first. -/
theorem Made.counted {span : Span} {x : Eval α} (h : Made x) :
    Made (Eval.tick span >>= fun _ => x) := (Made.tick span).bind fun _ => h

/-- A result that was computed without the context, or a fault. -/
theorem made_ofExcept (x : Except Fault α) : Made (ofExcept x) := by
  cases x with
  | ok a => exact .pure a
  | error t => exact .throw t

/-- A closure is a new cell. -/
theorem made_newClosure (f : Function) (frame : FrameId) : Made (newClosure f frame) :=
  Made.newCell.map

/-- A closure is made in the current frame. -/
theorem made_closure (f : Function) :
    Made (get >>= fun c => newClosure f c.current) := by
  have hFrame : (get >>= fun c => newClosure f c.current) =
      (get >>= fun c => Pure.pure c.current) >>= newClosure f := rfl
  rw [hFrame]
  exact Made.current.bind (made_newClosure f)

/-- A list is made of new cells, from its last pair to its first. -/
theorem made_listOnto (items : List Value) (done : Value) :
    Made (Primitive.listOnto items done) := by
  induction items generalizing done with
  | nil => exact .pure _
  | cons v vs ih => exact Made.newCell.map.bind fun _ => ih _

/-- A primitive makes cells, displays a line, or only computes. -/
theorem made_call (p : Primitive) (args : List Value) : Made (p.call args) := by
  unfold Primitive.call
  split
  case h_1 => exact Made.newCell.map.map
  case h_6 => exact (made_listOnto _ _).map
  case h_8 => exact (Made.showLine _ _).map
  case h_9 => exact (Made.showLine _ _).map
  all_goals exact .pure _

/-- Behind a fault nothing is done. -/
theorem made_throw_bind (t : Fault) (f : α → Eval β) : Made (throw t >>= f) := Made.throw t

/-- The number of arguments is checked first. -/
theorem made_applyPrimitive (p : Primitive) (args : List Value) (span : Span) :
    Made (applyPrimitive p args span) := by
  unfold applyPrimitive
  split
  · exact made_throw_bind _ _
  · refine (made_call p args).bind fun answer => ?_
    split
    · exact .pure _
    · exact .throw _

end Eval

open Eval

-- ---------------------------------------------------------------------------
-- Starts of nodes
-- ---------------------------------------------------------------------------

/-- A frame is opened for a block. -/
theorem Block.made_start (b : Block) : Made b.start := (Made.openBlock b).map

mutual

/-- The start of an expression, by recursion on its first operand. -/
theorem Expr.made_start : ∀ e : Expr, Made e.start
  | .number .. => .counted (.pure _)
  | .string .. => .counted (.pure _)
  | .bool .. => .counted (.pure _)
  | .null _ => .counted (.pure _)
  | .undefined _ => .counted (.pure _)
  | .array .. => .counted (.pure _)
  | .ident name => .counted (Made.lookup name).map
  | .assign _ value _ => .counted value.made_start.map
  | .unary _ operand _ => .counted operand.made_start.map
  | .binary _ left _ _ => .counted left.made_start.map
  | .logical _ left _ _ => .counted left.made_start.map
  | .conditional test _ _ _ => .counted test.made_start.map
  | .call callee args span => by
    unfold Expr.start
    refine .counted ?_
    split
    · exact .pure _
    · exact made_startRequire args span
    · exact callee.made_start.map
  | .index object _ _ => .counted object.made_start.map
  | .member object _ _ => .counted object.made_start.map
  | .function f => .counted (made_closure f).map

/-- `require` starts its predicate. -/
theorem made_startRequire : ∀ (args : List Expr) (span : Span), Made (startRequire args span)
  | [predicate], _ => predicate.made_start.map
  | [], _ => .throw _
  | _ :: _ :: _, _ => .throw _

end

/-- A branch starts its test. -/
theorem Branch.made_start (b : Branch) : Made b.start := by
  cases b with
  | mk test _ _ _ => exact .counted test.made_start.map

/-- The start of a statement. -/
theorem Stmt.made_start (s : Stmt) : Made s.start := by
  cases s with
  | expr e => exact .counted e.made_start.map
  | declare _ _ init _ => exact .counted init.made_start.map
  | returns value _ => exact .counted value.made_start.map
  | branch b => exact b.made_start
  | block b => exact .counted b.made_start
  | forLoop init _ _ _ _ => exact .counted (Made.openLoop init).map
  | _ => exact .counted (.pure _)

/-- What follows `else`. -/
theorem Alternate.made_start (a : Alternate) : Made a.start := by
  cases a with
  | absent => exact .pure _
  | block b => exact b.made_start
  | branch b => exact b.made_start

/-- A frame is opened for the call of a closure. -/
theorem made_startCall (function : Value) (args : List Value) (span : Span) :
    Made (startCall function args span) := by
  unfold startCall
  split
  · exact (Made.openCall _ _ _ _).map
  · exact (made_applyPrimitive _ _ _).map
  · exact .throw _

-- ---------------------------------------------------------------------------
-- Going on from a result
-- ---------------------------------------------------------------------------

/-- What is done with one result. -/
theorem Mapping.made_apply {i o : Kind} (f : Mapping i o) (item : i.Item) :
    Made (f.apply item) := by
  cases f with
  | array => exact Made.newCell.map
  | assign target => exact (Made.assign target _).map
  | unary op span => exact made_ofExcept _
  | binary op left span => exact made_ofExcept _
  | index object span => exact made_ofExcept _
  | member property span => exact .throw _
  | declare isConst name => exact (Made.define name _ isConst).map
  | _ => exact .pure _

/-- The right operand, or nothing. -/
theorem made_continueLogical (op : LogicalOp) (right : Expr) (leftSpan : Span) (left : Value) :
    Made (continueLogical op right leftSpan left) := by
  unfold continueLogical
  split
  · exact right.made_start
  · exact right.made_start
  · exact .pure _
  · exact .throw _

/-- One of the two results. -/
theorem made_continueConditional (consequent alternate : Expr) (testSpan : Span) (test : Value) :
    Made (continueConditional consequent alternate testSpan test) := by
  unfold continueConditional
  split
  · exact consequent.made_start
  · exact alternate.made_start
  · exact .throw _

/-- Nothing but a result or a failure. -/
theorem made_continueRequire (span : Span) (predicate : Value) :
    Made (continueRequire span predicate) := by
  unfold continueRequire
  split
  · exact .pure _
  · exact .pure _
  · exact .throw _

/-- One of the two blocks. -/
theorem made_continueBranch (consequent : Block) (alternate : Alternate) (testSpan : Span)
    (test : Value) : Made (continueBranch consequent alternate testSpan test) := by
  unfold continueBranch
  split
  · exact consequent.made_start
  · exact alternate.made_start
  · exact .throw _

/-- What a result leads to. -/
theorem Expansion.made_apply {i o : Kind} (f : Expansion i o) (item : i.Item) :
    Made (f.apply item) := by
  cases f with
  | binary op right span => exact right.made_start.map
  | logical op right leftSpan => exact made_continueLogical _ _ _ _
  | conditional consequent alternate testSpan => exact made_continueConditional _ _ _ _
  | callee args span => exact .pure _
  | arguments function span => exact made_startCall _ _ _
  | index key span => exact key.made_start.map
  | require span => exact made_continueRequire _ _
  | branch consequent alternate testSpan => exact made_continueBranch _ _ _ _

-- ---------------------------------------------------------------------------
-- Parts of a step
-- ---------------------------------------------------------------------------

namespace Machine

/-- The next alternative is started, if there is one. -/
theorem made_nextAlternative (start : Checkpoint) (alternatives : List Expr)
    (stack : Stack .value) : Made (nextAlternative start alternatives stack) := by
  cases alternatives with
  | nil => exact .pure _
  | cons e rest => exact e.made_start.map

/-- The first operand is started, if there is one. -/
theorem made_startProduct (exprs : List Expr) (stack : Stack .tuple) :
    Made (startProduct exprs stack) := by
  cases exprs with
  | nil => exact .pure _
  | cons e rest => exact e.made_start.map

/-- The next operand is started, or the product has a result. -/
theorem made_fillOperand (operand : Operand) (below : List Operand) (values : List Value)
    (v : Value) (stack : Stack .tuple) : Made (fillOperand operand below values v stack) := by
  unfold fillOperand
  split
  · exact .pure _
  · exact (Expr.made_start _).map

/-- A statement is started. -/
theorem made_startStatement (index : Nat) (stmt : Stmt) (rest : List Stmt)
    (below : List Reached) (commit : Option Nat) (stack : Stack .completion) :
    Made (startStatement index stmt rest below commit stack) := stmt.made_start.map

/-- The first one is, if there is one. -/
theorem made_startSequence (statements : List Stmt) (stack : Stack .completion) :
    Made (startSequence statements stack) := by
  cases statements with
  | nil => exact .pure _
  | cons stmt rest => exact made_startStatement _ _ _ _ _ _

/-- The next one is, if there is one and nothing leaves the sequence. -/
theorem made_completeStatement (index : Nat) (rest : List Stmt) (completion : Completion)
    (reached : List Reached) (commit : Option Nat) (stack : Stack .completion) :
    Made (completeStatement index rest completion reached commit stack) := by
  unfold completeStatement
  split
  · exact made_startStatement _ _ _ _ _ _
  · exact .pure _

section

variable (header : Loop) (phases : List Phase) (stack : Stack .completion)

/-- The frame of a loop is entered. -/
theorem made_enterLoop : Made (enterLoop header) := by
  cases header with
  | whileLoop test body => exact .pure _
  | forLoop init test update body frame => exact .enter frame

theorem made_leaveLoop : Made (leaveLoop header) := by
  cases header with
  | whileLoop test body => exact .pure _
  | forLoop init test update body frame => exact .leave

/-- The test is started, if there is one. -/
theorem made_startTest : Made (startTest header) := by
  cases header with
  | whileLoop test body => exact test.made_start.map
  | forLoop init test update body frame =>
    cases test with
    | none => exact .pure _
    | some test => exact test.made_start.map

theorem made_startLoop : Made (startLoop header) := by
  unfold startLoop
  split
  · exact (Stmt.made_start _).map
  · exact made_startTest _

theorem made_startUpdate : Made (startUpdate header) := by
  unfold startUpdate
  split
  · exact (Expr.made_start _).map
  · exact made_startTest _

/-- The body is started in a frame of its round. -/
theorem made_startBody : Made (startBody header) := by
  cases header with
  | whileLoop test body => exact body.made_start.map
  | forLoop init test update body frame =>
    exact (Made.openRound init frame).bind fun round => (Made.enter round).bind fun _ =>
      body.made_start.bind fun _ => Made.leave.map

/-- The part that was started last is asked for more. -/
theorem made_pullPhase : Made (pullPhase header phases stack) := by
  unfold pullPhase
  split
  · exact (made_leaveLoop header).map
  all_goals exact .pure _

/-- The frame of the loop is left with its result. -/
theorem made_completeLoop (completion : Completion) :
    Made (completeLoop header phases completion stack) := (made_leaveLoop header).map

/-- The body is started, or the loop is over. -/
theorem made_afterTest (test : Value) : Made (afterTest header phases test stack) := by
  unfold afterTest
  split
  · exact (made_startBody header).bind fun _ => made_pullPhase header _ stack
  · exact made_completeLoop _ _ _ _
  · exact .throw _

/-- The next round is begun, or the loop is left. -/
theorem made_afterBody (completion : Completion) :
    Made (afterBody header phases completion stack) := by
  unfold afterBody
  split
  · exact (made_startUpdate header).bind fun _ => made_pullPhase header _ stack
  · exact (made_startUpdate header).bind fun _ => made_pullPhase header _ stack
  · exact made_completeLoop _ _ _ _
  · exact made_completeLoop _ _ _ _

end

-- ---------------------------------------------------------------------------
-- The step
-- ---------------------------------------------------------------------------

/-- Whatever waits for a result goes on with it. -/
theorem made_stepFound {i o : Kind} (item : i.Item) (rest : Search i) (p : Pending i o)
    (stack : Stack o) : Made (stepFound retire item rest p stack) := by
  cases p with
  | map f => exact (f.made_apply item).map
  | outer f => exact (f.made_apply item).map
  | inner f outer => exact .pure _
  | within frame => exact Made.leave.map
  | choosing start alternatives => exact .pure _
  | operand exprs below values => exact made_fillOperand _ _ _ _ _
  | statement index stmts below commit => exact made_completeStatement _ _ _ _ _ _
  | init header below => exact (made_startTest header).bind fun _ => made_pullPhase _ _ _
  | test header below => exact made_afterTest _ _ _ _
  | body header below => exact made_afterBody _ _ _ _
  | update header below => exact (made_startTest header).bind fun _ => made_pullPhase _ _ _

/-- What a step is: it may first note the present moment, or go back to an earlier one, and is made
of other actions from there on. -/
inductive Formed (m : Machine) : Eval Machine → Prop
  | plain {x : Eval Machine} (h : Made x) (hPlain : m.restores? = none) : Formed m x
  | noting {f : Checkpoint → Eval Machine} (h : ∀ start, Made (f start))
      (hNoting : m.restores? = none) : Formed m (Eval.checkpoint >>= f)
  | restoring {x : Eval Machine} (h : Made x) {start : Checkpoint}
      (hRestores : m.restores? = some start) : Formed m (Eval.restore start >>= fun _ => x)

/-- A search is asked for a result. Only a choice that begins notes the moment. -/
theorem formed_pull {k : Kind} (s : Search k) (stack : Stack k) :
    Formed (pull s stack) (stepPull s stack) := by
  cases s with
  | once item => cases item <;> exact .plain (.pure _) rfl
  | within frame inner => exact .plain (Made.enter frame).map rfl
  -- the one pull that notes a moment before it acts
  | choice alternatives =>
    exact .noting (fun start => made_nextAlternative start alternatives stack) rfl
  | choosing start current alternatives =>
    cases current with
    | none => exact .plain (made_nextAlternative start alternatives stack) rfl
    | some s => exact .plain (.pure _) rfl
  | product exprs => exact .plain (made_startProduct exprs stack) rfl
  | sequence statements => exact .plain (made_startSequence statements stack) rfl
  | loop header =>
    exact .plain ((made_enterLoop header).bind fun _ => (made_startLoop header).bind fun _ =>
      made_pullPhase _ _ _) rfl
  | looping header phases =>
    exact .plain ((made_enterLoop header).bind fun _ => made_pullPhase _ _ _) rfl
  | _ => exact .plain (.pure _) rfl

/-- A search has no more results. Only a choice goes back to its moment. -/
theorem formed_drained {i o : Kind} (rest : Search i) (p : Pending i o) (stack : Stack o) :
    Formed (drained rest (.push p stack)) (stepDrained rest p stack) := by
  cases p with
  | within frame => exact .plain Made.leave.map rfl
  | choosing start alternatives =>
    exact .restoring (made_nextAlternative start alternatives stack) rfl
  | init header below | test header below | body header below | update header below =>
    exact .plain (made_pullPhase header below stack) rfl
  | _ => exact .plain (.pure _) rfl

variable (retire) in
/-- Every step is of one of the three forms. -/
theorem formed_step (m : Machine) : Formed m (m.step retire) := by
  obtain ⟨k, walk, stack⟩ := m
  cases walk with
  | pull s => exact formed_pull s stack
  | found item rest =>
    cases stack with
    | nil => exact .plain (.pure _) rfl
    | push p below => exact .plain (made_stepFound item rest p below) rfl
  | drained rest =>
    cases stack with
    | nil => exact .plain (.pure _) rfl
    | push p below => exact formed_drained rest p below

/-- What a step comes to in the context `c`: other actions are taken from the context that it goes
on from. -/
inductive Stepped (m : Machine) (c : Context) : EStateM.Result Fault Context Machine → Prop
  | plain {x : Eval Machine} (h : Made x) (hPlain : m.restores? = none) : Stepped m c (x c)
  | noted {x : Eval Machine} (h : Made x) (hNoted : m.restores? = none) :
      Stepped m c (x c.checkpoint)
  | restored {x : Eval Machine} (h : Made x) {start : Checkpoint}
      (hRestores : m.restores? = some start) : Stepped m c (x (c.restore start))

/-- What a computation of such a form comes to. -/
theorem Formed.stepped {m : Machine} {x : Eval Machine} (h : Formed m x) (c : Context) :
    Stepped m c (x c) := by
  cases h with
  | plain hMade hPlain => exact .plain hMade hPlain
  | noting hMade hNoting => exact .noted (hMade c.moment) hNoting
  | restoring hMade hRestores => exact .restored hMade hRestores

variable (retire) in
/-- Every step is made of actions, from the context that it goes on from. -/
theorem stepped_step (m : Machine) (c : Context) : Stepped m c (m.step retire c) :=
  (m.formed_step retire).stepped c

end Machine

end AmbScript
