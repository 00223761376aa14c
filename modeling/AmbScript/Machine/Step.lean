import AmbScript.Machine.Start

/-!
# The machine

Asking a search for its next result is a walk down to the search that has one and back up. The
machine takes this walk in small steps, with a stack of the searches that wait for a result of
one of their parts. So no depth of calls costs native stack, and a run can be stopped and looked
at between any two steps.

* `Machine.step` is one step; `Machine.finished?` is the answer once the walk is over.
* `Machine.run` takes up to a number of steps.
-/

namespace AmbScript

/-- A search that waits for a result of kind `i` of one of its parts; its own results are of kind
`o`. What is said of the part is left out. -/
inductive Pending : Kind → Kind → Type
  | map {i o : Kind} (f : Mapping i o) : Pending i o
  | outer {i o : Kind} (f : Expansion i o) : Pending i o
  | inner {i o : Kind} (f : Expansion i o) (outer : Search i) : Pending o o
  | within {k : Kind} (frame : FrameId) : Pending k k
  | choosing (start : Checkpoint) (alternatives : List Expr) : Pending .value .value
  | operand (rest : List Expr) (below : List Operand) (values : List Value) :
      Pending .value .tuple
  | statement (index : Nat) (rest : List Stmt) (below : List Reached) (commit : Option Nat) :
      Pending .completion .completion
  | init (header : Loop) (below : List Phase) : Pending .completion .completion
  | test (header : Loop) (below : List Phase) : Pending .value .completion
  | body (header : Loop) (below : List Phase) : Pending .completion .completion
  | update (header : Loop) (below : List Phase) : Pending .value .completion

/-- The searches that wait for a result of kind `k`, from the inside out. The outermost one finds
values. -/
inductive Stack : Kind → Type
  | nil : Stack .value
  | push {i o : Kind} (p : Pending i o) (below : Stack o) : Stack i

/-- Where the walk is. -/
inductive Walk (k : Kind) : Type
  /-- On the way down: a result of the search is asked for. -/
  | pull (s : Search k)
  /-- On the way up: with a result, and what is left of the search. -/
  | found (item : k.Item) (rest : Search k)
  /-- On the way up: the search had no more results. -/
  | drained (rest : Search k)

structure Machine where
  kind : Kind
  walk : Walk kind
  stack : Stack kind

namespace Machine

/-- A result of `s` is asked for. -/
def pull {k : Kind} (s : Search k) (stack : Stack k) : Machine := ⟨k, .pull s, stack⟩

def found {k : Kind} (item : k.Item) (rest : Search k) (stack : Stack k) : Machine :=
  ⟨k, .found item rest, stack⟩

def drained {k : Kind} (rest : Search k) (stack : Stack k) : Machine := ⟨k, .drained rest, stack⟩

/-- The walk that asks for the next value of a search. -/
def ofSearch (s : Search .value) : Machine := pull s .nil

/-! ## Alternatives -/

/-- On to the next alternative, or to the end. -/
def nextAlternative (start : Checkpoint) (alternatives : List Expr) (stack : Stack .value) :
    Eval Machine :=
  match alternatives with
  | [] => return drained (.choosing start none []) stack
  | e :: rest => do return pull (← e.start) (.push (.choosing start rest) stack)

/-! ## Lists of expressions -/

/-- Asks the last operand for a value, if there is an operand. -/
def pullOperand (operands : List Operand) (values : List Value) (stack : Stack .tuple) : Machine :=
  match operands with
  | [] => drained (.producing [] values) stack
  | .mk rest s :: below => pull s (.push (.operand rest below values) stack)

/-- Starts on the first expression; of none there is one combination. -/
def startProduct (exprs : List Expr) (stack : Stack .tuple) : Eval Machine :=
  match exprs with
  | [] => return found (k := .tuple) [] (.producing [] []) stack
  | e :: rest => do return pullOperand [.mk rest (← e.start)] [] stack

/-- The last operand has found a value: with values for all the combination is complete, else the
next operand is started. -/
def fillOperand (operand : Operand) (below : List Operand) (values : List Value) (v : Value)
    (stack : Stack .tuple) : Eval Machine :=
  match operand with
  -- the search of the last operand stays on top, to be asked for another combination
  | .mk [] _ =>
    return found (k := .tuple) (v :: values).reverse (.producing (operand :: below) values) stack
  | .mk (e :: rest) _ => do
    return pullOperand (.mk rest (← e.start) :: operand :: below) (v :: values) stack

/-! ## Statements -/

/-- Asks the last statement reached for a completion, unless a later one has committed. -/
def pullStatement (reached : List Reached) (commit : Option Nat) (stack : Stack .completion) :
    Machine :=
  match reached with
  | [] => drained (.sequenced [] commit) stack
  | .mk index rest s :: below =>
    -- a cut in a later statement: what was reached before it is given up
    if commit.any (index < ·) then drained (.sequenced [] commit) stack
    else pull s (.push (.statement index rest below commit) stack)

/-- Starts the statement with number `index`. -/
def startStatement (index : Nat) (stmt : Stmt) (rest : List Stmt) (below : List Reached)
    (commit : Option Nat) (stack : Stack .completion) : Eval Machine := do
  -- a cut commits as soon as it is reached
  let commit := match stmt with
    | .cut _ => some index
    | _ => commit
  return pullStatement (.mk index rest (← stmt.start) :: below) commit stack

def startSequence (statements : List Stmt) (stack : Stack .completion) : Eval Machine :=
  match statements with
  | [] => return found (k := .completion) (.value .undefined) (.sequenced [] none) stack
  | stmt :: rest => startStatement 0 stmt rest [] none stack

/-- A statement has completed: an ordinary completion goes on to the next statement, if there is
one. -/
def completeStatement (index : Nat) (rest : List Stmt) (completion : Completion)
    (reached : List Reached) (commit : Option Nat) (stack : Stack .completion) : Eval Machine :=
  match completion, rest with
  | .value _, stmt :: rest => startStatement (index + 1) stmt rest reached commit stack
  | completion, _ => return found (k := .completion) completion (.sequenced reached commit) stack

/-! ## Loops -/

/-- Enters the frame of the loop's variables, if it has one. -/
def enterLoop : Loop → Eval Unit
  | .whileLoop .. => return
  | .forLoop _ _ _ _ frame => Eval.enter frame

def leaveLoop : Loop → Eval Unit
  | .whileLoop .. => return
  | .forLoop .. => Eval.leave

/-- Where the value of the test is reported. -/
def testSpan : Loop → Span
  | .whileLoop test _ => test.span
  | .forLoop _ test _ body _ => (test.map Expr.span).getD body.span

/-- The test; a missing one holds. -/
def startTest : Loop → Eval Phase
  | .whileLoop test _ => do return .test (← test.start)
  | .forLoop _ test _ _ _ =>
    match test with
    | some test => do return .test (← test.start)
    -- nothing is counted for it
    | none => return .test (.found (.bool true))

/-- What comes first in the loop. -/
def startLoop (header : Loop) : Eval Phase :=
  match header with
  | .forLoop (some init) _ _ _ _ => do return .init (← init.toStmt.start)
  | header => startTest header

/-- The body in a new frame; in a `for` loop that is inside the frame of the round. -/
def startBody : Loop → Eval Phase
  | .whileLoop _ body => do return .body (← body.start)
  | .forLoop init _ _ body frame => do
    let round ← Eval.openRound init frame
    Eval.enter round
    -- left again at once: `within` enters the frame whenever the body is asked
    let s ← body.start
    Eval.leave
    return .body (.within round s)

/-- What comes after the body. -/
def startUpdate : Loop → Eval Phase
  | .forLoop _ _ (some update) _ _ => do return .update (← update.start)
  | header => startTest header

/-- Asks the last part of the loop reached for a result, if there is one. -/
def pullPhase (header : Loop) (phases : List Phase) (stack : Stack .completion) : Eval Machine :=
  match phases with
  -- the last phase reached is on top, so going back is going down the list
  | [] => do
    leaveLoop header
    return drained (.looping header []) stack
  | .init s :: below => return pull s (.push (.init header below) stack)
  | .test s :: below => return pull s (.push (.test header below) stack)
  | .body s :: below => return pull s (.push (.body header below) stack)
  | .update s :: below => return pull s (.push (.update header below) stack)

/-- The loop has completed. -/
def completeLoop (header : Loop) (phases : List Phase) (completion : Completion)
    (stack : Stack .completion) : Eval Machine := do
  leaveLoop header
  return found (k := .completion) completion (.looping header phases) stack

/-- The test has a value. -/
def afterTest (header : Loop) (phases : List Phase) (test : Value) (stack : Stack .completion) :
    Eval Machine :=
  match test with
  | .bool true => do pullPhase header ((← startBody header) :: phases) stack
  | .bool false => completeLoop header phases (.value .undefined) stack
  | v => nonBoolean v (testSpan header)

/-- The body has completed. -/
def afterBody (header : Loop) (phases : List Phase) (completion : Completion)
    (stack : Stack .completion) : Eval Machine :=
  match completion with
  | .value _ => do pullPhase header ((← startUpdate header) :: phases) stack
  -- as when the body comes to its end
  | .continueLoop => do pullPhase header ((← startUpdate header) :: phases) stack
  -- the phases stay: asked again, the loop goes back into the round it was left in
  | .breakLoop => completeLoop header phases (.value .undefined) stack
  | .returns v => completeLoop header phases (.returns v) stack

/-! ## The step -/

/-- One step down. -/
def stepPull {k : Kind} (s : Search k) (stack : Stack k) : Eval Machine :=
  match k, s, stack with
  | _, .once none, stack => return drained .failed stack
  -- the only result, so nothing is left
  | _, .once (some item), stack => return found item .failed stack
  | _, .map f inner, stack => return pull inner (.push (.map f) stack)
  | _, .bind f outer, stack => return pull outer (.push (.outer f) stack)
  | _, .binding f outer inner, stack => return pull inner (.push (.inner f outer) stack)
  | _, .within frame inner, stack => do
    Eval.enter frame
    return pull inner (.push (.within frame) stack)
  -- the moment is noted once, and every alternative starts from it
  | _, .choice alternatives, stack => do nextAlternative (← Eval.checkpoint) alternatives stack
  | _, .choosing start (some s) alternatives, stack =>
    return pull s (.push (.choosing start alternatives) stack)
  | _, .choosing start none alternatives, stack => nextAlternative start alternatives stack
  | _, .product exprs, stack => startProduct exprs stack
  | _, .producing operands values, stack => return pullOperand operands values stack
  | _, .sequence statements, stack => startSequence statements stack
  | _, .sequenced reached commit, stack => return pullStatement reached commit stack
  | _, .loop header, stack => do
    enterLoop header
    pullPhase header [← startLoop header] stack
  -- asked again, in the frame that was left with the last result
  | _, .looping header phases, stack => do
    enterLoop header
    pullPhase header phases stack

/-- `rest` on top of what lies below, unless it may be dropped. -/
def keep {α : Type} (dropped : Bool) (top : α) (below : List α) : List α :=
  if dropped then below else top :: below

/-- One step up with a result. `retire` tells which searches are dropped as soon as they have no
more results. -/
def stepFound (retire : {k : Kind} → Search k → Bool) {i o : Kind} (item : i.Item)
    (rest : Search i) (p : Pending i o) (stack : Stack o) : Eval Machine :=
  match i, o, p, item, rest, stack with
  | _, _, .map f, item, rest, stack => do return found (← f.apply item) (.map f rest) stack
  | _, _, .outer f, item, rest, stack => do
    return pull (← f.apply item) (.push (.inner f rest) stack)
  | _, _, .inner f outer, item, rest, stack =>
    return found item (if retire rest then .bind f outer else .binding f outer rest) stack
  | _, _, .within frame, item, rest, stack => do
    -- what comes next with the result is outside the frame
    Eval.leave
    return found item (.within frame rest) stack
  | _, _, .choosing start alternatives, item, rest, stack =>
    return found (k := .value) item (.choosing start (some rest) alternatives) stack
  | _, _, .operand exprs below values, v, rest, stack =>
    fillOperand (.mk exprs rest) below values v stack
  | _, _, .statement index stmts below commit, completion, rest, stack =>
    completeStatement index stmts completion (keep (retire rest) (.mk index stmts rest) below) commit
      stack
  | _, _, .init header below, _, rest, stack => do
    pullPhase header ((← startTest header) :: keep (retire rest) (.init rest) below) stack
  | _, _, .test header below, v, rest, stack =>
    afterTest header (keep (retire rest) (.test rest) below) v stack
  | _, _, .body header below, completion, rest, stack =>
    afterBody header (keep (retire rest) (.body rest) below) completion stack
  | _, _, .update header below, _, rest, stack => do
    pullPhase header ((← startTest header) :: keep (retire rest) (.update rest) below) stack

/-- One step up without a result. -/
def stepDrained {i o : Kind} (rest : Search i) (p : Pending i o) (stack : Stack o) :
    Eval Machine :=
  match i, o, p, rest, stack with
  | _, _, .map f, rest, stack => return drained (.map f rest) stack
  | _, _, .outer f, rest, stack => return drained (.bind f rest) stack
  -- back to the outer search for another result to start from
  | _, _, .inner f outer, _, stack => return pull outer (.push (.outer f) stack)
  | _, _, .within frame, rest, stack => do
    Eval.leave
    return drained (.within frame rest) stack
  | _, _, .choosing start alternatives, _, stack => do
    -- what the alternative has changed is undone before the next one starts
    Eval.restore start
    nextAlternative start alternatives stack
  -- the value on top is that of the operand below, which is asked for another
  | _, _, .operand _ below values, _, stack => return pullOperand below values.tail stack
  | _, _, .statement _ _ below commit, _, stack => return pullStatement below commit stack
  | _, _, .init header below, _, stack => pullPhase header below stack
  | _, _, .test header below, _, stack => pullPhase header below stack
  | _, _, .body header below, _, stack => pullPhase header below stack
  | _, _, .update header below, _, stack => pullPhase header below stack

/-- The walk is over: the value, if there was one more, and the search that is left. -/
def finished? (m : Machine) : Option (Option Value × Search .value) :=
  match m with
  | ⟨_, .found v rest, .nil⟩ => some (some v, rest)
  | ⟨_, .drained rest, .nil⟩ => some (none, rest)
  | _ => none

/-- One step of the walk; none once it is over. -/
def step (retire : {k : Kind} → Search k → Bool) (m : Machine) : Eval Machine :=
  match m with
  | ⟨_, .pull s, stack⟩ => stepPull s stack
  | ⟨_, .found item rest, .push p stack⟩ => stepFound retire item rest p stack
  | ⟨_, .drained rest, .push p stack⟩ => stepDrained rest p stack
  -- nothing waits for the answer: the walk is over
  | m => return m

/-- Up to `n` steps of the walk. -/
def run (retire : {k : Kind} → Search k → Bool) : Nat → Machine → Eval Machine
  | 0, m => return m
  | n + 1, m =>
    match m.finished? with
    | some _ => return m
    | none => do run retire n (← m.step retire)

end Machine

end AmbScript
