import AmbScript.Proofs.Declaration.Step
import AmbScript.Proofs.Machine.Budget

/-!
# Scopes that a step enters

A step enters one block or one body of a function at most. If it declares no name twice, the step
does not fail to declare a name; otherwise the step fails, with the first name that is there
already. Nothing else fails to declare a name: not a declaration that gives its name a value, as
that has been a placeholder until then.

* `Machine.enters?` — the scope that the next step enters.
* `Eval.Enters` — an action fails to declare a name just as the scope that it enters says.
* `Machine.refusal?_step` — so does a step.

Most actions are `Clear`: whatever they fail with, it is not that a name is declared again. What is
left are those that open a scope, and each step performs one of them at most, as its last part that
can fail in this way. This is why `enters_bind` asks nothing of the second action but to be clear.
-/

namespace AmbScript

variable {α β : Type} {W : Checkpoint → List Promise → Prop} {outer : List FrameId}
  {ps : List Promise} {retire : {k : Kind} → Search k → Bool}

open Eval

-- ---------------------------------------------------------------------------
-- The scope of a step
-- ---------------------------------------------------------------------------

/-- A statement is counted before it is entered. -/
def Stmt.enters? (c : Context) : Stmt → Option Construct
  | .block b => if c.counted.exceeded? b.span = none then some (.block b) else none
  | .forLoop init _ _ _ span => if c.counted.exceeded? span = none then some (.loop init) else none
  | _ => none

/-- A block behind `else` is entered at once; another branch has its condition first. -/
def Alternate.enters? : Alternate → Option Construct
  | .block b => some (.block b)
  | _ => none

/-- A function is entered with as many arguments as it has parameters. -/
def Value.enters? (args : List Value) : Value → Option Construct
  | .closure _ f _ => if f.params.length = args.length then some (.call f) else none
  | _ => none

/-- The scope that is entered as soon as the piece is gone on with. -/
def Node.enters? (c : Context) : Node → Option Construct
  | .stmt s => s.enters? c
  | .block b => some (.block b)
  | .alternate a => a.enters?
  | _ => none

/-- The scope that is entered when a result is gone on with. -/
def Expansion.enters? (c : Context) {i o : Kind} (g : Expansion i o) (item : i.Item) :
    Option Construct :=
  match i, o, g, item with
  | _, _, .arguments function _, args => function.enters? args
  | _, _, g, item => g.node? item >>= Node.enters? c

/-- The scope that is entered when the part has found `item`. -/
def Pending.enters? (c : Context) {i o : Kind} (p : Pending i o) (item : i.Item) :
    Option Construct :=
  match i, o, p, item with
  | _, _, .outer g, item => g.enters? c item
  | _, _, .test header _, .bool true => some (.block header.body)
  | _, _, p, item => p.node? item >>= Node.enters? c

/-- The scope that the next step enters, if any. -/
def Machine.enters? (c : Context) : Machine → Option Construct
  | ⟨_, .pull s, _⟩ => s.node? >>= Node.enters? c
  | ⟨_, .found item _, .push p _⟩ => p.enters? c item
  | _ => none

-- ---------------------------------------------------------------------------
-- Actions that enter a scope
-- ---------------------------------------------------------------------------

namespace Eval

/-- The action fails to declare a name if the scope that it enters has one that is there already. -/
def Enters (k? : Context → Option Construct) (x : Eval α) : Prop :=
  ∀ c, refusal? (x c) = k? c >>= Construct.redeclared?

variable {k? : Context → Option Construct}

/-- The action enters no scope. -/
theorem Clear.enters {x : Eval α} (h : Clear x) : Enters (fun _ => none) x :=
  h.refusal?_eq_none

/-- An action that enters nothing, where nothing is named. -/
theorem Clear.enters_none {x : Eval α} (h : Clear x) (hNone : ∀ c, k? c = none) : Enters k? x :=
  funext hNone ▸ h.enters

/-- What comes after the scope was entered does not fail to declare a name. -/
theorem enters_bind {x : Eval α} {g : α → Eval β} (hx : Enters k? x) (hg : ∀ a, Clear (g a)) :
    Enters k? (x >>= g) := fun c => (refusal?_bind hg c).trans (hx c)

/-- Nothing is entered beyond a limit. -/
theorem enters_counted {span : Span} {k : Construct} {x : Eval α} (h : Enters (fun _ => some k) x) :
    Enters (fun c => if c.counted.exceeded? span = none then some k else none)
      (tick span >>= fun _ => x) := by
  intro c
  show _ = (if c.counted.exceeded? span = none then some k else none) >>= Construct.redeclared?
  have hTick := tick_apply span c
  cases hExceeded : c.counted.exceeded? span with
  | none =>
    rw [hExceeded] at hTick
    rw [refusal?_bind_of_ok hTick, if_pos rfl]
    exact h c.counted
  | some t =>
    rw [hExceeded] at hTick
    rw [bind_of_error hTick, if_neg (Option.some_ne_none t)]
    exact Fault.redeclared?_of_isOfName (isOfName_exceeded hExceeded)

/-- To count a node may fail, but not because of a name. -/
theorem Clear.counted {span : Span} {x : Eval α} (h : Clear x) :
    Clear (tick span >>= fun _ => x) := by
  refine faults_bind (faults_tick span).clear fun _ => ?_
  exact h

/-- What is made of the result does not fail. -/
theorem Clear.map {x : Eval α} (h : Clear x) (f : α → β) : Clear (x >>= fun a => pure (f a)) :=
  faults_bind h fun _ => faults_pure _

/-- A primitive that fails does so in its answer. -/
theorem faults_call {P : Fault → Prop} (p : Primitive) (args : List Value) :
    Faults P (p.call args) := by
  have hPair (v w : Value) : Faults P (Primitive.newPair v w) :=
    faults_bind faults_newCell fun _ => faults_pure _
  have hList (vs : List Value) (w : Value) : Faults P (Primitive.listOnto vs w) := by
    induction vs generalizing w with
    | nil => exact faults_pure _
    | cons v vs ih => exact faults_bind (hPair v w) ih
  have hShow (v : Value) (heading : Option Value) : Faults P (Primitive.showLine v heading) :=
    faults_bind (faults_modify _) fun _ => faults_pure _
  unfold Primitive.call
  split
  case h_1 => exact faults_bind (hPair _ _) fun _ => faults_pure _
  case h_6 => exact faults_bind (hList _ _) fun _ => faults_pure _
  case h_8 => exact faults_bind (hShow _ _) fun _ => faults_pure _
  case h_9 => exact faults_bind (hShow _ _) fun _ => faults_pure _
  all_goals exact faults_pure _

/-- Primitives declare nothing. -/
theorem clear_applyPrimitive (p : Primitive) (args : List Value) (span : Span) :
    Clear (applyPrimitive p args span) := by
  unfold applyPrimitive
  split
  · exact faults_throw rfl
  · refine faults_bind (faults_call p args) fun answer => ?_
    split
    · exact faults_pure _
    · exact faults_throw rfl

end Eval

-- ---------------------------------------------------------------------------
-- Nodes
-- ---------------------------------------------------------------------------

/-- A block is entered at once. -/
theorem Block.enters_start (b : Block) : Enters (fun _ => some (.block b)) b.start := by
  refine enters_bind ?_ ?_
  · intro c
    exact refusal?_openBlock b c
  · intro _
    exact faults_pure _

mutual

/-- Expressions enter nothing before they are asked for results. -/
theorem Expr.clear_start : ∀ e : Expr, Clear e.start
  | .number .. => .counted (faults_pure _)
  | .string .. => .counted (faults_pure _)
  | .bool .. => .counted (faults_pure _)
  | .null _ => .counted (faults_pure _)
  | .undefined _ => .counted (faults_pure _)
  | .array .. => .counted (faults_pure _)
  | .ident name => .counted (.map (clear_lookup name) _)
  | .assign _ value _ => .counted (.map value.clear_start _)
  | .unary _ operand _ => .counted (.map operand.clear_start _)
  | .binary _ left _ _ => .counted (.map left.clear_start _)
  | .logical _ left _ _ => .counted (.map left.clear_start _)
  | .conditional test _ _ _ => .counted (.map test.clear_start _)
  | .call callee args span => by
    unfold Expr.start
    refine .counted ?_
    split
    · exact faults_pure _
    · exact clear_startRequire args span
    · exact .map callee.clear_start _
  | .index object _ _ => .counted (.map object.clear_start _)
  | .member object _ _ => .counted (.map object.clear_start _)
  | .function _ => by
    refine .counted ?_
    refine faults_bind faults_get fun _ => ?_
    exact Clear.map (Clear.map faults_newCell _) _

theorem clear_startRequire : ∀ (args : List Expr) (span : Span), Clear (startRequire args span)
  | [predicate], _ => .map predicate.clear_start _
  | [], _ => faults_throw rfl
  | _ :: _ :: _, _ => faults_throw rfl

end

/-- A branch starts with its condition, which is an expression. -/
theorem Branch.clear_start (b : Branch) : Clear b.start := by
  cases b with
  | mk test consequent alternate span => exact .counted (.map test.clear_start _)

/-- A statement enters at once what it is said to enter. -/
theorem Stmt.enters_start (s : Stmt) : Enters s.enters? s.start := by
  cases s with
  | expr e => exact Clear.enters (.counted (.map e.clear_start _))
  | declare isConst name init span => exact Clear.enters (.counted (.map init.clear_start _))
  | returns value span => exact Clear.enters (.counted (.map value.clear_start _))
  | branch b => exact b.clear_start.enters
  | block b => exact enters_counted b.enters_start
  | forLoop init test update body span =>
    refine enters_counted (enters_bind (fun c => ?_) fun _ => faults_pure _)
    exact refusal?_openLoop init c
  | _ => exact Clear.enters (.counted (faults_pure _))

theorem Alternate.enters_start (a : Alternate) : Enters (fun _ => a.enters?) a.start := by
  cases a with
  | absent => exact Clear.enters (faults_pure _)
  | block b => exact b.enters_start
  | branch b => exact b.clear_start.enters

/-- A call enters the body of the function. -/
theorem enters_startCall (function : Value) (args : List Value) (span : Span) :
    Enters (fun _ => function.enters? args) (startCall function args span) := by
  cases function with
  | closure cell f env =>
    refine enters_bind (fun c => (refusal?_openCall f env args span c).trans ?_)
      fun _ => faults_pure _
    show _ = (if f.params.length = args.length then some (Construct.call f) else none) >>= _
    split <;> rfl
  | primitive p => exact Clear.enters (.map (clear_applyPrimitive p args span) _)
  | _ => exact Clear.enters (faults_throw rfl)

theorem clear_nonBoolean (v : Value) (span : Span) : Clear (nonBoolean v span : Eval α) :=
  faults_throw rfl

/-- What is started for a result enters what it is said to enter. -/
theorem Expansion.enters_apply {i o : Kind} (g : Expansion i o) (item : i.Item) :
    Enters (fun c => g.enters? c item) (g.apply item) := by
  cases g with
  | binary op right span => exact Clear.enters (.map right.clear_start _)
  -- Only the left operands that decide nothing go on to the right one, which is an expression.
  | logical op right leftSpan =>
    cases item with
    | bool b =>
      cases op <;> cases b
      · exact Clear.enters (faults_pure _)
      · exact right.clear_start.enters
      · exact right.clear_start.enters
      · exact Clear.enters (faults_pure _)
    | _ => cases op <;> exact (clear_nonBoolean _ _).enters
  | conditional consequent alternate testSpan =>
    cases item with
    | bool b =>
      cases b
      · exact alternate.clear_start.enters
      · exact consequent.clear_start.enters
    | _ => exact (clear_nonBoolean _ _).enters
  | callee args span => exact Clear.enters (faults_pure _)
  | arguments function span => exact enters_startCall function item span
  | index key span => exact Clear.enters (.map key.clear_start _)
  | require span =>
    cases item with
    | bool b => cases b <;> exact Clear.enters (faults_pure _)
    | _ => exact Clear.enters (faults_throw rfl)
  | branch consequent alternate testSpan =>
    cases item with
    | bool b =>
      cases b
      · exact alternate.enters_start
      · exact consequent.enters_start
    | _ => exact (clear_nonBoolean _ _).enters

/-- A declaration finds its name as a placeholder, and can give it its value. -/
theorem Mapping.refusal?_apply {i o : Kind} (g : Mapping i o) (item : i.Item) {c : Context}
    (h : c.store.Awaits (g.promises c.current ++ ps)) : refusal? (g.apply item c) = none := by
  have hClear (hApply : Clear (g.apply item)) : refusal? (g.apply item c) = none :=
    hApply.refusal?_eq_none c
  cases g with
  | declare isConst name =>
    have hDefine : define name item isConst c = .ok () _ :=
      defineIn_eq_ok item isConst (h.placeholder _ List.mem_cons_self)
    exact refusal?_bind_of_ok hDefine
  | assign target => exact hClear (.map (clear_assign target item) _)
  | array => exact hClear (Clear.map faults_newCell _)
  | unary op span => exact hClear (faults_ofExcept fun _ => isOfName_of_unary).clear
  | binary op left span => exact hClear (faults_ofExcept fun _ => isOfName_of_binary).clear
  | index object span => exact hClear (faults_ofExcept fun _ => isOfName_of_index).clear
  | member property span => exact hClear (faults_throw rfl)
  | _ => exact hClear (faults_pure _)

-- ---------------------------------------------------------------------------
-- Steps
-- ---------------------------------------------------------------------------

/-- The test and the beginning of a loop have no scope of their own. -/
theorem Loop.enters?_testNode (header : Loop) (c : Context) :
    header.testNode? >>= Node.enters? c = none := by
  cases header with
  | whileLoop test body => rfl
  | forLoop init test update body frame => cases test <;> rfl

/-- The first part of a loop enters no scope at once. -/
theorem Loop.enters?_firstNode (header : Loop) (c : Context) :
    header.firstNode? >>= Node.enters? c = none := by
  unfold Loop.firstNode?
  split
  · rename_i init test update body frame
    cases init <;> rfl
  · exact header.enters?_testNode c

theorem Loop.enters?_nextNode (header : Loop) (c : Context) :
    header.nextNode? >>= Node.enters? c = none := by
  unfold Loop.nextNode?
  split
  · rfl
  · exact header.enters?_testNode c

namespace Machine

/-- The test is an expression. -/
theorem clear_startTest (header : Loop) : Clear (startTest header) := by
  cases header with
  | whileLoop test body => exact .map test.clear_start _
  | forLoop init test update body frame =>
    cases test with
    | none => exact faults_pure _
    | some test => exact .map test.clear_start _

/-- A loop starts with an expression or with its test. -/
theorem clear_startLoop (header : Loop) : Clear (startLoop header) := by
  cases header with
  | whileLoop test body => exact clear_startTest (.whileLoop test body)
  | forLoop init test update body frame =>
    cases init with
    | none => exact clear_startTest (.forLoop none test update body frame)
    | some init =>
      refine .map (fun c t d hEq => ?_) _
      have hRefusal := init.toStmt.enters_start c
      rw [hEq] at hRefusal
      cases init <;> exact hRefusal

/-- The update is an expression. -/
theorem clear_startUpdate (header : Loop) : Clear (startUpdate header) := by
  unfold startUpdate
  split
  · exact .map (Expr.clear_start _) _
  · exact clear_startTest _

/-- Of a round, only the body may be what fails to be entered. -/
theorem enters_startBody (header : Loop) :
    Enters (fun _ => some (.block header.body)) (startBody header) := by
  cases header with
  | whileLoop test body => exact enters_bind body.enters_start fun _ => faults_pure _
  | forLoop init test update body frame =>
    intro c
    obtain ⟨round, s, hOpen⟩ := openRound_apply init frame c
    let d : Context := { c with store := s }
    have hEnter : enter round d = .ok () (d.enter round) := rfl
    unfold startBody
    rw [refusal?_bind_of_ok hOpen, refusal?_bind_of_ok hEnter]
    exact enters_bind body.enters_start
      (fun _ => faults_bind (faults_modify _) fun _ => faults_pure _) (d.enter round)

theorem clear_nextAlternative (start : Checkpoint) (alternatives : List Expr)
    (stack : Stack .value) : Clear (nextAlternative start alternatives stack) := by
  cases alternatives with
  | nil => exact faults_pure _
  | cons e rest => exact .map e.clear_start _

/-- A statement is started on top of the others. -/
theorem enters_startStatement (index : Nat) (stmt : Stmt) (rest : List Stmt)
    (below : List Reached) (commit : Option Nat) (stack : Stack .completion) :
    Enters stmt.enters? (startStatement index stmt rest below commit stack) := by
  refine enters_bind stmt.enters_start fun _ => ?_
  exact faults_pure _

/-- The body of a loop is entered after its test. -/
theorem enters_afterTest (header : Loop) (phases below : List Phase) (test : Value)
    (stack : Stack .completion) :
    Enters (fun c => (Pending.test header below).enters? c test)
      (afterTest header phases test stack) := by
  cases test with
  | bool b =>
    cases b
    · exact Clear.enters (faults_completeLoop _ _ _ _)
    · exact enters_bind (enters_startBody header) fun _ => faults_pullPhase _ _ _
  | _ => exact (clear_nonBoolean _ _).enters

/-- A search that is asked starts its first part, if that is still to be started. -/
theorem enters_stepPull {k : Kind} (s : Search k) (stack : Stack k) :
    Enters (fun c => s.node? >>= Node.enters? c) (stepPull s stack) := by
  cases s with
  | once item => cases item <;> exact Clear.enters (faults_pure _)
  | within frame inner =>
    exact Clear.enters (faults_bind (faults_modify _) fun _ => faults_pure _)
  | choice alternatives =>
    have hClear : Clear (stepPull (.choice alternatives) stack) :=
      faults_bind (faults_bind faults_get fun _ => faults_bind (faults_modify _) fun _ =>
        faults_pure _) fun _ => clear_nextAlternative _ _ _
    cases alternatives <;> exact hClear.enters
  | choosing start current alternatives =>
    cases current with
    | some s => exact Clear.enters (faults_pure _)
    | none =>
      have hClear : Clear (stepPull (.choosing start none alternatives) stack) :=
        clear_nextAlternative _ _ _
      cases alternatives <;> exact hClear.enters
  | product exprs =>
    cases exprs with
    | nil => exact Clear.enters (faults_pure _)
    | cons e rest => exact Clear.enters (.map e.clear_start _)
  | sequence statements =>
    cases statements with
    | nil => exact Clear.enters (faults_pure _)
    | cons stmt rest => exact enters_startStatement 0 stmt rest [] none stack
  | loop header =>
    -- what a loop starts first is no statement that declares
    have hEnter : Clear (enterLoop header) := by
      cases header with
      | whileLoop test body => exact faults_pure _
      | forLoop init test update body frame => exact faults_modify _
    have hClear : Clear (stepPull (.loop header) stack) :=
      faults_bind hEnter fun _ => faults_bind (clear_startLoop header) fun _ =>
        faults_pullPhase _ _ _
    exact hClear.enters_none header.enters?_firstNode
  | looping header phases =>
    refine Clear.enters (faults_bind ?_ fun _ => faults_pullPhase header phases stack)
    cases header with
    | whileLoop test body => exact faults_pure _
    | forLoop init test update body frame => exact faults_modify _
  | _ => exact Clear.enters (faults_pure _)

/-- What waits for a result starts what comes next. -/
theorem enters_stepFound {i o : Kind} (item : i.Item) (rest : Search i) (p : Pending i o)
    (stack : Stack o) (hp : ∀ g, p ≠ .map g) :
    Enters (fun c => p.enters? c item) (stepFound retire item rest p stack) := by
  cases p with
  | map g => exact absurd rfl (hp g)
  | outer g => exact enters_bind (g.enters_apply item) fun _ => faults_pure _
  | within frame => exact Clear.enters (faults_bind (faults_modify _) fun _ => faults_pure _)
  | operand exprs below values =>
    cases exprs with
    | nil => exact Clear.enters (faults_pure _)
    | cons e exprs => exact Clear.enters (.map e.clear_start _)
  | statement index stmts below commit =>
    cases stmts with
    | nil => cases item <;> exact Clear.enters (faults_pure _)
    | cons stmt stmts =>
      cases item with
      | value v => exact enters_startStatement _ stmt _ _ _ _
      | _ => exact Clear.enters (faults_pure _)
  | init header below =>
    exact Clear.enters_none (faults_bind (clear_startTest header) fun _ => faults_pullPhase _ _ _)
      header.enters?_testNode
  | test header below => exact enters_afterTest header _ below item stack
  | body header below =>
    -- a round that goes on does so alike, whatever it gave
    have hNext : Enters (fun c => header.nextNode? >>= Node.enters? c)
        (startUpdate header >>= fun p =>
          pullPhase header (p :: keep (retire rest) (.body rest) below) stack) :=
      Clear.enters_none (faults_bind (clear_startUpdate header) fun _ => faults_pullPhase _ _ _)
        header.enters?_nextNode
    cases item with
    | breakLoop => exact Clear.enters (faults_completeLoop _ _ _ _)
    | returns v => exact Clear.enters (faults_completeLoop _ _ _ _)
    | _ => exact hNext
  | update header below =>
    exact Clear.enters_none (faults_bind (clear_startTest header) fun _ => faults_pullPhase _ _ _)
      header.enters?_testNode
  | _ => exact Clear.enters (faults_pure _)

/-- When a search has no more results, only an alternative may be started. -/
theorem clear_stepDrained {i o : Kind} (rest : Search i) (p : Pending i o) (stack : Stack o) :
    Clear (stepDrained rest p stack) := by
  cases p with
  | choosing start alternatives =>
    exact faults_bind (faults_modify _) fun _ => clear_nextAlternative _ _ _
  | within frame => exact faults_bind (faults_modify _) fun _ => faults_pure _
  | init header below | test header below | body header below | update header below =>
    exact faults_pullPhase header below stack
  | _ => exact faults_pure _

variable (retire) in
/-- A result that becomes another one enters nothing, and can be given to the name of a
declaration. -/
theorem refusal?_stepMapped {i o : Kind} {g : Mapping i o} {item : i.Item} {rest : Search i}
    {stack : Stack o} {c : Context} (h : c.store.Awaits (g.promises c.current ++ ps)) :
    refusal? (stepFound retire item rest (.map g) stack c) =
      (Pending.map g).enters? c item >>= Construct.redeclared? := by
  have hRefusal : refusal? (stepFound retire item rest (.map g) stack c) = none :=
    (refusal?_bind (fun _ => faults_pure _) c).trans (g.refusal?_apply item h)
  rw [hRefusal]
  cases g <;> rfl

/-- A step fails to declare a name just as the scope that it enters says. -/
theorem refusal?_step {m : Machine} {c : Context} (h : m.Promising W outer c.store)
    (hCurrent : c.current = innermost outer m.stack.frames) :
    refusal? (m.step retire c) = m.enters? c >>= Construct.redeclared? := by
  obtain ⟨k, walk, stack⟩ := m
  cases walk with
  | pull s => exact enters_stepPull s stack c
  | drained rest =>
    cases stack with
    | nil => rfl
    | push p below => exact (clear_stepDrained rest p below).refusal?_eq_none c
  | found item rest =>
    cases stack with
    | nil => rfl
    | push p below =>
      by_cases hMap : ∃ g, p = .map g
      · obtain ⟨g, rfl⟩ := hMap
        have hCurrent : c.current = innermost outer below.frames := hCurrent
        have hAwaits : c.store.Awaits (g.promises (innermost outer below.frames) ++ _) := h.awaits
        rw [← hCurrent] at hAwaits
        exact refusal?_stepMapped retire hAwaits
      · exact enters_stepFound item rest p below (fun g hSame => hMap ⟨g, hSame⟩) c

end Machine

end AmbScript
