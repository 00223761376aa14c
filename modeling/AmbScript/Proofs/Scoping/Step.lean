import AmbScript.Proofs.Machine.InForce
import AmbScript.Proofs.Scoping.Searches

/-!
# A machine in its place

The stack of a machine tells which frame each of its searches is asked in. If all of them are in
their place, so they are after a step, and the store still fits what the chart says, whether the
step has a result or ends in a fault.

* `Machine.Placed` — the searches that a machine has under way are in their place.
* `Machine.charts_step` — a step keeps them there.

What is proved of each function is of the form: if just these frames have been entered, and all
searches are in their place in them, then the function leaves a machine whose stack tells the frames
that are entered then, with all searches in their place. A choice that goes back has to be known to
find the same frames, which is the hypothesis `Level` on its moment.
-/

namespace AmbScript

variable {α β : Type} {ch ch' : Chart} {outer fs : List FrameId} {f : FrameId}
  {retire : {k : Kind} → Search k → Bool}

open Eval

-- ---------------------------------------------------------------------------
-- Machines
-- ---------------------------------------------------------------------------

/-- What waits for a part is in its place; it was asked in the frame `f`. -/
inductive Pending.Placed (ch : Chart) (f : FrameId) : {i o : Kind} → Pending i o → Prop
  | map {i o : Kind} {g : Mapping i o} (hg : g.Placed ch f) : Pending.Placed ch f (.map g)
  | outer {i o : Kind} {g : Expansion i o} (hg : g.Placed ch f) : Pending.Placed ch f (.outer g)
  | inner {i o : Kind} {g : Expansion i o} (hg : g.Placed ch f) {s : Search i}
      (h : s.Placed ch f) : Pending.Placed ch f (.inner g s)
  | within {k : Kind} (frame : FrameId) : Pending.Placed ch f (.within (k := k) frame)
  | choosing (start : Checkpoint) {alternatives : List Expr} (h : ch.PlacesAll f alternatives) :
      Pending.Placed ch f (.choosing start alternatives)
  | operand {rest : List Expr} (hRest : ch.PlacesAll f rest) {below : List Operand}
      (hBelow : OperandsPlaced ch f below) {values : List Value}
      (hValues : ∀ v ∈ values, v.Placed ch) : Pending.Placed ch f (.operand rest below values)
  | statement (index : Nat) {rest : List Stmt} (hRest : ∀ s ∈ rest, ch.Places f (.stmt s))
      {below : List Reached} (hBelow : ReachedPlaced ch f below) (commit : Option Nat) :
      Pending.Placed ch f (.statement index rest below commit)
  | init {header : Loop} (hHeader : header.Placed ch f) {below : List Phase}
      (hBelow : PhasesPlaced ch (header.inside f) below) : Pending.Placed ch f (.init header below)
  | test {header : Loop} (hHeader : header.Placed ch f) {below : List Phase}
      (hBelow : PhasesPlaced ch (header.inside f) below) : Pending.Placed ch f (.test header below)
  | body {header : Loop} (hHeader : header.Placed ch f) {below : List Phase}
      (hBelow : PhasesPlaced ch (header.inside f) below) : Pending.Placed ch f (.body header below)
  | update {header : Loop} (hHeader : header.Placed ch f) {below : List Phase}
      (hBelow : PhasesPlaced ch (header.inside f) below) :
      Pending.Placed ch f (.update header below)

/-- All that waits is in its place. -/
inductive Stack.Placed (ch : Chart) (outer : List FrameId) : {k : Kind} → Stack k → Prop
  | nil : Stack.Placed ch outer .nil
  | push {i o : Kind} {p : Pending i o} {below : Stack o}
      (hp : p.Placed ch (innermost outer below.frames)) (hBelow : Stack.Placed ch outer below) :
      Stack.Placed ch outer (.push p below)

/-- The search that a walk is at is in its place; it is asked in the frame `f`. -/
inductive Walk.Placed (ch : Chart) (f : FrameId) {k : Kind} : Walk k → Prop
  | pull {s : Search k} (h : s.Placed ch f) : Walk.Placed ch f (.pull s)
  | found {item : k.Item} (hItem : PlacedItem k ch item) {s : Search k} (h : s.Placed ch f) :
      Walk.Placed ch f (.found item s)
  | drained {s : Search k} (h : s.Placed ch f) : Walk.Placed ch f (.drained s)

/-- All searches of the machine are in their place. -/
structure Machine.Placed (ch : Chart) (outer : List FrameId) (m : Machine) : Prop where
  walk : m.walk.Placed ch (innermost outer m.stack.frames)
  stack : m.stack.Placed ch outer

/-- What waits stays in its place when the chart says more. -/
theorem Pending.Placed.mono (hle : ch ≤ ch') {i o : Kind} {p : Pending i o} (h : p.Placed ch f) :
    p.Placed ch' f := by
  cases h with
  | map hg => exact .map (hg.mono hle)
  | outer hg => exact .outer (hg.mono hle)
  | inner hg h => exact .inner (hg.mono hle) (h.mono hle)
  | within frame => exact .within frame
  | choosing start h => exact .choosing start (h.mono hle)
  | operand hRest hBelow hValues =>
    exact .operand (hRest.mono hle) (hBelow.mono hle) (Value.placed_mono hle hValues)
  | statement index hRest hBelow commit =>
    exact .statement index (fun s hs => (hRest s hs).mono hle) (hBelow.mono hle) commit
  | init hHeader hBelow => exact .init (hHeader.mono hle) (hBelow.mono hle)
  | test hHeader hBelow => exact .test (hHeader.mono hle) (hBelow.mono hle)
  | body hHeader hBelow => exact .body (hHeader.mono hle) (hBelow.mono hle)
  | update hHeader hBelow => exact .update (hHeader.mono hle) (hBelow.mono hle)

theorem Stack.Placed.mono (hle : ch ≤ ch') {k : Kind} {stack : Stack k}
    (h : stack.Placed ch outer) : stack.Placed ch' outer := by
  induction h with
  | nil => exact .nil
  | push hp _ ih => exact .push (hp.mono hle) ih

/-- A loop's parts are asked in its own frame, or where the loop is asked if it has none. -/
theorem innermost_loop (header : Loop) (fs : List FrameId) :
    innermost outer (header.frames ++ fs) = header.inside (innermost outer fs) := by
  cases header <;> rfl

-- ---------------------------------------------------------------------------
-- Parts of a loop
-- ---------------------------------------------------------------------------

namespace Loop

/-- The test, if there is one. -/
def testNode? : Loop → Option Node
  | .whileLoop test _ => some (.expr test)
  | .forLoop _ test _ _ _ => test.map .expr

/-- What comes first. -/
def firstNode? : Loop → Option Node
  | .forLoop (some init) _ _ _ _ => some (.stmt init.toStmt)
  | header => header.testNode?

/-- What comes after the body. -/
def nextNode? : Loop → Option Node
  | .forLoop _ _ (some update) _ _ => some (.expr update)
  | header => header.testNode?

end Loop

/-- A part of a loop that is evaluated is in its place inside the frame of the loop. -/
theorem Loop.Placed.places_test {header : Loop} (h : header.Placed ch f) {n : Node}
    (hn : header.testNode? = some n) : ch.Places (header.inside f) n := by
  cases header with
  | whileLoop test body =>
    cases hn
    exact h.1
  | forLoop init test update body frame =>
    obtain ⟨g, path, layout, span, hAt, hFrame⟩ := h
    obtain ⟨e, rfl, rfl⟩ := Option.map_eq_some_iff.mp hn
    exact Chart.places_part [.loop init] hAt (by simp [Node.parts, Node.parts.stmtParts]) hFrame

theorem Loop.Placed.places_first {header : Loop} (h : header.Placed ch f) {n : Node}
    (hn : header.firstNode? = some n) : ch.Places (header.inside f) n := by
  unfold Loop.firstNode? at hn
  split at hn
  · rename_i init test update body frame
    obtain ⟨g, path, layout, span, hAt, hFrame⟩ := h
    cases hn
    exact Chart.places_part [.loop (some init)] hAt
      (by simp [Node.parts, Node.parts.stmtParts]) hFrame
  · exact h.places_test hn

theorem Loop.Placed.places_next {header : Loop} (h : header.Placed ch f) {n : Node}
    (hn : header.nextNode? = some n) : ch.Places (header.inside f) n := by
  unfold Loop.nextNode? at hn
  split at hn
  · rename_i init test update body frame
    obtain ⟨g, path, layout, span, hAt, hFrame⟩ := h
    cases hn
    exact Chart.places_part [.loop init] hAt (by simp [Node.parts, Node.parts.stmtParts]) hFrame
  · exact h.places_test hn

/-- To go back to a moment at which just these frames had been entered leaves them in force. -/
theorem Context.Stands.restore {c : Context} (h : c.Stands ch outer fs) {start : Checkpoint}
    (hDepth : start.innerDepth = fs.length) : (c.restore start).Stands ch outer fs := by
  refine ⟨h.fits.unwindTo _, ?_, h.outer⟩
  show c.inner.drop (c.inner.length - start.innerDepth) = fs
  rw [h.inner, hDepth, Nat.sub_self, List.drop_zero]

namespace Machine

variable {k : Kind} {stack : Stack k}

/-- What a step comes to: the machine is in its place, and the frames around it are in force. -/
def PlacedMachine (outer : List FrameId) (ch : Chart) (fs : List FrameId) (m : Machine) : Prop :=
  fs = m.stack.frames ∧ m.Placed ch outer

section

variable (hStack : stack.Placed ch outer)
include hStack

/-- A machine that asks a search in its place. -/
theorem placed_pull {s : Search k} (h : s.Placed ch (innermost outer stack.frames)) :
    (pull s stack).Placed ch outer := ⟨.pull h, hStack⟩

/-- A machine that has found a result in its place. -/
theorem placed_found {item : k.Item} (hItem : PlacedItem k ch item) {s : Search k}
    (h : s.Placed ch (innermost outer stack.frames)) : (found item s stack).Placed ch outer :=
  ⟨.found hItem h, hStack⟩

/-- A machine that has found no result. -/
theorem placed_drained {s : Search k} (h : s.Placed ch (innermost outer stack.frames)) :
    (drained s stack).Placed ch outer := ⟨.drained h, hStack⟩

end

-- ---------------------------------------------------------------------------
-- Alternatives and lists of expressions
-- ---------------------------------------------------------------------------

/-- The next alternative of a choice is evaluated. -/
theorem charts_nextAlternative (start : Checkpoint) {alternatives : List Expr}
    {stack : Stack .value} (h : ch.PlacesAll (innermost outer stack.frames) alternatives)
    (hStack : stack.Placed ch outer) :
    Charts ch outer stack.frames (PlacedMachine outer) (nextAlternative start alternatives stack) := by
  cases alternatives with
  | nil => exact charts_pure ⟨rfl, placed_drained hStack (.between start h)⟩
  | cons e rest =>
    obtain ⟨he, hRest⟩ := List.forall_mem_cons.mp h
    exact charts_stay_bind (e.sets_start he) fun _ hle _ hs =>
      charts_pure ⟨rfl, placed_pull (.push (.choosing start (Chart.PlacesAll.mono hle hRest))
        (hStack.mono hle)) hs⟩

/-- The last operand is asked for another value. -/
theorem placed_pullOperand {operands : List Operand} {stack : Stack .tuple}
    (h : OperandsPlaced ch (innermost outer stack.frames) operands) {values : List Value}
    (hValues : ∀ v ∈ values, v.Placed ch) (hStack : stack.Placed ch outer) :
    (pullOperand operands values stack).Placed ch outer := by
  cases h with
  | nil => exact placed_drained hStack (.producing (.nil _) hValues)
  | cons hRest hs hBelow => exact placed_pull (.push (.operand hRest hBelow hValues) hStack) hs

/-- The first operand is evaluated. -/
theorem charts_startProduct {exprs : List Expr} {stack : Stack .tuple}
    (h : ch.PlacesAll (innermost outer stack.frames) exprs) (hStack : stack.Placed ch outer) :
    Charts ch outer stack.frames (PlacedMachine outer) (startProduct exprs stack) := by
  have hNone : ∀ v ∈ ([] : List Value), v.Placed ch := fun _ hv => absurd hv List.not_mem_nil
  cases exprs with
  | nil => exact charts_pure ⟨rfl, placed_found (k := .tuple) hStack hNone (.producing (.nil _) hNone)⟩
  | cons e rest =>
    obtain ⟨he, hRest⟩ := List.forall_mem_cons.mp h
    exact charts_stay_bind (e.sets_start he) fun _ hle _ hs => charts_pure
      ⟨(frames_pullOperand _ _ _).symm, placed_pullOperand
        (.cons (Chart.PlacesAll.mono hle hRest) hs (.nil _)) (Value.placed_mono hle hNone)
        (hStack.mono hle)⟩

/-- An operand has a value, and the next one is evaluated. -/
theorem charts_fillOperand {rest : List Expr} {s : Search .value} {below : List Operand}
    {stack : Stack .tuple}
    (h : OperandsPlaced ch (innermost outer stack.frames) (.mk rest s :: below))
    {values : List Value} (hValues : ∀ v ∈ values, v.Placed ch) {v : Value} (hv : v.Placed ch)
    (hStack : stack.Placed ch outer) :
    Charts ch outer stack.frames (PlacedMachine outer)
      (fillOperand (.mk rest s) below values v stack) := by
  have hAll : ∀ w ∈ v :: values, w.Placed ch := List.forall_mem_cons.mpr ⟨hv, hValues⟩
  -- the row of values is complete, or the next operand is started
  cases rest with
  | nil =>
    exact charts_pure ⟨rfl, placed_found (k := .tuple) hStack
      (fun w hw => hAll w (List.mem_reverse.mp hw)) (.producing h hValues)⟩
  | cons e rest =>
    cases h with
    | cons hRest hs hBelow =>
      obtain ⟨he, hRest'⟩ := List.forall_mem_cons.mp hRest
      refine charts_stay_bind (e.sets_start he) fun _ hle _ hNext => charts_pure
        ⟨(frames_pullOperand _ _ _).symm, placed_pullOperand (.cons (Chart.PlacesAll.mono hle hRest')
          hNext (.cons (hRest.mono hle) (hs.mono hle) (hBelow.mono hle)))
          (Value.placed_mono hle hAll) (hStack.mono hle)⟩

-- ---------------------------------------------------------------------------
-- Statements
-- ---------------------------------------------------------------------------

section

variable {stack : Stack .completion}

/-- The last statement is asked for another completion. -/
theorem placed_pullStatement {reached : List Reached}
    (h : ReachedPlaced ch (innermost outer stack.frames) reached) (commit : Option Nat)
    (hStack : stack.Placed ch outer) : (pullStatement reached commit stack).Placed ch outer := by
  cases h with
  | nil => exact placed_drained hStack (.sequenced (.nil _) commit)
  | cons index hRest hs hBelow =>
    unfold pullStatement
    dsimp only
    split
    · exact placed_drained hStack (.sequenced (.nil _) commit)
    · exact placed_pull (.push (.statement index hRest hBelow commit) hStack) hs

/-- The next statement is evaluated. -/
theorem charts_startStatement (index : Nat) {stmt : Stmt} {rest : List Stmt}
    (h : ∀ s ∈ stmt :: rest, ch.Places (innermost outer stack.frames) (.stmt s))
    {below : List Reached} (hBelow : ReachedPlaced ch (innermost outer stack.frames) below)
    (commit : Option Nat) (hStack : stack.Placed ch outer) :
    Charts ch outer stack.frames (PlacedMachine outer)
      (startStatement index stmt rest below commit stack) := by
  obtain ⟨hStmt, hRest⟩ := List.forall_mem_cons.mp h
  exact charts_stay_bind (Stmt.sets_start hStmt) fun _ hle _ hs => charts_pure
    ⟨(frames_pullStatement _ _ _).symm, placed_pullStatement
      (.cons index (fun s hs => (hRest s hs).mono hle) hs (hBelow.mono hle)) _ (hStack.mono hle)⟩

/-- The first statement is evaluated. -/
theorem charts_startSequence {statements : List Stmt}
    (h : ∀ s ∈ statements, ch.Places (innermost outer stack.frames) (.stmt s))
    (hStack : stack.Placed ch outer) :
    Charts ch outer stack.frames (PlacedMachine outer) (startSequence statements stack) := by
  cases statements with
  | nil =>
    have hItem : PlacedItem .completion ch (.value .undefined) := Value.Placed.undefined
    exact charts_pure ⟨rfl, placed_found hStack hItem (.sequenced (.nil _) none)⟩
  | cons stmt rest => exact charts_startStatement 0 h (.nil _) none hStack

/-- A statement has completed, and the sequence goes on or ends. -/
theorem charts_completeStatement (index : Nat) {rest : List Stmt}
    (h : ∀ s ∈ rest, ch.Places (innermost outer stack.frames) (.stmt s)) {completion : Completion}
    (hItem : PlacedItem .completion ch completion) {reached : List Reached}
    (hReached : ReachedPlaced ch (innermost outer stack.frames) reached) (commit : Option Nat)
    (hStack : stack.Placed ch outer) :
    Charts ch outer stack.frames (PlacedMachine outer)
      (completeStatement index rest completion reached commit stack) := by
  unfold completeStatement
  split
  · exact charts_startStatement _ h hReached commit hStack
  · exact charts_pure ⟨rfl, placed_found (k := .completion) hStack hItem
      (.sequenced hReached commit)⟩

end

-- ---------------------------------------------------------------------------
-- Loops
-- ---------------------------------------------------------------------------

/-- A part of a loop in its place. -/
def PlacedPhase (header : Loop) (f : FrameId) (ch : Chart) (p : Phase) : Prop :=
  p.Placed ch (header.inside f)

section

variable {header : Loop}

/-- The frame of the loop's variables is entered, if there is one. -/
theorem charts_enterLoop (header : Loop) (fs : List FrameId) :
    Charts ch outer fs (fun _ fs' _ => fs' = header.frames ++ fs) (enterLoop header) := by
  cases header with
  | whileLoop test body => exact charts_pure rfl
  | forLoop init test update body frame => exact charts_enter frame

theorem charts_leaveLoop (header : Loop) (fs : List FrameId) :
    Charts ch outer (header.frames ++ fs) (fun _ fs' _ => fs' = fs) (leaveLoop header) := by
  cases header with
  | whileLoop test body => exact charts_pure rfl
  | forLoop init test update body frame => exact charts_leave frame

variable {fs : List FrameId} (hHeader : header.Placed ch (innermost outer fs))
include hHeader

/-- The test is evaluated inside the frame of the loop. -/
theorem charts_startTest :
    Charts ch outer (header.frames ++ fs)
      (Stay (header.frames ++ fs) (PlacedPhase header (innermost outer fs))) (startTest header) := by
  cases header with
  | whileLoop test body =>
    exact charts_stay_bind (test.sets_start hHeader.1) fun _ _ _ hs => charts_pure ⟨rfl, .test hs⟩
  | forLoop init test update body frame =>
    cases test with
    | none => exact charts_pure ⟨rfl, .test (.found _ (k := .value) (.bool true))⟩
    | some test =>
      exact charts_stay_bind (test.sets_start (hHeader.places_test rfl)) fun _ _ _ hs =>
        charts_pure ⟨rfl, .test hs⟩

theorem charts_startLoop :
    Charts ch outer (header.frames ++ fs)
      (Stay (header.frames ++ fs) (PlacedPhase header (innermost outer fs))) (startLoop header) := by
  unfold startLoop
  split
  · rename_i init test update body frame
    exact charts_stay_bind (Stmt.sets_start (hHeader.places_first rfl)) fun _ _ _ hs =>
      charts_pure ⟨rfl, .init hs⟩
  · exact charts_startTest hHeader

theorem charts_startUpdate :
    Charts ch outer (header.frames ++ fs)
      (Stay (header.frames ++ fs) (PlacedPhase header (innermost outer fs)))
      (startUpdate header) := by
  unfold startUpdate
  split
  · rename_i init test update body frame
    exact charts_stay_bind (update.sets_start (hHeader.places_next rfl)) fun _ _ _ hs =>
      charts_pure ⟨rfl, .update hs⟩
  · exact charts_startTest hHeader

/-- The body of a round is started inside the frame of the round, which is left again. -/
theorem charts_startBody :
    Charts ch outer (header.frames ++ fs)
      (Stay (header.frames ++ fs) (PlacedPhase header (innermost outer fs))) (startBody header) := by
  cases header with
  | whileLoop test body =>
    exact charts_stay_bind (Block.sets_start hHeader.2) fun _ _ _ hs => charts_pure ⟨rfl, .body hs⟩
  | forLoop init test update body frame =>
    obtain ⟨g, path, layout, span, hAt, hFrame⟩ := hHeader
    have hCurrent : ch.layout (innermost outer (frame :: fs)) = some _ := hFrame
    refine charts_stay_bind (charts_openRound g path hCurrent) fun ch₁ hle₁ round hRound => ?_
    refine charts_bind (charts_enter round) fun ch₂ hle₂ fs₂ _ hEntered => ?_
    subst hEntered
    -- the body is inside two scopes of the loop, that of its variables and that of the round
    have hBody : ch₂.Places round (.block body) :=
      Chart.places_part [.round init, .loop init] (Chart.at?_mono (hle₁.trans hle₂) hAt)
        (by simp [Node.parts, Node.parts.stmtParts]) (Chart.layout_mono hle₂ hRound)
    refine charts_stay_bind (Block.sets_start hBody) fun ch₃ hle₃ s hs => ?_
    refine charts_bind (charts_leave round) fun ch₄ hle₄ fs₄ _ hLeft => ?_
    subst hLeft
    exact charts_pure ⟨rfl, .body (.within _ (hs.mono hle₄))⟩

end

section

variable {header : Loop} {stack : Stack .completion} {phases : List Phase}
  (hHeader : header.Placed ch (innermost outer stack.frames))
  (hPhases : PhasesPlaced ch (header.inside (innermost outer stack.frames)) phases)
  (hStack : stack.Placed ch outer)
include hHeader hPhases hStack

/-- The last part of a loop is asked for another result, or the loop is left if none is left. -/
theorem charts_pullPhase :
    Charts ch outer (header.frames ++ stack.frames) (PlacedMachine outer)
      (pullPhase header phases stack) := by
  have hFrames : innermost outer (header.frames ++ stack.frames) =
      header.inside (innermost outer stack.frames) := innermost_loop header stack.frames
  cases hPhases with
  | nil =>
    refine charts_bind (charts_leaveLoop header stack.frames) fun _ hle fs' _ hLeft => ?_
    subst hLeft
    exact charts_pure ⟨rfl, placed_drained (hStack.mono hle) (.looping (hHeader.mono hle) (.nil _))⟩
  | cons h hBelow =>
    cases h with
    | init h => exact charts_pure ⟨rfl, placed_pull (.push (.init hHeader hBelow) hStack) (hFrames ▸ h)⟩
    | test h => exact charts_pure ⟨rfl, placed_pull (.push (.test hHeader hBelow) hStack) (hFrames ▸ h)⟩
    | body h => exact charts_pure ⟨rfl, placed_pull (.push (.body hHeader hBelow) hStack) (hFrames ▸ h)⟩
    | update h =>
      exact charts_pure ⟨rfl, placed_pull (.push (.update hHeader hBelow) hStack) (hFrames ▸ h)⟩

/-- A part of the loop is started on top of the others. -/
theorem charts_launchPhase {x : Eval Phase}
    (hx : Charts ch outer (header.frames ++ stack.frames) (Stay (header.frames ++ stack.frames)
      (PlacedPhase header (innermost outer stack.frames))) x) :
    Charts ch outer (header.frames ++ stack.frames) (PlacedMachine outer)
      (do pullPhase header ((← x) :: phases) stack) := by
  refine charts_stay_bind hx fun _ hle _ hPhase => ?_
  exact charts_pullPhase (hHeader.mono hle) (.cons hPhase (hPhases.mono hle)) (hStack.mono hle)

/-- The loop completes, and its frame is left. -/
theorem charts_completeLoop {completion : Completion}
    (hItem : PlacedItem .completion ch completion) :
    Charts ch outer (header.frames ++ stack.frames) (PlacedMachine outer)
      (completeLoop header phases completion stack) := by
  refine charts_bind (charts_leaveLoop header stack.frames) fun _ hle fs' _ hLeft => ?_
  subst hLeft
  exact charts_pure ⟨rfl, placed_found (k := .completion) (hStack.mono hle) (hItem.mono hle)
    (.looping (hHeader.mono hle) (hPhases.mono hle))⟩

/-- The test has a value. -/
theorem charts_afterTest (test : Value) :
    Charts ch outer (header.frames ++ stack.frames) (PlacedMachine outer)
      (afterTest header phases test stack) := by
  unfold afterTest
  split
  · exact charts_launchPhase hHeader hPhases hStack (charts_startBody hHeader)
  · exact charts_completeLoop hHeader hPhases hStack Value.Placed.undefined
  · exact charts_throw _

/-- The body has completed. -/
theorem charts_afterBody {completion : Completion}
    (hItem : PlacedItem .completion ch completion) :
    Charts ch outer (header.frames ++ stack.frames) (PlacedMachine outer)
      (afterBody header phases completion stack) := by
  unfold afterBody
  split
  · exact charts_launchPhase hHeader hPhases hStack (charts_startUpdate hHeader)
  · exact charts_launchPhase hHeader hPhases hStack (charts_startUpdate hHeader)
  · exact charts_completeLoop hHeader hPhases hStack Value.Placed.undefined
  · exact charts_completeLoop hHeader hPhases hStack hItem

end

-- ---------------------------------------------------------------------------
-- The step
-- ---------------------------------------------------------------------------

/-- A search is asked, one case for each form of search. -/
theorem charts_stepPull {k : Kind} {s : Search k} {stack : Stack k}
    (h : s.Placed ch (innermost outer stack.frames)) (hStack : stack.Placed ch outer) :
    Charts ch outer stack.frames (PlacedMachine outer) (stepPull s stack) := by
  -- the frame is a parameter of `Placed`, which the case analysis must be free to choose
  generalize hf : innermost outer stack.frames = f at h
  cases h with
  | failed => exact charts_pure ⟨rfl, placed_drained hStack (.failed _)⟩
  | found _ hItem => exact charts_pure ⟨rfl, placed_found hStack hItem (.failed _)⟩
  | map hg h => exact charts_pure ⟨rfl, placed_pull (.push (.map (hf ▸ hg)) hStack) (hf ▸ h)⟩
  | bind hg h => exact charts_pure ⟨rfl, placed_pull (.push (.outer (hf ▸ hg)) hStack) (hf ▸ h)⟩
  | binding hg hOuter hInner =>
    exact charts_pure ⟨rfl, placed_pull (.push (.inner (hf ▸ hg) (hf ▸ hOuter)) hStack) (hf ▸ hInner)⟩
  | @within _ k frame s h =>
    refine charts_bind (charts_enter frame) fun _ hle fs' _ hEntered => ?_
    subst hEntered
    exact charts_pure ⟨rfl, placed_pull (.push (.within frame) (hStack.mono hle)) (h.mono hle)⟩
  | choice h =>
    subst hf
    exact charts_stay_bind charts_checkpoint fun _ hle _ _ =>
      charts_nextAlternative _ (Chart.PlacesAll.mono hle h) (hStack.mono hle)
  | between start h =>
    subst hf
    exact charts_nextAlternative start h hStack
  | choosing start hRest h =>
    subst hf
    exact charts_pure ⟨rfl, placed_pull (.push (.choosing start hRest) hStack) h⟩
  | product h =>
    subst hf
    exact charts_startProduct h hStack
  | producing h hValues =>
    subst hf
    exact charts_pure ⟨(frames_pullOperand _ _ _).symm, placed_pullOperand h hValues hStack⟩
  | sequence h =>
    subst hf
    exact charts_startSequence h.places hStack
  | sequenced h commit =>
    subst hf
    exact charts_pure ⟨(frames_pullStatement _ _ _).symm, placed_pullStatement h commit hStack⟩
  | @loop _ header hHeader =>
    subst hf
    refine charts_bind (charts_enterLoop header stack.frames) fun _ hle fs' _ hEntered => ?_
    subst hEntered
    exact charts_launchPhase (hHeader.mono hle) (.nil _) (hStack.mono hle)
      (charts_startLoop (hHeader.mono hle))
  | @looping _ header hHeader phases h =>
    subst hf
    refine charts_bind (charts_enterLoop header stack.frames) fun _ hle fs' _ hEntered => ?_
    subst hEntered
    exact charts_pullPhase (hHeader.mono hle) (h.mono hle) (hStack.mono hle)

/-- A statement with a completion is kept, or dropped. -/
theorem reachedPlaced_keep (dropped : Bool) (index : Nat) {rest : List Stmt}
    (hRest : ∀ s ∈ rest, ch.Places f (.stmt s)) {s : Search .completion} (h : s.Placed ch f)
    {below : List Reached} (hBelow : ReachedPlaced ch f below) :
    ReachedPlaced ch f (keep dropped (.mk index rest s) below) := by
  cases dropped with
  | true => exact hBelow
  | false => exact .cons index hRest h hBelow

theorem phasesPlaced_keep (dropped : Bool) {p : Phase} (h : p.Placed ch f) {below : List Phase}
    (hBelow : PhasesPlaced ch f below) : PhasesPlaced ch f (keep dropped p below) := by
  cases dropped with
  | true => exact hBelow
  | false => exact .cons h hBelow

/-- What waits has got a result, one case for each way to wait. -/
theorem charts_stepFound {i o : Kind} {item : i.Item} (hItem : PlacedItem i ch item)
    {rest : Search i} {p : Pending i o} {stack : Stack o}
    (hRest : rest.Placed ch (innermost outer (p.frames ++ stack.frames)))
    (hp : p.Placed ch (innermost outer stack.frames)) (hStack : stack.Placed ch outer) :
    Charts ch outer (p.frames ++ stack.frames) (PlacedMachine outer)
      (stepFound retire item rest p stack) := by
  cases hp with
  | @map i o g hg =>
    exact charts_stay_bind (Mapping.charts_apply hg hItem) fun _ hle _ hFound =>
      charts_pure ⟨rfl, placed_found (hStack.mono hle) hFound (.map (hg.mono hle) (hRest.mono hle))⟩
  | outer hg =>
    exact charts_stay_bind (Expansion.sets_apply hg hItem) fun _ hle _ hNext =>
      charts_pure ⟨rfl, placed_pull (.push (.inner (hg.mono hle) (hRest.mono hle))
        (hStack.mono hle)) hNext⟩
  | @inner i o g hg s h =>
    refine charts_pure ⟨rfl, placed_found hStack hItem ?_⟩
    split
    · exact .bind hg h
    · exact .binding hg h hRest
  | within frame =>
    -- found inside the frame, so the frame is left
    refine charts_bind (charts_leave frame) fun _ hle fs' _ hLeft => ?_
    subst hLeft
    exact charts_pure ⟨rfl, placed_found (hStack.mono hle) (hItem.mono hle)
      (.within _ (hRest.mono hle))⟩
  | choosing start h =>
    exact charts_pure ⟨rfl, placed_found (k := .value) hStack hItem (.choosing start h hRest)⟩
  | operand h hBelow hValues => exact charts_fillOperand (.cons h hRest hBelow) hValues hItem hStack
  | statement index h hBelow commit =>
    exact charts_completeStatement index h hItem (reachedPlaced_keep _ index h hRest hBelow) commit
      hStack
  | @init header hHeader below hBelow =>
    have hRest : rest.Placed ch (innermost outer (header.frames ++ stack.frames)) := hRest
    rw [innermost_loop] at hRest
    exact charts_launchPhase hHeader (phasesPlaced_keep _ (.init hRest) hBelow) hStack
      (charts_startTest hHeader)
  | @test header hHeader below hBelow =>
    have hRest : rest.Placed ch (innermost outer (header.frames ++ stack.frames)) := hRest
    rw [innermost_loop] at hRest
    exact charts_afterTest hHeader (phasesPlaced_keep _ (.test hRest) hBelow) hStack item
  | @body header hHeader below hBelow =>
    have hRest : rest.Placed ch (innermost outer (header.frames ++ stack.frames)) := hRest
    rw [innermost_loop] at hRest
    exact charts_afterBody hHeader (phasesPlaced_keep _ (.body hRest) hBelow) hStack hItem
  | @update header hHeader below hBelow =>
    have hRest : rest.Placed ch (innermost outer (header.frames ++ stack.frames)) := hRest
    rw [innermost_loop] at hRest
    exact charts_launchPhase hHeader (phasesPlaced_keep _ (.update hRest) hBelow) hStack
      (charts_startTest hHeader)

/-- What waits has got no result. A choice goes back to a moment at which the same frames were in
force. -/
theorem charts_stepDrained {i o : Kind} {rest : Search i} {p : Pending i o} {stack : Stack o}
    (hRest : rest.Placed ch (innermost outer (p.frames ++ stack.frames)))
    (hp : p.Placed ch (innermost outer stack.frames)) (hStack : stack.Placed ch outer)
    (hLevel : ∀ start, (drained rest (.push p stack)).restores? = some start →
      start.innerDepth = stack.frames.length) :
    Charts ch outer (p.frames ++ stack.frames) (PlacedMachine outer)
      (stepDrained rest p stack) := by
  cases hp with
  | map hg => exact charts_pure ⟨rfl, placed_drained hStack (.map hg hRest)⟩
  | outer hg => exact charts_pure ⟨rfl, placed_drained hStack (.bind hg hRest)⟩
  | inner hg h => exact charts_pure ⟨rfl, placed_pull (.push (.outer hg) hStack) h⟩
  | within frame =>
    refine charts_bind (charts_leave frame) fun _ hle fs' _ hLeft => ?_
    subst hLeft
    exact charts_pure ⟨rfl, placed_drained (hStack.mono hle) (.within _ (hRest.mono hle))⟩
  | choosing start h =>
    -- going back gives the stack the frames it had at the choice
    exact fun c hStands =>
      charts_nextAlternative start h hStack _ (hStands.restore (hLevel start rfl))
  | operand h hBelow hValues =>
    exact charts_pure ⟨(frames_pullOperand _ _ _).symm, placed_pullOperand hBelow
      (fun v hv => hValues v (List.mem_of_mem_tail hv)) hStack⟩
  | statement index h hBelow commit =>
    exact charts_pure ⟨(frames_pullStatement _ _ _).symm, placed_pullStatement hBelow commit hStack⟩
  | init hHeader hBelow => exact charts_pullPhase hHeader hBelow hStack
  | test hHeader hBelow => exact charts_pullPhase hHeader hBelow hStack
  | body hHeader hBelow => exact charts_pullPhase hHeader hBelow hStack
  | update hHeader hBelow => exact charts_pullPhase hHeader hBelow hStack

/-- A choice that goes back was taken up inside the frames that are below it. -/
theorem innerDepth_of_restores {i o : Kind} {rest : Search i} {p : Pending i o} {stack : Stack o}
    {start : Checkpoint} (hLevel : ∀ x ∈ (drained rest (.push p stack)).holdings, Level x)
    (hRestores : (drained rest (.push p stack)).restores? = some start) :
    start.innerDepth = stack.frames.length := by
  obtain ⟨rest, left, stack, hMachine⟩ := eq_of_restores hRestores
  cases hMachine
  exact hLevel (.choice ⟨start, left⟩ stack.frames) (List.mem_append_left _
    (List.mem_append_right _ (List.mem_singleton_self _))) ⟨start, left⟩ stack.frames rfl

variable (retire) in
/-- A step of a machine in its place, from a context that fits the chart, comes to such a machine
and such a context. -/
theorem charts_step {m : Machine} (h : m.Placed ch outer)
    (hLevel : ∀ x ∈ m.holdings, Level x) :
    Charts ch outer m.stack.frames (PlacedMachine outer) (m.step retire) := by
  obtain ⟨k, walk, stack⟩ := m
  have hStack : stack.Placed ch outer := h.stack
  have hWalk : walk.Placed ch (innermost outer stack.frames) := h.walk
  cases hWalk with
  | pull hs => exact charts_stepPull hs hStack
  | found hItem hs =>
    cases hStack with
    | nil => exact charts_pure ⟨rfl, .found hItem hs, .nil⟩
    | push hp hBelow => exact charts_stepFound hItem hs hp hBelow
  | drained hs =>
    cases hStack with
    | nil => exact charts_pure ⟨rfl, .drained hs, .nil⟩
    | @push _ _ p below hp hBelow =>
      exact charts_stepDrained hs hp hBelow fun _ => innerDepth_of_restores hLevel

end Machine

end AmbScript
