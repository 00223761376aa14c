import AmbScript.Proofs.Listing.Closed
import AmbScript.Proofs.Machine.Run

/-!
# Contexts at rest

Between runs a context is at rest: it is new, or a run has left it, whether by its outcome or
because it was given up. Contexts at rest are closed, since no machine step makes anything dangle,
not even one that goes back to an earlier moment.

* `Machine.keeps_step` — a step keeps contexts and machines closed.
* `Context.Closed.restore` — so does going back.
* `Context.AtRest` — the contexts between runs; `Context.AtRest.isClosed` says that they are closed.

The machine's functions are gone through one by one, each with a lemma `keeps_…` that says: from a
closed context, with closed things at hand, it comes to a closed machine in a closed context, for a
region that may have become larger. What was closed for the smaller region is so for the larger one,
so that nothing has to be said about what evaluation adds to it.
-/

namespace AmbScript

open Eval

variable {r r' : Region} {retire : {k : Kind} → Search k → Bool}

-- ---------------------------------------------------------------------------
-- Entering, leaving and going back
-- ---------------------------------------------------------------------------

namespace Context.Closed

variable {c : Context}

/-- A frame of the region may be entered. -/
theorem enter (h : c.Closed r) {f : FrameId} (hFrame : ClosedFrame r f) : (c.enter f).Closed r :=
  Agree.enter h hFrame

theorem leave (h : c.Closed r) : c.leave.Closed r := Agree.leave h

/-- To note a moment marks the store, and touches no frame. -/
theorem checkpoint (h : c.Closed r) : c.checkpoint.Closed r := by
  exact Agree.ofStore h (fun _ _ => rfl) (fun _ _ => rfl) (Nat.le_refl _) (Nat.le_refl _) rfl
    rfl rfl rfl rfl

/-- A binding that is put back in a frame, or taken away. -/
theorem put (h : Agree r.same c c) (f : FrameId) (name : String) {b : Option Binding}
    (hb : ∀ b₀, b = some b₀ → b₀.Alike r.same b₀) :
    Closed r { c with store := c.store.put f name b } where
  scopes := by
    rintro g _ ⟨rfl, hg⟩
    obtain ⟨s, s', hs, hs', hAlike⟩ := h.scopes (f := g) ⟨rfl, hg⟩
    rw [hs] at hs'
    cases hs'
    dsimp only
    rw [Store.scope?_put, hs]
    split
    -- the frame written keeps its parent and all other bindings
    · refine ⟨_, _, rfl, rfl, hAlike.parent, fun n => ?_⟩
      unfold Scope.set
      dsimp only
      split
      · cases hEq : b with
        | none => exact .none
        | some b₀ => exact .some (hb b₀ hEq)
      · exact hAlike.binding n
    · exact ⟨_, _, rfl, rfl, hAlike⟩
  cells := h.cells
  inner := h.inner
  outer := h.outer
  rooted := h.rooted
  logged := h.logged

/-- Some of the log is forgotten. -/
theorem withTrail (h : Agree r.same c c) (trail : Array Undo)
    (hTrail : ∀ u ∈ trail.toList, u ∈ c.store.trail.toList) (watermark : FrameId) :
    Closed r { c with store := { c.store with trail, watermark } } where
  scopes := h.scopes
  cells := h.cells
  inner := h.inner
  outer := h.outer
  rooted := h.rooted
  logged hu := h.logged (hTrail _ hu)

/-- What was overwritten is inside the region. -/
theorem previous (h : c.Closed r) {u : Undo} (hu : u ∈ c.store.trail.toList) {b : Binding}
    (hb : u.previous = some b) : b.Alike r.same b := by
  obtain ⟨b', hAlike⟩ := Agree.logged h hu hb
  have hDomain : r.same.domain ≤ r := ⟨fun f ⟨_, hf⟩ => hf.2, fun i ⟨_, hi⟩ => hi.2⟩
  exact hAlike.domain.mono (Region.same_mono hDomain)

/-- What is put back is inside the region, since it was logged. -/
theorem undoLast (h : c.Closed r) : Closed r { c with store := c.store.undoLast } := by
  unfold Store.undoLast
  cases hBack : c.store.trail.back? with
  | none => exact h
  | some u =>
    have hMem : u ∈ c.store.trail.toList := by
      rw [Array.back?_eq_getElem?] at hBack
      exact Array.mem_toList_iff.mpr (Array.mem_of_getElem? hBack)
    have hPopped := withTrail h c.store.trail.pop
      (fun v hv => List.dropLast_subset _ (by rwa [Array.toList_pop] at hv)) c.store.watermark
    exact put hPopped u.frame u.name fun b₀ hb => h.previous hMem hb

theorem undo (n : Nat) (h : c.Closed r) : Closed r { c with store := Store.undo n c.store } := by
  induction n generalizing c with
  | zero => exact h
  | succ n ih => exact ih h.undoLast

/-- Whatever moment is gone back to, the context is closed. -/
theorem restore (h : c.Closed r) (m : Checkpoint) : (c.restore m).Closed r := by
  have hUndone : Agree r.same _ _ := h.undo (c.store.trail.size - m.trailLength)
  exact ⟨hUndone.scopes, hUndone.cells, List.forall₂_drop _ hUndone.inner, hUndone.outer,
    hUndone.rooted, hUndone.logged⟩

end Context.Closed

namespace Eval

/-- To enter a frame of the region. -/
theorem keeps_enter {f : FrameId} (hFrame : ClosedFrame r f) : Keeps r ClosedUnit (enter f) := by
  refine keeps_modify fun _ hClosed => ?_
  exact hClosed.enter hFrame

/-- To leave the frame in force. -/
theorem keeps_leave : Keeps r ClosedUnit leave := keeps_modify fun _ hClosed => hClosed.leave

/-- To go back to whatever moment. -/
theorem keeps_restore (m : Checkpoint) : Keeps r ClosedUnit (restore m) := by
  refine keeps_modify fun _ hClosed => ?_
  exact hClosed.restore m

/-- To note a moment. -/
theorem keeps_checkpoint : Keeps r (fun _ _ => True) checkpoint := by
  intro _ hClosed
  exact .ok le_rfl hClosed.checkpoint trivial

end Eval

-- ---------------------------------------------------------------------------
-- Machines
-- ---------------------------------------------------------------------------

/-- What waits for a result refers to nothing outside of the region. -/
inductive Pending.Closed (r : Region) : {i o : Kind} → Pending i o → Prop
  | map {i o : Kind} {f : Mapping i o} (hf : f.Closed r) : Closed r (.map f)
  | outer {i o : Kind} {f : Expansion i o} (hf : f.Closed r) : Closed r (.outer f)
  | inner {i o : Kind} {f : Expansion i o} (hf : f.Closed r) {s : Search i} (h : s.Closed r) :
      Closed r (.inner f s)
  | within {k : Kind} {frame : FrameId} (hFrame : ClosedFrame r frame) :
      Closed r (.within (k := k) frame)
  | choosing (start : Checkpoint) (alternatives : List Expr) :
      Closed r (.choosing start alternatives)
  | operand (rest : List Expr) {below : List Operand} (h : OperandsClosed r below)
      {values : List Value} (hValues : ∀ v ∈ values, ClosedValue r v) :
      Closed r (.operand rest below values)
  | statement (index : Nat) (rest : List Stmt) {below : List Reached} (h : ReachedClosed r below)
      (commit : Option Nat) : Closed r (.statement index rest below commit)
  | init {header : Loop} (hHeader : header.Closed r) {below : List Phase}
      (h : PhasesClosed r below) : Closed r (.init header below)
  | test {header : Loop} (hHeader : header.Closed r) {below : List Phase}
      (h : PhasesClosed r below) : Closed r (.test header below)
  | body {header : Loop} (hHeader : header.Closed r) {below : List Phase}
      (h : PhasesClosed r below) : Closed r (.body header below)
  | update {header : Loop} (hHeader : header.Closed r) {below : List Phase}
      (h : PhasesClosed r below) : Closed r (.update header below)

/-- What waits stays closed for a larger region. -/
theorem Pending.Closed.mono (hle : r ≤ r') {i o : Kind} {p : Pending i o} (h : p.Closed r) :
    p.Closed r' := by
  cases h with
  | map hf => exact .map (hf.mono hle)
  | outer hf => exact .outer (hf.mono hle)
  | inner hf h => exact .inner (hf.mono hle) (h.mono hle)
  | within hFrame => exact .within (hFrame.mono hle)
  | choosing start es => exact .choosing start es
  | operand rest h hValues => exact .operand rest (h.mono hle) (closedValues_mono hle hValues)
  | statement index rest h commit => exact .statement index rest (h.mono hle) commit
  | init hHeader h => exact .init (hHeader.mono hle) (h.mono hle)
  | test hHeader h => exact .test (hHeader.mono hle) (h.mono hle)
  | body hHeader h => exact .body (hHeader.mono hle) (h.mono hle)
  | update hHeader h => exact .update (hHeader.mono hle) (h.mono hle)

/-- All that waits refers to nothing outside of the region. -/
inductive Stack.Closed (r : Region) : {k : Kind} → Stack k → Prop
  | nil : Closed r .nil
  | push {i o : Kind} {p : Pending i o} (h : p.Closed r) {below : Stack o}
      (hBelow : Closed r below) : Closed r (.push p below)

theorem Stack.Closed.mono (hle : r ≤ r') {k : Kind} {stack : Stack k} (h : stack.Closed r) :
    stack.Closed r' := by
  induction h with
  | nil => exact .nil
  | push h _ ih => exact .push (h.mono hle) ih

/-- Nor does the search that the walk is at, or the result that was found. -/
inductive Walk.Closed (r : Region) {k : Kind} : Walk k → Prop
  | pull {s : Search k} (h : s.Closed r) : Closed r (.pull s)
  | found {item : k.Item} (hItem : ClosedItem k r item) {s : Search k} (h : s.Closed r) :
      Closed r (.found item s)
  | drained {s : Search k} (h : s.Closed r) : Closed r (.drained s)

/-- Nor does any part of the machine. -/
inductive Machine.Closed (r : Region) : Machine → Prop
  | mk {k : Kind} {walk : Walk k} {stack : Stack k} (hWalk : walk.Closed r)
      (hStack : stack.Closed r) : Closed r ⟨k, walk, stack⟩

namespace Machine

variable {k : Kind} {stack : Stack k}

/-- A machine that asks a closed search. -/
theorem closed_pull {s : Search k} (h : s.Closed r) (hStack : stack.Closed r) :
    (pull s stack).Closed r := .mk (.pull h) hStack

/-- A machine that has found a closed result. -/
theorem closed_found {item : k.Item} (hItem : ClosedItem k r item) {s : Search k}
    (h : s.Closed r) (hStack : stack.Closed r) : (found item s stack).Closed r :=
  .mk (.found hItem h) hStack

/-- A machine that has found no result. -/
theorem closed_drained {s : Search k} (h : s.Closed r) (hStack : stack.Closed r) :
    (drained s stack).Closed r := .mk (.drained h) hStack

/-- The next alternative of a choice is evaluated. -/
theorem keeps_nextAlternative (start : Checkpoint) (es : List Expr) {stack : Stack .value}
    (hStack : stack.Closed r) : Keeps r Machine.Closed (nextAlternative start es stack) := by
  cases es with
  | nil => exact keeps_pure (closed_drained (.between start []) hStack)
  | cons e rest =>
    exact keeps_bind (e.keeps_start r) fun _ hle _ hs =>
      keeps_pure (closed_pull hs (.push (.choosing start rest) (hStack.mono hle)))

/-- The last operand is asked for another value. -/
theorem closed_pullOperand {operands : List Operand} (h : OperandsClosed r operands)
    {values : List Value} (hValues : ∀ v ∈ values, ClosedValue r v) {stack : Stack .tuple}
    (hStack : stack.Closed r) : (pullOperand operands values stack).Closed r := by
  cases h with
  | nil => exact closed_drained (.producing .nil hValues) hStack
  | cons rest hs hBelow => exact closed_pull hs (.push (.operand rest hBelow hValues) hStack)

/-- The first operand is evaluated. -/
theorem keeps_startProduct (exprs : List Expr) {stack : Stack .tuple} (hStack : stack.Closed r) :
    Keeps r Machine.Closed (startProduct exprs stack) := by
  have hNone : ∀ v ∈ ([] : List Value), ClosedValue r v := by simp
  cases exprs with
  | nil => exact keeps_pure (closed_found (k := .tuple) hNone (.producing .nil hNone) hStack)
  | cons e rest =>
    exact keeps_bind (e.keeps_start r) fun _ hle _ hs =>
      keeps_pure (closed_pullOperand (.cons rest hs .nil) (closedValues_mono hle hNone)
        (hStack.mono hle))

/-- An operand has a value, and the next one is evaluated. -/
theorem keeps_fillOperand (rest : List Expr) {s : Search .value} (hs : s.Closed r)
    {below : List Operand} (hBelow : OperandsClosed r below) {values : List Value}
    (hValues : ∀ v ∈ values, ClosedValue r v) {v : Value} (hv : ClosedValue r v)
    {stack : Stack .tuple} (hStack : stack.Closed r) :
    Keeps r Machine.Closed (fillOperand (.mk rest s) below values v stack) := by
  have hAll : ∀ u ∈ v :: values, ClosedValue r u := List.forall_mem_cons.mpr ⟨hv, hValues⟩
  cases rest with
  | nil =>
    have hTuple : ∀ u ∈ (v :: values).reverse, ClosedValue r u := fun u hu =>
      hAll u (List.mem_reverse.mp hu)
    exact keeps_pure
      (closed_found (k := .tuple) hTuple (.producing (.cons [] hs hBelow) hValues) hStack)
  | cons e rest =>
    exact keeps_bind (e.keeps_start r) fun _ hle _ hNext =>
      keeps_pure (closed_pullOperand (.cons rest hNext (.cons _ (hs.mono hle) (hBelow.mono hle)))
        (closedValues_mono hle hAll) (hStack.mono hle))

/-- The last statement is asked for another completion. -/
theorem closed_pullStatement {reached : List Reached} (h : ReachedClosed r reached)
    (commit : Option Nat) {stack : Stack .completion} (hStack : stack.Closed r) :
    (pullStatement reached commit stack).Closed r := by
  cases h with
  | nil => exact closed_drained (.sequenced .nil commit) hStack
  | cons index rest hs hBelow =>
    show Machine.Closed r (if _ then _ else _)
    split
    · exact closed_drained (.sequenced .nil commit) hStack
    · exact closed_pull hs (.push (.statement index rest hBelow commit) hStack)

/-- The next statement is evaluated. -/
theorem keeps_startStatement (index : Nat) (stmt : Stmt) (rest : List Stmt) {below : List Reached}
    (hBelow : ReachedClosed r below) (commit : Option Nat) {stack : Stack .completion}
    (hStack : stack.Closed r) :
    Keeps r Machine.Closed (startStatement index stmt rest below commit stack) := by
  refine keeps_bind (stmt.keeps_start r) fun _ hle _ hs => ?_
  exact keeps_pure (closed_pullStatement (.cons index rest hs (hBelow.mono hle)) _ (hStack.mono
    hle))

/-- The first statement is evaluated. -/
theorem keeps_startSequence (stmts : List Stmt) {stack : Stack .completion}
    (hStack : stack.Closed r) : Keeps r Machine.Closed (startSequence stmts stack) := by
  cases stmts with
  | nil =>
    have hItem : ClosedItem .completion r (.value .undefined) := Value.Alike.undefined
    exact keeps_pure (closed_found (k := .completion) hItem (.sequenced .nil none) hStack)
  | cons stmt rest => exact keeps_startStatement 0 stmt rest .nil none hStack

/-- A statement has completed, and the sequence goes on or ends. -/
theorem keeps_completeStatement (index : Nat) (rest : List Stmt) {completion : Completion}
    (hCompletion : ClosedItem .completion r completion) {reached : List Reached}
    (h : ReachedClosed r reached) (commit : Option Nat) {stack : Stack .completion}
    (hStack : stack.Closed r) :
    Keeps r Machine.Closed (completeStatement index rest completion reached commit stack) := by
  unfold completeStatement
  split
  · exact keeps_startStatement _ _ _ h commit hStack
  · exact keeps_pure (closed_found (k := .completion) hCompletion (.sequenced h commit) hStack)

section

variable {header : Loop} (hHeader : header.Closed r) {phases : List Phase}
  (hPhases : PhasesClosed r phases) {stack : Stack .completion} (hStack : stack.Closed r)
include hHeader

/-- The frame of the loop's variables is in the region. -/
theorem keeps_enterLoop : Keeps r ClosedUnit (enterLoop header) := by
  cases header with
  | whileLoop test body => exact keeps_pure trivial
  | forLoop init test update body frame => exact keeps_enter hHeader

omit hHeader in
theorem keeps_leaveLoop : Keeps r ClosedUnit (leaveLoop header) := by
  cases header with
  | whileLoop test body => exact keeps_pure trivial
  | forLoop init test update body frame => exact keeps_leave

omit hHeader in
/-- The test of a loop is evaluated, or holds if it is missing. -/
theorem keeps_startTest : Keeps r Phase.Closed (startTest header) := by
  cases header with
  | whileLoop test body =>
    exact keeps_bind (test.keeps_start r) fun _ _ _ hs => keeps_pure (.test hs)
  | forLoop init test update body frame =>
    cases test with
    | none => exact keeps_pure (.test (.found (k := .value) (Value.Alike.bool true)))
    | some test => exact keeps_bind (test.keeps_start r) fun _ _ _ hs => keeps_pure (.test hs)

omit hHeader in
/-- The first part of a loop is evaluated. -/
theorem keeps_startLoop : Keeps r Phase.Closed (startLoop header) := by
  unfold startLoop
  split
  · exact keeps_bind (Stmt.keeps_start _ r) fun _ _ _ hs => keeps_pure (.init hs)
  · exact keeps_startTest

omit hHeader in
/-- The update is evaluated, if there is one. -/
theorem keeps_startUpdate : Keeps r Phase.Closed (startUpdate header) := by
  unfold startUpdate
  split
  · exact keeps_bind (Expr.keeps_start _ r) fun _ _ _ hs => keeps_pure (.update hs)
  · exact keeps_startTest

/-- The body is evaluated, in the frame of a round that is made for it. -/
theorem keeps_startBody : Keeps r Phase.Closed (startBody header) := by
  cases header with
  | whileLoop test body =>
    exact keeps_bind (body.keeps_start r) fun _ _ _ hs => keeps_pure (.body hs)
  | forLoop init test update body frame =>
    refine keeps_bind (keeps_frame (matches_openRound init hHeader)) fun _ _ _ hRound => ?_
    refine keeps_bind (keeps_enter hRound) fun r₂ hle₂ _ _ => ?_
    refine keeps_bind (body.keeps_start r₂) fun _ hle₃ _ hs => ?_
    exact keeps_bind keeps_leave fun _ hle₄ _ _ =>
      keeps_pure (.body (.within (hRound.mono (hle₂.trans (hle₃.trans hle₄))) (hs.mono hle₄)))

include hPhases hStack

/-- The last part of a loop is asked for another result. -/
theorem keeps_pullPhase : Keeps r Machine.Closed (pullPhase header phases stack) := by
  cases hPhases with
  | nil =>
    exact keeps_bind keeps_leaveLoop fun _ hle _ _ =>
      keeps_pure (closed_drained (.looping (hHeader.mono hle) .nil) (hStack.mono hle))
  | cons hPhase hBelow =>
    cases hPhase with
    | init hs => exact keeps_pure (closed_pull hs (.push (.init hHeader hBelow) hStack))
    | test hs => exact keeps_pure (closed_pull hs (.push (.test hHeader hBelow) hStack))
    | body hs => exact keeps_pure (closed_pull hs (.push (.body hHeader hBelow) hStack))
    | update hs => exact keeps_pure (closed_pull hs (.push (.update hHeader hBelow) hStack))

/-- A part of the loop is started on top of the others. -/
theorem keeps_launchPhase {x : Eval Phase} (hx : Keeps r Phase.Closed x) :
    Keeps r Machine.Closed (do pullPhase header ((← x) :: phases) stack) := by
  refine keeps_bind hx fun _ hle _ hPhase => ?_
  exact keeps_pullPhase (hHeader.mono hle) (.cons hPhase (hPhases.mono hle)) (hStack.mono hle)

/-- The loop completes. -/
theorem keeps_completeLoop {completion : Completion}
    (hCompletion : ClosedItem .completion r completion) :
    Keeps r Machine.Closed (completeLoop header phases completion stack) := by
  refine keeps_bind keeps_leaveLoop fun _ hle _ _ => ?_
  exact keeps_pure (closed_found (k := .completion) (ClosedItem.mono hle hCompletion) (.looping
    (hHeader.mono hle) (hPhases.mono hle)) (hStack.mono hle))

/-- The test has a value. -/
theorem keeps_afterTest (test : Value) :
    Keeps r Machine.Closed (afterTest header phases test stack) := by
  unfold afterTest
  split
  · exact keeps_launchPhase hHeader hPhases hStack (keeps_startBody hHeader)
  · exact keeps_completeLoop hHeader hPhases hStack Value.Alike.undefined
  · exact keeps_nonBoolean _ _

/-- The body has completed. -/
theorem keeps_afterBody {completion : Completion}
    (hCompletion : ClosedItem .completion r completion) :
    Keeps r Machine.Closed (afterBody header phases completion stack) := by
  unfold afterBody
  split
  · exact keeps_launchPhase hHeader hPhases hStack keeps_startUpdate
  · exact keeps_launchPhase hHeader hPhases hStack keeps_startUpdate
  · exact keeps_completeLoop hHeader hPhases hStack Value.Alike.undefined
  · exact keeps_completeLoop hHeader hPhases hStack hCompletion

end

-- ---------------------------------------------------------------------------
-- The step
-- ---------------------------------------------------------------------------

/-- A search is asked, one case for each form of search. -/
theorem keeps_stepPull {k : Kind} {s : Search k} (h : s.Closed r) {stack : Stack k}
    (hStack : stack.Closed r) : Keeps r Machine.Closed (stepPull s stack) := by
  cases h with
  | failed => exact keeps_pure (closed_drained .failed hStack)
  | found hItem => exact keeps_pure (closed_found hItem .failed hStack)
  | map hf h => exact keeps_pure (closed_pull h (.push (.map hf) hStack))
  | bind hf h => exact keeps_pure (closed_pull h (.push (.outer hf) hStack))
  | binding hf hOuter hInner => exact keeps_pure (closed_pull hInner (.push (.inner hf hOuter) hStack))
  | within hFrame h =>
    exact keeps_bind (keeps_enter hFrame) fun _ hle _ _ =>
      keeps_pure (closed_pull (h.mono hle) (.push (.within (hFrame.mono hle)) (hStack.mono hle)))
  | choice es =>
    exact keeps_bind keeps_checkpoint fun _ hle _ _ => keeps_nextAlternative _ _ (hStack.mono hle)
  | between start es => exact keeps_nextAlternative start es hStack
  | choosing start es h => exact keeps_pure (closed_pull h (.push (.choosing start es) hStack))
  | product es => exact keeps_startProduct es hStack
  | producing h hValues => exact keeps_pure (closed_pullOperand h hValues hStack)
  | sequence stmts => exact keeps_startSequence stmts hStack
  | sequenced h commit => exact keeps_pure (closed_pullStatement h commit hStack)
  | loop hHeader =>
    refine keeps_bind (keeps_enterLoop hHeader) fun _ hle _ _ => ?_
    exact keeps_launchPhase (hHeader.mono hle) .nil (hStack.mono hle) keeps_startLoop
  | looping hHeader h =>
    exact keeps_bind (keeps_enterLoop hHeader) fun _ hle _ _ =>
      keeps_pullPhase (hHeader.mono hle) (h.mono hle) (hStack.mono hle)

/-- A statement with a completion is kept, or dropped. -/
theorem reachedClosed_keep (dropped : Bool) (index : Nat) (rest : List Stmt)
    {s : Search .completion} (hs : s.Closed r) {below : List Reached}
    (hBelow : ReachedClosed r below) : ReachedClosed r (keep dropped (.mk index rest s) below) := by
  cases dropped with
  | true => exact hBelow
  | false => exact .cons index rest hs hBelow

theorem phasesClosed_keep (dropped : Bool) {p : Phase} (hp : p.Closed r) {below : List Phase}
    (hBelow : PhasesClosed r below) : PhasesClosed r (keep dropped p below) := by
  cases dropped with
  | true => exact hBelow
  | false => exact .cons hp hBelow

/-- What waits has got a result, one case for each way to wait. -/
theorem keeps_stepFound {i o : Kind} {item : i.Item} (hItem : ClosedItem i r item) {s : Search i}
    (hs : s.Closed r) {p : Pending i o} (hp : p.Closed r) {stack : Stack o}
    (hStack : stack.Closed r) : Keeps r Machine.Closed (stepFound retire item s p stack) := by
  cases hp with
  | map hf =>
    exact keeps_bind (Mapping.keeps_apply hf hItem) fun _ hle _ hResult =>
      keeps_pure (closed_found hResult (.map (hf.mono hle) (hs.mono hle)) (hStack.mono hle))
  | outer hf =>
    exact keeps_bind (Expansion.keeps_apply hf hItem) fun _ hle _ hNext =>
      keeps_pure (closed_pull hNext (.push (.inner (hf.mono hle) (hs.mono hle)) (hStack.mono hle)))
  -- the part is dropped, or kept beside the search for further results
  | inner hf hOuter =>
    refine keeps_pure (closed_found hItem ?_ hStack)
    split
    · exact .bind hf hOuter
    · exact .binding hf hOuter hs
  | within hFrame =>
    exact keeps_bind keeps_leave fun _ hle _ _ => keeps_pure
      (closed_found (hItem.mono hle) (.within (hFrame.mono hle) (hs.mono hle)) (hStack.mono hle))
  | choosing start es =>
    exact keeps_pure (closed_found (k := .value) hItem (.choosing start es hs) hStack)
  | operand rest hBelow hValues => exact keeps_fillOperand rest hs hBelow hValues hItem hStack
  | statement index rest hBelow commit =>
    exact keeps_completeStatement index rest hItem (reachedClosed_keep _ index rest hs hBelow)
      commit hStack
  | init hHeader hBelow =>
    exact keeps_launchPhase hHeader (phasesClosed_keep _ (.init hs) hBelow) hStack keeps_startTest
  | test hHeader hBelow =>
    exact keeps_afterTest hHeader (phasesClosed_keep _ (.test hs) hBelow) hStack item
  | body hHeader hBelow =>
    exact keeps_afterBody hHeader (phasesClosed_keep _ (.body hs) hBelow) hStack hItem
  | update hHeader hBelow =>
    exact keeps_launchPhase hHeader (phasesClosed_keep _ (.update hs) hBelow) hStack
      keeps_startTest

/-- What waits has got no result. A choice goes back then, which is where old bindings return. -/
theorem keeps_stepDrained {i o : Kind} {s : Search i} (hs : s.Closed r) {p : Pending i o}
    (hp : p.Closed r) {stack : Stack o} (hStack : stack.Closed r) :
    Keeps r Machine.Closed (stepDrained s p stack) := by
  cases hp with
  | map hf => exact keeps_pure (closed_drained (.map hf hs) hStack)
  | outer hf => exact keeps_pure (closed_drained (.bind hf hs) hStack)
  | inner hf hOuter => exact keeps_pure (closed_pull hOuter (.push (.outer hf) hStack))
  | within hFrame =>
    exact keeps_bind keeps_leave fun _ hle _ _ =>
      keeps_pure (closed_drained (.within (hFrame.mono hle) (hs.mono hle)) (hStack.mono hle))
  | choosing start es =>
    exact keeps_bind (keeps_restore start) fun _ hle _ _ =>
      keeps_nextAlternative start es (hStack.mono hle)
  | operand rest hBelow hValues =>
    exact keeps_pure (closed_pullOperand hBelow
      (fun v hv => hValues v (List.mem_of_mem_tail hv)) hStack)
  | statement index rest hBelow commit =>
    exact keeps_pure (closed_pullStatement hBelow commit hStack)
  | init hHeader hBelow => exact keeps_pullPhase hHeader hBelow hStack
  | test hHeader hBelow => exact keeps_pullPhase hHeader hBelow hStack
  | body hHeader hBelow => exact keeps_pullPhase hHeader hBelow hStack
  | update hHeader hBelow => exact keeps_pullPhase hHeader hBelow hStack

/-- A machine step makes nothing dangle. -/
theorem keeps_step {m : Machine} (h : m.Closed r) : Keeps r Machine.Closed (m.step retire) := by
  cases h with
  | @mk k walk stack hWalk hStack =>
    cases hWalk with
    | pull hs => exact keeps_stepPull hs hStack
    | found hItem hs =>
      cases hStack with
      | nil => exact keeps_pure (closed_found hItem hs .nil)
      | push hp hBelow => exact keeps_stepFound hItem hs hp hBelow
    | drained hs =>
      cases hStack with
      | nil => exact keeps_pure (closed_drained hs .nil)
      | push hp hBelow => exact keeps_stepDrained hs hp hBelow

-- ---------------------------------------------------------------------------
-- Walks
-- ---------------------------------------------------------------------------

/-- What is left when a walk is over. -/
theorem Closed.finished {m : Machine} (h : m.Closed r) {v : Option Value} {rest : Search .value}
    (hFinished : m.finished? = some (v, rest)) : rest.Closed r := by
  cases h with
  | mk hWalk hStack =>
    cases hStack with
    | push => cases hWalk <;> cases hFinished
    | nil =>
      cases hWalk with
      | pull => cases hFinished
      | found _ hs =>
        cases hFinished
        exact hs
      | drained hs =>
        cases hFinished
        exact hs

/-- Where a walk ends, nothing dangles either. -/
theorem Answers.kept {n : Nat} {m : Machine} {c : Context} {x : Answer}
    (h : m.Answers retire n c x) {r : Region} (hMachine : m.Closed r) (hContext : c.Closed r) :
    Kept r (fun r y => y.2.Closed r) x := by
  -- by induction on the answer, the region growing with each step
  induction h generalizing r with
  | @finished m c x hFinished => exact .ok le_rfl hContext (hMachine.finished hFinished)
  | @fault m c d t hUnfinished hStep =>
    have hKept : Kept r Machine.Closed (m.step retire c) := keeps_step hMachine _ hContext
    rw [hStep] at hKept
    cases hKept with
    | error hle hClosed => exact .error hle hClosed
  | @step n m m' c d x hUnfinished hStep _ ih =>
    have hKept : Kept r Machine.Closed (m.step retire c) := keeps_step hMachine _ hContext
    rw [hStep] at hKept
    cases hKept with
    | ok hle hClosed hNext =>
      cases ih hNext hClosed with
      | ok hle' hClosed' hRest => exact .ok (hle.trans hle') hClosed' hRest
      | error hle' hClosed' => exact .error (hle.trans hle') hClosed'

/-- A machine that has just been made for a search. -/
theorem closed_ofSearch {s : Search .value} (h : s.Closed r) : (ofSearch s).Closed r :=
  closed_pull h .nil

/-- A search that is walked to its end. -/
theorem Drains.kept {m : Machine} {c : Context} {x : EStateM.Result Fault Context Unit}
    (h : m.Drains retire c x) {r : Region} (hMachine : m.Closed r) (hContext : c.Closed r) :
    Kept r ClosedUnit x := by
  induction h generalizing r with
  | fault hAnswers =>
    cases hAnswers.kept hMachine hContext with
    | error hle hClosed => exact .error hle hClosed
  | done hAnswers =>
    cases hAnswers.kept hMachine hContext with
    | ok hle hClosed _ => exact .ok hle hClosed trivial
  | more hAnswers _ ih =>
    cases hAnswers.kept hMachine hContext with
    | ok hle hClosed hRest =>
      cases ih (closed_ofSearch hRest) hClosed with
      | ok hle' hClosed' h => exact .ok (hle.trans hle') hClosed' h
      | error hle' hClosed' => exact .error (hle.trans hle') hClosed'

end Machine

-- ---------------------------------------------------------------------------
-- Programs
-- ---------------------------------------------------------------------------

namespace Context

/-- Nothing dangles. -/
def IsClosed (c : Context) : Prop := ∃ r, c.Closed r

variable {c d : Context}

/-- A change of the context that does not touch what matters. -/
theorem IsClosed.of_same (h : c.IsClosed) (hStore : d.store = c.store)
    (hCells : d.nextCell = c.nextCell) (hInner : d.inner = c.inner) (hOuter : d.outer = c.outer) :
    d.IsClosed := by
  refine h.imp fun _ hClosed => ?_
  exact hClosed.of_same hStore hCells hInner hOuter

/-- The frames of a run are left when it is over. -/
theorem Closed.unwind (h : Agree r.same c c) : c.unwind.Closed r :=
  ⟨h.scopes, h.cells, .nil, h.outer, h.rooted, h.logged⟩

/-- A frame that outlasts the run is entered. -/
theorem Closed.enterOuter (h : Agree r.same c c) {f : FrameId} (hFrame : ClosedFrame r f) :
    (c.enterOuter f).Closed r :=
  ⟨h.scopes, h.cells, .nil, .cons hFrame h.outer, List.cons_ne_nil _ _, h.logged⟩

/-- A fault is reported. -/
theorem IsClosed.abort (h : c.IsClosed) (t : Fault) : (c.abort t).IsClosed := by
  obtain ⟨r, hClosed⟩ := h
  exact IsClosed.of_same ⟨r, Closed.unwind hClosed⟩ rfl rfl rfl rfl

/-- A run is given up. -/
theorem IsClosed.interrupt (h : c.IsClosed) : c.interrupt.IsClosed :=
  (h.abort (.interrupted .synthetic)).of_same rfl rfl rfl rfl

/-- A new run is prepared for. -/
theorem IsClosed.prepare (h : c.IsClosed) (limits : Limits) : (c.prepare limits).IsClosed := by
  obtain ⟨r, hClosed⟩ := h
  have hForgotten : Closed r { c.unwind with store := c.store.forget } :=
    Closed.withTrail (Closed.unwind hClosed) #[] (fun _ hu => absurd hu List.not_mem_nil) 0
  exact IsClosed.of_same ⟨r, hForgotten⟩ rfl rfl rfl rfl

end Context

/-- A program begins in a new frame, inside those that outlast runs. -/
theorem Program.keeps_enter (p : Program) (r : Region) : Keeps r ClosedUnit p.enter := by
  refine keeps_bind (keeps_frame (matches_childFrame _)) fun r₁ _ f hFrame => ?_
  refine keeps_bind (keeps_unit (matches_hoist hFrame p.body)) fun r₂ hle₂ _ _ => ?_
  exact keeps_modify fun c hClosed => Context.Closed.enterOuter hClosed (hFrame.mono hle₂)

/-- The search for a program's result. -/
theorem Program.keeps_start (p : Program) (r : Region) : Keeps r ClosedSearch p.start := by
  refine keeps_bind (p.keeps_enter r) fun _ _ _ _ => ?_
  exact keeps_pure (.map (f := .program) trivial (.sequence _))

-- ---------------------------------------------------------------------------
-- Stages
-- ---------------------------------------------------------------------------

/-- Nothing dangles in what is left of a driver step. -/
inductive Outcome.Closed : Outcome → Prop
  | finished (v : Value) {c : Context} (h : c.IsClosed) : Closed (.finished v c)
  | errored (ds : List Diagnostic) {c : Context} (h : c.IsClosed) : Closed (.errored ds c)
  | suspended {s : Suspension} {r : Region} (h : s.context.Closed r) (hRest : s.rest.Closed r) :
      Closed (.suspended s)

/-- Nothing dangles in the stage of a run. -/
inductive Stage.Closed : Stage → Prop
  | running {x : Running} {r : Region} (h : x.context.Closed r) (hMachine : x.machine.Closed r) :
      Closed (.running x)
  | ended {o : Outcome} (h : o.Closed) : Closed (.ended o)

/-- The context of an outcome. -/
theorem Outcome.Closed.context {o : Outcome} (h : o.Closed) : o.context.IsClosed := by
  cases h with
  | finished v h => exact h
  | errored ds h => exact h
  | suspended h _ => exact ⟨_, h⟩

namespace Stage

/-- A run that has failed. -/
theorem closed_errored {c : Context} (h : c.IsClosed) : (Stage.errored c).Closed :=
  .ended (.errored _ h)

/-- What a step has come to. -/
theorem closed_stage (scheduler : Scheduler) {x : EStateM.Result Fault Context Machine}
    (h : Kept r Machine.Closed x) : (Running.stage scheduler x).Closed := by
  cases h with
  | error hle hClosed => exact closed_errored (Context.IsClosed.abort ⟨_, hClosed⟩ _)
  | @ok r' m d hle hClosed hMachine =>
    rw [stage_ok]
    cases hFinished : m.finished? with
    | none => exact .running hClosed hMachine
    | some y =>
      obtain ⟨_ | v, rest⟩ := y
      · exact .ended (.finished _ ⟨_, hClosed⟩)
      · cases scheduler with
        | nonDet => exact .ended (.suspended hClosed (hMachine.finished hFinished))
        | preemptive => exact .ended (.finished _ ⟨_, hClosed⟩)

/-- A driver step begins. -/
theorem closed_begin {s : Search .value} {c : Context} (h : c.Closed r) (hs : s.Closed r)
    (scheduler : Scheduler) : (Stage.begin s c scheduler).Closed :=
  .running (h.of_same rfl rfl rfl rfl) (Machine.closed_ofSearch hs)

/-- Whatever comes next in a run. -/
theorem Closed.leads {a b : Stage} (h : a.Closed) (hLeads : Leads retire a b) : b.Closed := by
  cases hLeads with
  | step x =>
    cases h with
    | running h hMachine => exact closed_stage _ (Machine.keeps_step hMachine _ h)
  -- a run that was given up is over at once; another one is asked for its next result
  | resume s =>
    cases h with
    | ended h =>
      cases h with
      | suspended h hRest =>
        unfold Suspension.resume
        split
        · exact closed_errored ⟨_, h⟩
        · exact closed_begin h hRest _
  | signal x =>
    cases h with
    | running h hMachine => exact .running (h.of_same rfl rfl rfl rfl) hMachine
  | expire x =>
    cases h with
    | running h hMachine => exact .running (h.of_same rfl rfl rfl rfl) hMachine
  | takeOutput x =>
    cases h with
    | running h hMachine => exact .running (h.of_same rfl rfl rfl rfl) hMachine

end Stage

/-- A program begins, whether it can be started or not. -/
theorem Program.closed_begin (p : Program) {c : Context} (h : c.IsClosed) (scheduler : Scheduler) :
    (p.begin c scheduler).Closed := by
  obtain ⟨r, hClosed⟩ := h
  have hVerbose : (if p.directive? = some verboseDirective then { c with verbose := true }
      else c).Closed r := by
    split
    · exact hClosed.of_same rfl rfl rfl rfl
    · exact hClosed
  have hKept := p.keeps_start r _ hVerbose
  unfold Program.begin
  dsimp only
  revert hKept
  generalize p.start _ = x
  rintro (⟨hle, hClosed', hs⟩ | ⟨hle, hClosed'⟩)
  · exact Stage.closed_begin hClosed' hs scheduler
  · exact Stage.closed_errored (Context.IsClosed.abort ⟨_, hClosed'⟩ _)

-- ---------------------------------------------------------------------------
-- The library
-- ---------------------------------------------------------------------------

/-- A program that is run to its end for the sake of what it declares. -/
theorem Program.kept_drain (p : Program) {c : Context} (hClosed : c.Closed r)
    {x : EStateM.Result Fault Context Unit} (h : p.drain retire c = some x) :
    Kept r ClosedUnit x := by
  have hKept := p.keeps_start r c hClosed
  unfold Program.drain at h
  revert hKept h
  generalize p.start c = y
  rintro h (⟨hle, hClosed', hs⟩ | ⟨hle, hClosed'⟩)
  · have hDrains := Machine.drain_eq_some_iff.mp h
    have hBegun := hDrains.kept (Machine.closed_ofSearch hs) (hClosed'.of_same rfl rfl rfl rfl)
    cases hBegun with
    | ok hle' hClosed'' h' => exact .ok (hle.trans hle') hClosed'' h'
    | error hle' hClosed'' => exact .error (hle.trans hle') hClosed''
  · dsimp only at h
    cases h
    exact .error hle hClosed'

/-- The context that loading the library leaves, whether that could be done or not. -/
def Context.leftBy : Except Context Context → Context
  | .ok d => d
  | .error d => d

/-- The library is loaded, or failed to be. -/
theorem Context.IsClosed.loadLibrary {library : Parsed} {c : Context} (h : c.IsClosed) :
    (leftBy (c.loadLibrary retire library)).IsClosed := by
  obtain ⟨r, hClosed⟩ := h
  unfold Context.loadLibrary
  split
  · exact ⟨r, hClosed⟩
  · dsimp only
    split
    · exact ⟨r, hClosed.of_same rfl rfl rfl rfl⟩
    · rename_i p _
      -- the library is evaluated with its own text as the source, and without limits
      have hSource : Context.Closed r { c with
          preludePending := false, source := Prelude.source, limits := .unlimited } :=
        hClosed.of_same rfl rfl rfl rfl
      have hKept (x) (h : p.drain retire _ = some x) : Kept r ClosedUnit x :=
        p.kept_drain hSource h
      revert hKept
      generalize p.drain retire _ = y
      intro hKept
      cases y with
      | none => exact ⟨r, hClosed.of_same rfl rfl rfl rfl⟩
      | some x =>
        cases hKept x rfl with
        | ok hle hClosed' _ => exact ⟨_, hClosed'.of_same rfl rfl rfl rfl⟩
        | error hle hClosed' =>
          refine IsClosed.abort ?_ _
          exact ⟨_, hClosed'.of_same rfl rfl rfl rfl⟩

namespace Stage

/-- A program is read and run. -/
theorem closed_runBy (code : String) {c : Context} (h : c.IsClosed) (options : Options) :
    (runBy retire code c options).Closed := by
  have hLoaded :
      (Context.leftBy ((c.prepare options.limits).loadLibrary retire Prelude.parsed)).IsClosed :=
    (h.prepare options.limits).loadLibrary
  unfold runBy Context.loadPreludeBy
  revert hLoaded
  generalize (c.prepare options.limits).loadLibrary retire Prelude.parsed = y
  intro hLoaded
  cases y with
  | error d => exact closed_errored hLoaded
  | ok d =>
    have hLoaded : d.IsClosed := hLoaded
    -- the program starts in the context that loading has left
    dsimp only
    split
    · exact closed_errored (hLoaded.of_same rfl rfl rfl rfl)
    · refine Program.closed_begin _ ?_ _
      exact hLoaded.of_same rfl rfl rfl rfl

/-- A program is run that was read before. -/
theorem closed_runProgramBy (p : Program) {c : Context} (h : c.IsClosed) (options : Options) :
    (runProgramBy retire p c options).Closed := by
  have hLoaded :
      (Context.leftBy ((c.prepare options.limits).loadLibrary retire Prelude.parsed)).IsClosed :=
    (h.prepare options.limits).loadLibrary
  unfold runProgramBy Context.loadPreludeBy
  revert hLoaded
  generalize (c.prepare options.limits).loadLibrary retire Prelude.parsed = y
  intro hLoaded
  cases y with
  | error d => exact closed_errored hLoaded
  | ok d => exact p.closed_begin hLoaded _

end Stage

-- ---------------------------------------------------------------------------
-- Contexts at rest
-- ---------------------------------------------------------------------------

/-- Between runs: the context is new, or it is what a run has left behind. -/
inductive Context.AtRest : Context → Prop
  | new (chapter : Nat) : AtRest (.new chapter)
  /-- A driver step of a run on the context has ended, whatever came in between. -/
  | ran {c : Context} (h : AtRest c) (code : String) (options : Options) {o : Outcome}
      (hRun : Relation.ReflTransGen (Stage.Leads Search.isExhausted) (run code c options)
        (.ended o)) : AtRest o.context
  | ranProgram {c : Context} (h : AtRest c) (p : Program) (options : Options) {o : Outcome}
      (hRun : Relation.ReflTransGen (Stage.Leads Search.isExhausted) (runProgram p c options)
        (.ended o)) : AtRest o.context
  /-- A run was given up. -/
  | interrupted {c : Context} (h : AtRest c) : AtRest c.interrupt
  /-- A stop was asked for. -/
  | signalled {c : Context} (h : AtRest c) : AtRest c.signal
  /-- The lines that were displayed were taken away. -/
  | taken {c : Context} (h : AtRest c) : AtRest c.takeOutput.2

namespace Context

/-- Values that refer to nothing are bound in a frame one after the other. -/
theorem Closed.bindAll {α : Type} (name : α → String) (value : α → Value)
    (hValue : ∀ a, ClosedValue r (value a)) {f : FrameId} (hFrame : ClosedFrame r f)
    (xs : List α) {c : Context} (h : c.Closed r) :
    Closed r { c with
      store := xs.foldl (fun s a => s.write f (name a) (.ofValue (value a) true)) c.store } := by
  induction xs generalizing c with
  | nil => exact h
  | cons x xs ih =>
    exact ih (c := { c with store := c.store.write f (name x) (.ofValue (value x) true) })
      (Agree.write h hFrame (name x) (.value (hValue x) true))

/-- Primitives and numbers refer to nothing, so the global frame is all that there is. -/
theorem isClosed_new (chapter : Nat) : (Context.new chapter).IsClosed := by
  let r : Region := ⟨(· = 0), fun _ => False⟩
  let bare : Context := { Context.new chapter with store := Store.empty.newFrame "global" none none }
  have hGlobal : ClosedFrame r 0 := ⟨rfl, rfl⟩
  have hBare : bare.Closed r := by
    refine ⟨?_, fun hPair => hPair.2.elim, .nil, .cons hGlobal .nil, List.cons_ne_nil _ _,
      fun hu => absurd hu List.not_mem_nil⟩
    rintro _ _ ⟨rfl, rfl⟩
    exact ⟨⟨"global", none, none, fun _ => none⟩, _, rfl, rfl, .none, fun _ => .none⟩
  -- neither primitives nor numbers refer to a frame
  have hPrimitives := hBare.bindAll Primitive.name Value.primitive
    (fun p => Value.Alike.primitive p) hGlobal Primitive.all
  have hNumbers := hPrimitives.bindAll Prod.fst (fun x => .number x.2)
    (fun x => Value.Alike.number x.2) hGlobal numericConstants
  refine ⟨r, hNumbers.of_same ?_ rfl rfl rfl⟩
  show install (Store.empty.newFrame "global" none none) 0 = _
  unfold install
  dsimp only [bare]

/-- Between runs, nothing dangles in a context. -/
theorem AtRest.isClosed {c : Context} (h : c.AtRest) : c.IsClosed := by
  -- the stages in between are closed too, down to the outcome
  have hLeads {a b : Stage} (hRun : Relation.ReflTransGen (Stage.Leads Search.isExhausted) a b)
      (hFirst : a.Closed) : b.Closed := by
    induction hRun with
    | refl => exact hFirst
    | tail _ hStep ih => exact ih.leads hStep
  have hOutcome {o : Outcome} (hEnded : (Stage.ended o).Closed) : o.context.IsClosed := by
    cases hEnded with
    | ended h => exact h.context
  induction h with
  | new chapter => exact isClosed_new chapter
  | ran _ code options hRun ih =>
    exact hOutcome (hLeads hRun (Stage.closed_runBy code ih options))
  | ranProgram _ p options hRun ih =>
    exact hOutcome (hLeads hRun (Stage.closed_runProgramBy p ih options))
  | interrupted _ ih => exact ih.interrupt
  | signalled _ ih => exact ih.of_same rfl rfl rfl rfl
  | taken _ ih => exact ih.of_same rfl rfl rfl rfl

end Context

end AmbScript
