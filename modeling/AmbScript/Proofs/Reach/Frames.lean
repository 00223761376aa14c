import AmbScript.Proofs.Listing.Rest

/-!
# Making frames

In a closed context nothing dangles that evaluation can get at. Frames that nothing refers to any
more are no exception: they, too, were filled with what there was at the time. So if all frames are
in a closed region, they are after every action, whether it has a result or ends in a fault.

* `Eval.Idle` — an action leaves the store alone. `Expr.idle_start`: expressions do before they are
  asked for results.
* `Eval.Still` — an action makes no frame.
* `Eval.Fills` — an action leaves all frames in a closed region; `Eval.Keeps.fills` gets it for
  every action that keeps contexts closed and makes no frame.
* `Eval.fills_openBlock`, `Eval.fills_openCall`, `Eval.fills_openRound` — new scopes.
* `Stmt.fills_start`, `Expansion.fills_apply` — so do the starts of nodes.

That actions keep contexts closed is known already, and it gives a closed region after each of them,
but not one that has all frames. Most actions make no frame, so nothing more is to be shown of them
than `Still`. Only blocks, calls, loops and rounds make one, and it is put into the region right
away.
-/

namespace AmbScript

variable {α β : Type} {r r' : Region} {retire : {k : Kind} → Search k → Bool}

-- ---------------------------------------------------------------------------
-- Actions that leave the store alone
-- ---------------------------------------------------------------------------

/-- The store is as it was. -/
def Eval.Idle (x : Eval α) : Prop := ∀ c : Context, (x.after c).store = c.store

namespace Eval

theorem idle_pure (a : α) : Idle (pure a) := fun _ => rfl

/-- Two actions, one after the other. -/
theorem idle_bind {x : Eval α} {f : α → Eval β} (hx : Idle x) (hf : ∀ a, Idle (f a)) :
    Idle (x >>= f) :=
  leads_bind (R := fun c d => d.store = c.store) (fun h h' => h'.trans h) hx hf

theorem Idle.map {x : Eval α} {f : α → β} (h : Idle x) : Idle (x >>= fun a => pure (f a)) :=
  idle_bind h fun _ => idle_pure _

theorem idle_tick (span : Span) : Idle (tick span) := fun c => by
  rw [after_tick]
  rfl

/-- To count a node changes a counter only. -/
theorem Idle.counted {span : Span} {x : Eval α} (h : Idle x) :
    Idle (tick span >>= fun _ => x) := idle_bind (idle_tick span) fun _ => h

/-- To look a name up changes nothing. -/
theorem idle_lookup (name : Ident) : Idle (lookup name) := by
  intro c
  exact congrArg Context.store (after_lookup name c)

end Eval

-- ---------------------------------------------------------------------------
-- Actions that make no frame
-- ---------------------------------------------------------------------------

/-- There are as many frames after `x` as before. -/
def Eval.Still (x : Eval α) : Prop :=
  ∀ c : Context, (x.after c).store.nextFrame = c.store.nextFrame

namespace Eval

/-- Without a change of the store there is no new frame. -/
theorem Idle.still {x : Eval α} (h : Idle x) : Still x := fun c => congrArg Store.nextFrame (h c)

theorem still_pure (a : α) : Still (pure a) := fun _ => rfl

theorem still_throw (t : Fault) : Still (throw t : Eval α) := fun _ => rfl

theorem still_get : Still (get : Eval Context) := fun _ => rfl

theorem still_modify {f : Context → Context}
    (h : ∀ c, (f c).store.nextFrame = c.store.nextFrame) : Still (modify f : Eval Unit) := h

/-- Two actions, one after the other. -/
theorem still_bind {x : Eval α} {f : α → Eval β} (hx : Still x) (hf : ∀ a, Still (f a)) :
    Still (x >>= f) :=
  leads_bind (R := fun c d => d.store.nextFrame = c.store.nextFrame) (fun h h' => h'.trans h) hx hf

theorem still_tick (span : Span) : Still (tick span) := (idle_tick span).still

theorem still_tick_bind {span : Span} {x : Eval α} (hx : Still x) :
    Still (tick span >>= fun _ => x) := still_bind (still_tick span) fun _ => hx

theorem still_ofExcept (x : Except Fault α) : Still (ofExcept x) := by
  cases x with
  | ok a => exact still_pure a
  | error t => exact still_throw t

theorem still_newCell : Still newCell := fun _ => rfl

theorem still_enter (f : FrameId) : Still (enter f) := still_modify fun _ => rfl

theorem still_leave : Still leave := still_modify fun _ => rfl

theorem still_checkpoint : Still checkpoint := fun _ => rfl

/-- To go back takes bindings away but no frames. -/
theorem still_restore (m : Checkpoint) : Still (restore m) := by
  refine still_modify fun _ => ?_
  exact Store.nextFrame_unwindTo _ _

/-- Filling a frame makes none. -/
theorem Filling.still {frame : FrameId} {x : Eval α} (h : Filling frame x) : Still x :=
  h.leads (R := fun c d => d.store.nextFrame = c.store.nextFrame) (fun _ => rfl)
    (fun h h' => h'.trans h) (fun _ => rfl) (fun _ _ => rfl)
    fun _ _ _ => Store.nextFrame_write _ _ _ _

theorem still_define (name : Ident) (v : Value) (isConst : Bool) :
    Still (define name v isConst) := by
  refine still_bind still_get fun _ => ?_
  exact (filling_defineIn name v isConst).still

/-- An assignment changes a binding that is there. -/
theorem still_assign (name : Ident) (v : Value) : Still (assign name v) := by
  intro c
  rcases after_assign name v c with hAfter | ⟨frame, hAfter⟩
  · rw [hAfter]
  · rw [hAfter]
    exact Store.nextFrame_write _ _ _ _

end Eval

open Eval

mutual

/-- Expressions change no binding before they are asked for results. -/
theorem Expr.idle_start : ∀ e : Expr, Idle e.start
  | .number .. => .counted (idle_pure _)
  | .string .. => .counted (idle_pure _)
  | .bool .. => .counted (idle_pure _)
  | .null _ => .counted (idle_pure _)
  | .undefined _ => .counted (idle_pure _)
  | .array .. => .counted (idle_pure _)
  | .ident name => .counted (idle_lookup name).map
  | .assign _ value _ => .counted value.idle_start.map
  | .unary _ operand _ => .counted operand.idle_start.map
  | .binary _ left _ _ => .counted left.idle_start.map
  | .logical _ left _ _ => .counted left.idle_start.map
  | .conditional test _ _ _ => .counted test.idle_start.map
  | .call callee args span => by
    unfold Expr.start
    refine .counted ?_
    split
    · exact idle_pure _
    · exact idle_startRequire args span
    · exact callee.idle_start.map
  | .index object _ _ => .counted object.idle_start.map
  | .member object _ _ => .counted object.idle_start.map
  | .function _ => .counted fun _ => rfl

/-- The condition of a requirement is started like any expression. -/
theorem idle_startRequire : ∀ (args : List Expr) (span : Span), Idle (startRequire args span)
  | [predicate], _ => predicate.idle_start.map
  | [], _ => fun _ => rfl
  | _ :: _ :: _, _ => fun _ => rfl

end

/-- The next alternative is an expression. -/
theorem Machine.idle_nextAlternative (start : Checkpoint) (alternatives : List Expr)
    (stack : Stack .value) : Idle (nextAlternative start alternatives stack) := by
  cases alternatives with
  | nil => exact idle_pure _
  | cons e rest => exact e.idle_start.map

/-- Expressions make frames only when they are asked for results. -/
theorem Expr.still_start (e : Expr) : Still e.start := e.idle_start.still

theorem Branch.still_start (b : Branch) : Still b.start := by
  cases b with
  | mk test consequent alternate span =>
    exact still_tick_bind (still_bind test.still_start fun _ => still_pure _)

/-- What is done with one result makes no frame. -/
theorem Mapping.still_apply {i o : Kind} (f : Mapping i o) (item : i.Item) :
    Still (f.apply item) := by
  cases f with
  | array => exact still_bind still_newCell fun _ => still_pure _
  | assign target => exact still_bind (still_assign _ _) fun _ => still_pure _
  | unary op span => exact still_ofExcept _
  | binary op left span => exact still_ofExcept _
  | index object span => exact still_ofExcept _
  | member property span => exact still_throw _
  | declare isConst name => exact still_bind (still_define _ _ _) fun _ => still_pure _
  | _ => exact still_pure _

-- ---------------------------------------------------------------------------
-- Filling regions
-- ---------------------------------------------------------------------------

/-- All frames ever made are in the region. -/
def Region.Covers (r : Region) (c : Context) : Prop := ∀ f, f < c.store.nextFrame → r.frames f

/-- A larger region has all frames as well, if there are no more of them. -/
theorem Region.Covers.of_le {c d : Context} (h : r.Covers c) (hle : r ≤ r')
    (hFrames : d.store.nextFrame = c.store.nextFrame) : r'.Covers d := by
  intro f hf
  rw [hFrames] at hf
  exact hle.1 f (h f hf)

/-- Where an action ends, in a result or a fault, all frames are in a closed region. -/
inductive Filled (r : Region) (P : Region → α → Prop) : EStateM.Result Fault Context α → Prop
  | ok {r' : Region} {a : α} {d : Context} (hle : r ≤ r') (hClosed : d.Closed r')
      (hCovers : r'.Covers d) (h : P r' a) : Filled r P (.ok a d)
  | error {r' : Region} {t : Fault} {d : Context} (hle : r ≤ r') (hClosed : d.Closed r')
      (hCovers : r'.Covers d) : Filled r P (.error t d)

/-- Where all frames are in the closed region `r`, the action `x` ends with all of them in such a
region, and its results have the property. -/
def Eval.Fills (r : Region) (P : Region → α → Prop) (x : Eval α) : Prop :=
  ∀ c : Context, c.Closed r → r.Covers c → Filled r P (x c)

namespace Eval

variable {P : Region → α → Prop} {Q : Region → β → Prop}

/-- An action that makes no frame leaves none out. -/
theorem Keeps.fills {x : Eval α} (h : Keeps r P x) (hStill : Still x) : Fills r P x := by
  intro c hClosed hCovers
  have hKept := h c hClosed
  have hFrames := hStill c
  cases hResult : x c with
  | ok a d =>
    rw [hResult] at hKept
    rw [after_ok hResult] at hFrames
    cases hKept with
    | ok hle hClosed' h => exact .ok hle hClosed' (hCovers.of_le hle hFrames) h
  | error t d =>
    rw [hResult] at hKept
    rw [after_error hResult] at hFrames
    cases hKept with
    | error hle hClosed' => exact .error hle hClosed' (hCovers.of_le hle hFrames)

theorem fills_pure {a : α} (h : P r a) : Fills r P (pure a) := (keeps_pure h).fills (still_pure a)

/-- Two actions: the second one starts from whatever region the first one has left. -/
theorem fills_bind {x : Eval α} {f : α → Eval β} (hx : Fills r P x)
    (hf : ∀ r', r ≤ r' → ∀ a, P r' a → Fills r' Q (f a)) : Fills r Q (x >>= f) := by
  intro c hClosed hCovers
  have hFirst := hx c hClosed hCovers
  show Filled r Q (EStateM.bind x f c)
  unfold EStateM.bind
  revert hFirst
  generalize x c = y
  rintro (⟨hle, hClosed', hCovers', h⟩ | ⟨hle, hClosed', hCovers'⟩)
  -- the region may grow in both actions, and covers what they have made
  · dsimp only
    have hSecond := hf _ hle _ h _ hClosed' hCovers'
    revert hSecond
    generalize f _ _ = y
    rintro (⟨hle', hClosed'', hCovers'', h'⟩ | ⟨hle', hClosed'', hCovers''⟩)
    · exact .ok (hle.trans hle') hClosed'' hCovers'' h'
    · exact .error (hle.trans hle') hClosed'' hCovers''
  · exact .error hle hClosed' hCovers'

/-- A new frame is made in the region, and nothing else is. -/
theorem fills_newFrame (name : String) {parent : FrameId} (hParent : ClosedFrame r parent)
    (callSite : Option Span) : Fills r ClosedFrame (newFrame name parent callSite) := by
  intro c hClosed hCovers
  have hKept : Kept r ClosedFrame (newFrame name parent callSite c) :=
    keeps_frame (matches_newFrame name hParent callSite) c hClosed
  cases hKept with
  | ok hle hClosed' hNew =>
    refine .ok hle hClosed' (fun f hf => ?_) hNew
    have hf : f < c.store.nextFrame + 1 := by
      rw [← Store.nextFrame_newFrame]
      exact hf
    rcases Nat.lt_succ_iff_lt_or_eq.mp hf with hOld | rfl
    · exact hle.1 f (hCovers f hOld)
    · exact hNew.2

theorem fills_childFrame (name : String) : Fills r ClosedFrame (childFrame name) := by
  intro c hClosed hCovers
  exact fills_newFrame name (Agree.current hClosed) none c hClosed hCovers

/-- A frame that was made is filled further. -/
theorem fills_around {x : Eval FrameId} {f : FrameId → Eval Unit} (hx : Fills r ClosedFrame x)
    (hf : ∀ r', r ≤ r' → ∀ frame, ClosedFrame r' frame → Keeps r' ClosedUnit (f frame))
    (hStill : ∀ frame, Still (f frame)) :
    Fills r ClosedFrame (do
      let frame ← x
      f frame
      return frame) := by
  refine fills_bind hx fun r' hle frame hFrame => ?_
  refine fills_bind ((hf r' hle frame hFrame).fills (hStill frame)) fun _ hle' _ _ => ?_
  exact fills_pure (hFrame.mono hle')

/-- The frame of a block. -/
theorem fills_openBlock (b : Block) : Fills r ClosedFrame (openBlock b) := by
  refine fills_around (fills_childFrame _) ?_ ?_
  · intro _ _ _ hFrame
    exact keeps_unit (matches_hoist hFrame b)
  · intro _
    exact (filling_hoist b).still

/-- The frame of a loop. -/
theorem fills_openLoop (init : Option LoopInit) : Fills r ClosedFrame (openLoop init) := by
  refine fills_around (fills_childFrame _) ?_ ?_
  · intro _ _ _ hFrame
    exact keeps_unit (matches_declareAll hFrame _)
  · intro _
    exact (filling_declareAll _).still

/-- The frame of a call. -/
theorem fills_openCall (f : Function) {env : FrameId} (hEnv : ClosedFrame r env)
    {args : List Value} (hArgs : ∀ v ∈ args, ClosedValue r v) (span : Span) :
    Fills r ClosedFrame (openCall f env args span) := by
  unfold openCall
  split
  · exact fun c hClosed hCovers => .error le_rfl hClosed hCovers
  · refine fills_bind (fills_newFrame _ hEnv _) fun r₁ hle₁ frame hFrame => ?_
    have hAlike : List.Forall₂ (Value.Alike r₁.same) args args :=
      List.forall₂_same.mpr (closedValues_mono hle₁ hArgs)
    refine fills_bind ((keeps_unit (matches_bindParams hFrame f.params hAlike)).fills
      (filling_bindParams _ _).still) fun r₂ hle₂ _ _ => ?_
    refine fills_bind ((keeps_unit (matches_hoist (hFrame.mono hle₂) f.body)).fills
      (filling_hoist _).still) fun r₃ hle₃ _ _ => ?_
    exact fills_pure (hFrame.mono (hle₂.trans hle₃))

/-- The frame of one round of a loop. -/
theorem fills_openRound (init : Option LoopInit) {outer : FrameId} (hOuter : ClosedFrame r outer) :
    Fills r ClosedFrame (openRound init outer) := by
  refine fills_around (fills_childFrame _) ?_ ?_
  · intro _ hle _ hFrame
    exact keeps_unit (matches_copyVariables (hOuter.mono hle) hFrame _)
  · intro _
    exact (filling_copyVariables _ _).still

end Eval

-- ---------------------------------------------------------------------------
-- Searches that are started
-- ---------------------------------------------------------------------------

theorem Block.fills_start (b : Block) (r : Region) : Fills r ClosedSearch b.start := by
  refine fills_bind (fills_openBlock b) fun _ _ _ hFrame => ?_
  exact fills_pure (.within hFrame (.sequence _))

theorem Branch.fills_start (b : Branch) (r : Region) : Fills r ClosedSearch b.start :=
  (b.keeps_start r).fills b.still_start

theorem Eval.fills_tick_bind {P : Region → α → Prop} {span : Span} {x : Eval α}
    (hx : ∀ r', r ≤ r' → Fills r' P x) : Fills r P (tick span >>= fun _ => x) := by
  refine fills_bind ((keeps_tick span).fills (still_tick span)) fun r' hle _ _ => ?_
  exact hx r' hle

/-- A statement is started. -/
theorem Stmt.fills_start (s : Stmt) (r : Region) : Fills r ClosedSearch s.start := by
  have hStill (h : Still s.start) : Fills r ClosedSearch s.start := (s.keeps_start r).fills h
  cases s with
  | expr e => exact hStill (still_tick_bind (still_bind e.still_start fun _ => still_pure _))
  | declare isConst name init span =>
    exact hStill (still_tick_bind (still_bind init.still_start fun _ => still_pure _))
  | returns value span =>
    exact hStill (still_tick_bind (still_bind value.still_start fun _ => still_pure _))
  | branch b => exact b.fills_start r
  | block b => exact fills_tick_bind fun r' _ => b.fills_start r'
  | forLoop init test update body span =>
    exact fills_tick_bind fun _ _ => fills_bind (fills_openLoop init)
      fun _ _ _ hFrame => fills_pure (.loop hFrame)
  | _ => exact hStill (still_tick_bind (still_pure _))

/-- A function is called. -/
theorem Eval.fills_startCall {function : Value} (hFunction : ClosedValue r function)
    {args : List Value} (hArgs : ∀ v ∈ args, ClosedValue r v) (span : Span) :
    Fills r ClosedSearch (startCall function args span) := by
  have hKeeps := keeps_startCall hFunction hArgs span
  cases function with
  | closure cell f env =>
    cases (hFunction : Value.Alike _ _ _) with
    | closure _ _ hFrame =>
      exact fills_bind (fills_openCall f hFrame hArgs span) fun _ _ _ hNew =>
        fills_pure (.map (f := .call) trivial (.within hNew (.sequence _)))
  | primitive p =>
    exact hKeeps.fills (still_bind (filling_applyPrimitive 0 p args span).still fun _ => still_pure _)
  | _ => exact hKeeps.fills (still_throw _)

theorem Alternate.fills_start (a : Alternate) (r : Region) : Fills r ClosedSearch a.start := by
  cases a with
  | absent => exact (Alternate.absent.keeps_start r).fills (still_pure _)
  | block b => exact b.fills_start r
  | branch b => exact b.fills_start r

/-- What is started for each result. -/
theorem Expansion.fills_apply {i o : Kind} {f : Expansion i o} (hf : f.Closed r) {item : i.Item}
    (hItem : ClosedItem i r item) : Fills r ClosedSearch (f.apply item) := by
  have hKeeps := Expansion.keeps_apply hf hItem
  cases f with
  -- Expressions make no frame when they are started; only functions and branches do.
  | binary op right span =>
    exact hKeeps.fills (still_bind right.still_start fun _ => still_pure _)
  | logical op right leftSpan =>
    refine hKeeps.fills ?_
    show Still (continueLogical op right leftSpan item)
    unfold continueLogical
    split
    · exact right.still_start
    · exact right.still_start
    · exact still_pure _
    · exact still_throw _
  | conditional consequent alternate testSpan =>
    refine hKeeps.fills ?_
    show Still (continueConditional consequent alternate testSpan item)
    unfold continueConditional
    split
    · exact consequent.still_start
    · exact alternate.still_start
    · exact still_throw _
  | callee args span => exact hKeeps.fills (still_pure _)
  | arguments function span => exact fills_startCall hf hItem span
  | index key span => exact hKeeps.fills (still_bind key.still_start fun _ => still_pure _)
  | require span =>
    refine hKeeps.fills ?_
    show Still (continueRequire span item)
    unfold continueRequire
    split
    · exact still_pure _
    · exact still_pure _
    · exact still_throw _
  | branch consequent alternate testSpan =>
    show Fills r ClosedSearch (continueBranch consequent alternate testSpan item)
    unfold continueBranch
    split
    · exact consequent.fills_start r
    · exact alternate.fills_start r
    · exact (keeps_nonBoolean _ _).fills (still_throw _)

end AmbScript
