import AmbScript.Proofs.Machine.Made
import AmbScript.Proofs.Reach.Frames
import AmbScript.Proofs.Store.Constancy

/-!
# Names and constants in a step

New frames are filled before anything else can get at them: they are too young to be logged. All
other changes are a placeholder that gets its value or a variable that gets another one. So a step,
whether it has a result or ends in a fault, leaves the names of every frame that was there before,
and the constants among them.

* `Eval.Builds` — an action leaves the first `n` frames as they are, but for such changes.
* `Eval.Made.builds` — every sequence of actions does.
* `Machine.passes_step` — a step, too; a choice that goes back takes such changes back first.

The number `n` stands for the frames that there were when the action began. It is fixed while the
action is taken apart, since an action in the middle finds frames that were made just before, and
those are not yet conserved.
-/

namespace AmbScript

variable {α β : Type} {n : Nat} {retire : {k : Kind} → Search k → Bool}

open Binding Store

-- ---------------------------------------------------------------------------
-- Actions
-- ---------------------------------------------------------------------------

/-- `t` comes from `s` by new frames, changes in frames from the `n`-th on, and bindings that turned
in the first `n`. -/
structure Store.Builds (n : Nat) (s t : Store) : Prop where
  regular : t.Regular
  watermark : t.watermark = s.watermark
  conserves : Conserves n s t
  fixed : ∀ f < n, ∀ name v, s.Fixed f name v → t.Fixed f name v

namespace Store.Builds

variable {s t u : Store}

theorem refl (n : Nat) {s : Store} (h : s.Regular) : Builds n s s := by
  refine ⟨h, rfl, .refl n s, ?_⟩
  intro _ _ _ _ hFixed
  exact hFixed

/-- One change after the other. -/
theorem trans (h : Builds n s t) (h' : Builds n t u) : Builds n s u where
  regular := h'.regular
  watermark := h'.watermark.trans h.watermark
  conserves := h.conserves.trans h'.conserves
  fixed f hf name v hFixed := h'.fixed f hf name v (h.fixed f hf name v hFixed)

end Store.Builds

/-- Wherever no frame from the `n`-th on is logged, `x` leaves the first `n` frames as they are, but
for bindings that turn; so it does when it ends in a fault. -/
def Eval.Builds (n : Nat) (x : Eval α) : Prop :=
  ∀ c : Context, c.store.Regular → c.store.watermark ≤ n → n ≤ c.store.nextFrame →
    c.store.Builds n (x.after c).store

namespace Eval

/-- An action that leaves the store alone. -/
theorem Idle.builds {x : Eval α} (h : Idle x) : Builds n x := by
  intro c hRegular _ _
  rw [h c]
  exact .refl n hRegular

theorem builds_pure (a : α) : Builds n (pure a) := Idle.builds fun _ => rfl

theorem builds_throw (t : Fault) : Builds n (throw t : Eval α) := Idle.builds fun _ => rfl

/-- To look at the context. -/
theorem builds_get : Builds n (get : Eval Context) := Idle.builds fun _ => rfl

/-- One action after the other. The second one finds the watermark where the first one found it, and
no fewer frames. -/
theorem builds_bind {x : Eval α} {f : α → Eval β} (hx : Builds n x) (hf : ∀ a, Builds n (f a)) :
    Builds n (x >>= f) := by
  refine leads_bind (R := fun c d => c.store.Regular → c.store.watermark ≤ n →
    n ≤ c.store.nextFrame → c.store.Builds n d.store) ?_ hx hf
  intro c d e hFirst hSecond hRegular hMarked hMade
  have hThere := hFirst hRegular hMarked hMade
  exact hThere.trans (hSecond hThere.regular (hThere.watermark ▸ hMarked)
    (Nat.le_trans hMade hThere.conserves.nextFrame))

/-- A new frame is made, which is none of the first `n`, and may be filled. -/
theorem builds_newFrame_bind (name : String) (parent : FrameId) (callSite : Option Span)
    {f : FrameId → Eval β} (hf : ∀ frame, n ≤ frame → Builds n (f frame)) :
    Builds n (newFrame name parent callSite >>= f) := by
  intro c hRegular hMarked hMade
  have hNew : c.store.Builds n (c.newFrame name parent callSite).store :=
    ⟨hRegular.newFrame _ _ _, rfl, conserves_newFrame _ hMade _ _ _,
      fun _ _ _ _ hFixed => hFixed.newFrame _ _ _⟩
  have hRest := hf c.store.nextFrame hMade (c.newFrame name parent callSite) hNew.regular hMarked
    (Nat.le_trans hMade hNew.conserves.nextFrame)
  exact hNew.trans hRest

theorem builds_childFrame_bind (name : String) {f : FrameId → Eval β}
    (hf : ∀ frame, n ≤ frame → Builds n (f frame)) : Builds n (childFrame name >>= f) := by
  intro c
  exact builds_newFrame_bind name c.current none hf c

/-- A change in a frame that is none of the first `n`. -/
theorem builds_bindName {frame : FrameId} (hFrame : n ≤ frame) (name : String) (b : Binding) :
    Builds n (bindName frame name b) := by
  intro c hRegular hMarked _
  refine ⟨hRegular.write_young (Nat.le_trans hMarked hFrame) _ _, watermark_write _ _ _ _,
    conserves_write_young _ hFrame _ _, fun f hf _ _ hFixed => hFixed.write ?_ b⟩
  exact fun hSame => Nat.ne_of_lt (Nat.lt_of_lt_of_le hf hFrame) hSame.1

/-- A binding turns, in whatever frame. -/
theorem builds_turn {c : Context} {frame : FrameId} {name : String} {b b' : Binding}
    (hRegular : c.store.Regular) (hBinding : c.store.binding? frame name = some b)
    (hTurns : b.Turns b') :
    c.store.Builds n ((bindName frame name b').after c).store := by
  refine ⟨hRegular.write_turn hBinding hTurns, watermark_write _ _ _ _, conserves_write_turn
    hBinding hTurns n, ?_⟩
  intro _ _ _ _ hFixed
  exact hFixed.write_turn hBinding hTurns

/-- Whatever is done to a frame that is none of the first `n`. -/
theorem Filling.builds {frame : FrameId} (hFrame : n ≤ frame) {x : Eval α}
    (h : Filling frame x) : Builds n x := by
  induction h with
  | pure a => exact builds_pure a
  | throw _ => exact builds_throw _
  | bind _ _ hx hf => exact builds_bind hx hf
  | look _ _ hf => exact builds_bind builds_get hf
  | bindName name b => exact builds_bindName hFrame name b
  | _ => exact Idle.builds fun _ => rfl

/-- A name of an old frame can only be defined where it has a placeholder, which turns into its
value. -/
theorem builds_defineIn (frame : FrameId) (name : Ident) (v : Value) (isConst : Bool) :
    Builds n (defineIn frame name v isConst) := by
  intro c hRegular hMarked hMade
  unfold defineIn
  rw [after_bind]
  show c.store.Builds n (after _ c).store
  split
  · rename_i hBinding
    exact builds_turn hRegular hBinding (.defined rfl v isConst)
  · exact builds_throw _ c hRegular hMarked hMade

theorem builds_define (name : Ident) (v : Value) (isConst : Bool) :
    Builds n (define name v isConst) := by
  intro c
  exact builds_defineIn c.current name v isConst c

/-- Only variables that have a value are assigned to, and they turn into another value. -/
theorem builds_assign (name : Ident) (v : Value) : Builds n (assign name v) := by
  intro c hRegular hMarked hMade
  have hThrow (t : Fault) : c.store.Builds n ((throw t : Eval Unit).after c).store :=
    builds_throw t c hRegular hMarked hMade
  unfold assign
  rw [after_bind]
  show c.store.Builds n (after _ c).store
  split
  · exact hThrow _
  · rename_i frame b hResolved
    split
    · exact hThrow _
    · rename_i hVariable
      split
      · exact hThrow _
      · rename_i old hSlot
        -- a constant and a placeholder have been ruled out, so that the binding is that of a
        -- variable
        have hOld : b = .ofValue old false := by
          cases b
          simp_all [Binding.ofValue]
        have hBinding := binding?_of_resolve? hResolved
        rw [hOld] at hBinding
        exact builds_turn hRegular hBinding (.assigned old v)

-- ---------------------------------------------------------------------------
-- Scopes
-- ---------------------------------------------------------------------------

/-- The frame of a block is new, and whatever is bound is bound in it. -/
theorem builds_openBlock (b : Block) : Builds n (openBlock b) := by
  refine builds_childFrame_bind _ fun _ hFrame => ?_
  refine builds_bind ((filling_hoist b).builds hFrame) fun _ => ?_
  exact builds_pure _

theorem builds_openLoop (init : Option LoopInit) : Builds n (openLoop init) := by
  refine builds_childFrame_bind _ fun _ hFrame => ?_
  refine builds_bind ((filling_declareAll _).builds hFrame) fun _ => ?_
  exact builds_pure _

theorem builds_openCall (f : Function) (env : FrameId) (args : List Value) (span : Span) :
    Builds n (openCall f env args span) := by
  unfold openCall
  split
  · exact builds_throw _
  · exact builds_newFrame_bind _ _ _ fun _ hFrame => builds_bind ((filling_bindParams _ _).builds hFrame)
      fun _ => builds_bind ((filling_hoist _).builds hFrame) fun _ => builds_pure _

/-- So is the frame of a round, which the variables of the loop are copied to. -/
theorem builds_openRound (init : Option LoopInit) (outer : FrameId) :
    Builds n (openRound init outer) := by
  refine builds_childFrame_bind _ fun _ hFrame => ?_
  refine builds_bind ((filling_copyVariables _ _).builds hFrame) fun _ => ?_
  exact builds_pure _

theorem Made.builds {x : Eval α} (h : Made x) (n : Nat) : Builds n x := by
  induction h with
  | pure a => exact builds_pure a
  | throw t => exact builds_throw t
  | bind _ _ hx hf => exact builds_bind hx hf
  | current => exact builds_bind builds_get fun _ => builds_pure _
  | tick span => exact (idle_tick span).builds
  | openBlock b => exact builds_openBlock b
  | openLoop init => exact builds_openLoop init
  | openCall f env args span => exact builds_openCall f env args span
  | openRound init frame => exact builds_openRound init frame
  | define name v isConst => exact builds_define name v isConst
  | lookup name => exact (idle_lookup name).builds
  | assign name v => exact builds_assign name v
  | _ => exact Idle.builds fun _ => rfl

/-- Beyond the frames that it makes, a sequence of actions only turns bindings. -/
theorem Made.builds_nextFrame {x : Eval α} (h : Made x) {c : Context} (hRegular : c.store.Regular) :
    c.store.Builds c.store.nextFrame (x.after c).store :=
  h.builds _ c hRegular hRegular.watermark (Nat.le_refl _)

end Eval

open Eval

-- ---------------------------------------------------------------------------
-- Programs
-- ---------------------------------------------------------------------------

/-- A program begins with a new frame, and its names are bound there. -/
theorem Program.builds_enter (p : Program) : Builds n p.enter := by
  refine builds_childFrame_bind _ fun _ hFrame => ?_
  refine builds_bind ((filling_hoist _).builds hFrame) fun _ => ?_
  refine Idle.builds fun _ => ?_
  exact rfl

/-- To start it adds nothing to that. -/
theorem Program.builds_start (p : Program) : Builds n p.start := by
  refine builds_bind p.builds_enter fun _ => ?_
  exact builds_pure _

-- ---------------------------------------------------------------------------
-- The step
-- ---------------------------------------------------------------------------

/-- All that is done is that frames are made and bindings turn. -/
theorem Store.Builds.carries {s t : Store} (h : s.Builds s.nextFrame t) : s.Carries t where
  regular := h.regular
  nextFrame := h.conserves.nextFrame
  names f sc hs := by
    have hMade : f < s.nextFrame := by
      rw [← scope?_isSome_iff]
      exact hs ▸ rfl
    obtain ⟨sc', ht, hConserves⟩ := h.conserves.scopes f hMade sc hs
    exact ⟨sc', ht, hConserves.sameNames⟩
  fixed f name v hFixed := h.fixed f (lt_nextFrame_of_binding? hFixed.binding) name v hFixed

/-- What a step may do to the store of the context that it is taken in: it may go back to an earlier
moment first, and from there on bindings turn. -/
structure Machine.Passes (m : Machine) (c d : Context) : Prop where
  carries : c.store.Carries d.store
  conserves : Conserves c.store.nextFrame (m.origin c).store d.store

variable (retire) in
/-- Whether a step has a result or ends in a fault, and whatever machine takes it. -/
theorem Machine.passes_step (m : Machine) {c : Context} (hRegular : c.store.Regular) :
    m.Passes c ((m.step retire).after c) := by
  have hStepped := m.stepped_step retire c
  unfold Eval.after
  revert hStepped
  generalize m.step retire c = y
  intro hStepped
  cases hStepped with
  | plain hMade hPlain =>
    have hBuilds := hMade.builds_nextFrame hRegular
    refine ⟨hBuilds.carries, ?_⟩
    rw [origin, hPlain]
    exact hBuilds.conserves
  -- marking the store does not touch its frames
  | noted hMade hNoted =>
    have hBuilds := hMade.builds_nextFrame (c := c.checkpoint) hRegular.mark
    refine ⟨(Carries.mark hRegular).trans hBuilds.carries, ?_⟩
    rw [origin, hNoted]
    exact (conserves_mark _ _).trans hBuilds.conserves
  -- here the action begins in the store that was gone back to
  | @restored x hMade start hRestores =>
    have hBuilds := hMade.builds_nextFrame (c := c.restore start) (hRegular.unwindTo _)
    refine ⟨(Carries.unwindTo hRegular _).trans hBuilds.carries, ?_⟩
    rw [origin, hRestores]
    have hSame : (c.restore start).store.nextFrame = c.store.nextFrame := nextFrame_unwindTo _ _
    exact hSame ▸ hBuilds.conserves

-- ---------------------------------------------------------------------------
-- Going back
-- ---------------------------------------------------------------------------

/-- Only a choice whose alternative has no more results goes back. -/
theorem Machine.eq_of_restores {m : Machine} {start : Checkpoint} (h : m.restores? = some start) :
    ∃ (rest : Search .value) (left : List Expr) (below : Stack .value),
      m = drained rest (.push (.choosing start left) below) := by
  obtain ⟨k, walk, stack⟩ := m
  cases walk with
  | pull s => cases h
  | found item rest => cases h
  | drained rest =>
    cases stack with
    | nil => cases h
    | push p below =>
      cases p with
      | choosing start' left =>
        cases h
        exact ⟨rest, left, below, rfl⟩
      | _ => cases h

/-- A choice that goes back does nothing else to the store. -/
theorem Machine.store_step_of_restores {m : Machine} {start : Checkpoint}
    (h : m.restores? = some start) (c : Context) :
    ((m.step retire).after c).store = (c.restore start).store := by
  obtain ⟨rest, left, below, rfl⟩ := eq_of_restores h
  exact idle_nextAlternative start left below (c.restore start)

end AmbScript
