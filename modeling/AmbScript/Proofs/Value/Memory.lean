import AmbScript.Proofs.Machine.Effect
import AmbScript.Proofs.Store.Constancy
import AmbScript.Proofs.Value.Equality

/-!
# Making cells

Evaluation puts each new pair, array and closure into a cell that was not in use, and what is in a
cell stays there. So all values that there are live in one memory, which only grows; going back to
an earlier moment takes no cell out of use.

* `Value.Memory.Within` — what one memory holds, another one holds too.
* `Value.LivesIn.new` — a value in a new cell.
* `Context.LivesIn` — all values that are bound live in the memory, and so do those that may be put
  back.
* `Eval.Yields` — an action finds such contexts and leaves such contexts, with more cells in use.
* `Eval.yields_applyPrimitive`, `Eval.yields_openCall` — primitives and calls do, and all that they
  are made of.

The memory is not a part of a context: evaluation itself never looks into a cell, since a value has
its contents with it. It is chosen by the proof, which adds what is made to it.
-/

namespace AmbScript

variable {α β : Type}

open Value

-- ---------------------------------------------------------------------------
-- Memories
-- ---------------------------------------------------------------------------

namespace Value

variable {memory memory' memory'' : Memory} {v : Value} {cell : CellId}

namespace Memory

/-- All that the one memory holds, the other one holds too. -/
def Within (memory memory' : Memory) : Prop :=
  ∀ cell v, memory cell = some v → memory' cell = some v

/-- A memory holds what it holds. -/
theorem Within.refl (memory : Memory) : memory.Within memory := fun _ _ h => h

/-- One memory after the other. -/
theorem Within.trans (h : memory.Within memory') (h' : memory'.Within memory'') :
    memory.Within memory'' := fun cell v hv => h' cell v (h cell v hv)

/-- One more cell is in use. -/
def add (memory : Memory) (cell : CellId) (v : Value) : Memory :=
  fun i => if i = cell then some v else memory i

/-- A cell that was not in use may be filled. -/
theorem within_add (hFree : memory cell = none) (v : Value) :
    memory.Within (memory.add cell v) := by
  intro i w hw
  have hOther : i ≠ cell := by
    rintro rfl
    rw [hFree] at hw
    cases hw
  exact (if_neg hOther).trans hw

end Memory

/-- A part of a part is a part. -/
theorem Reaches.trans {u v w : Value} (h : u.Reaches v) (h' : v.Reaches w) : u.Reaches w := by
  induction h with
  | self => exact h'
  | head _ ih => exact .head (ih h')
  | tail _ ih => exact .tail (ih h')
  | item hItem _ ih => exact .item hItem (ih h')

/-- What lives in a memory lives in every larger one. -/
theorem LivesIn.mono (h : v.LivesIn memory) (hle : memory.Within memory') : v.LivesIn memory' := by
  intro part cell hReaches hCell
  exact hle cell part (h part cell hReaches hCell)

/-- The parts of a value live where the value lives. -/
theorem LivesIn.part {part : Value} (h : v.LivesIn memory) (hPart : v.Reaches part) :
    part.LivesIn memory := by
  intro other cell hReaches hCell
  exact h other cell (hPart.trans hReaches) hCell

/-- Values without cells live everywhere. -/
theorem livesIn_plain (hLeaf : v.isLeaf = true) (hPlain : v.cell? = none) : v.LivesIn memory := by
  intro part cell hReaches hCell
  cases hReaches with
  | self => exact absurd (hPlain.symm.trans hCell) (Option.some_ne_none cell).symm
  | head | tail | item => cases hLeaf

/-- A value is put into a new cell. Its parts are in the memory already. -/
theorem LivesIn.new (hFree : memory cell = none) (hCell : v.cell? = some cell)
    (hParts : ∀ part, v.Reaches part → part = v ∨ part.LivesIn memory) :
    v.LivesIn (memory.add cell v) := by
  intro part i hReaches hPart
  rcases hParts part hReaches with rfl | hLives
  · obtain rfl : cell = i := Option.some.inj (hCell.symm.trans hPart)
    exact if_pos rfl
  · exact hLives.mono (Memory.within_add hFree v) part i (.self part) hPart

end Value

variable {memory memory' : Memory}

/-- The value of the binding lives in the memory, if it has one. -/
def Binding.LivesIn (memory : Memory) (b : Binding) : Prop :=
  ∀ v, b.value? = some v → v.LivesIn memory

theorem Binding.LivesIn.mono {b : Binding} (h : b.LivesIn memory) (hle : memory.Within memory') :
    b.LivesIn memory' := fun v hv => (h v hv).mono hle

/-- A placeholder has no value. -/
theorem Binding.livesIn_placeholder (memory : Memory) : Binding.placeholder.LivesIn memory :=
  fun _ h => by cases h

/-- A binding with a value lives where the value does. -/
theorem Binding.livesIn_ofValue {v : Value} (h : v.LivesIn memory) (isConst : Bool) :
    (Binding.ofValue v isConst).LivesIn memory := by
  rintro _ ⟨⟩
  exact h

-- ---------------------------------------------------------------------------
-- Bindings of a store
-- ---------------------------------------------------------------------------

/-- The bindings of the store have the property, and so have those that may be put back. -/
structure Store.AllBindings (P : Binding → Prop) (s : Store) : Prop where
  bound : ∀ f name b, s.binding? f name = some b → P b
  logged : ∀ u ∈ s.trail.toList, ∀ b, u.previous = some b → P b

namespace Store

variable {P Q : Binding → Prop} {s : Store}

/-- A binding that is found after one was put is that one, or was there before. -/
theorem binding?_put_cases {f g : FrameId} {name other : String} {b : Option Binding} {c : Binding}
    (h : (s.put f name b).binding? g other = some c) :
    b = some c ∨ s.binding? g other = some c := by
  by_cases hSame : g = f ∧ other = name
  · obtain ⟨rfl, rfl⟩ := hSame
    left
    rw [binding?_eq, scope?_put, if_pos rfl] at h
    obtain ⟨sc, hScope, hBinding⟩ := Option.bind_eq_some_iff.mp h
    obtain ⟨sc', -, rfl⟩ := Option.map_eq_some_iff.mp hScope
    exact (if_pos rfl).symm.trans hBinding
  · right
    rwa [binding?_put_of_ne hSame] at h

namespace AllBindings

theorem imp (h : s.AllBindings P) (hPQ : ∀ b, P b → Q b) : s.AllBindings Q := by
  constructor
  · intro f name b hb
    exact hPQ b (h.bound f name b hb)
  · intro u hu b hb
    exact hPQ b (h.logged u hu b hb)

/-- A binding with the property is written. What it takes the place of had the property, so that it
may be logged. -/
theorem write (h : s.AllBindings P) (f : FrameId) (name : String) {b : Binding} (hb : P b) :
    (s.write f name b).AllBindings P where
  bound g other c hc := by
    have hPut : (s.put f name (some b)).binding? g other = some c := by
      rw [binding?_eq, scope?_write, ← scope?_put, ← binding?_eq] at hc
      exact hc
    rcases binding?_put_cases hPut with hNew | hOld
    · exact Option.some.inj hNew ▸ hb
    · exact h.bound g other c hOld
  logged u hu c hc := by
    rcases mem_trail_write hu with hOld | rfl
    · exact h.logged u hOld c hc
    · exact h.bound f name c hc

/-- A new frame binds nothing. -/
theorem newFrame (h : s.AllBindings P) (name : String) (parent : Option FrameId)
    (callSite : Option Span) : (s.newFrame name parent callSite).AllBindings P where
  bound f other b hb := by
    rw [binding?_eq, scope?_newFrame] at hb
    split at hb
    · cases hb
    · exact h.bound f other b (by rwa [binding?_eq])
  logged := h.logged

/-- To mark the store changes no binding. -/
theorem mark (h : s.AllBindings P) : s.mark.AllBindings P := ⟨h.bound, h.logged⟩

/-- When the log is emptied, less may be put back. -/
theorem forget (h : s.AllBindings P) : s.forget.AllBindings P := by
  refine ⟨h.bound, ?_⟩
  intro _ hu
  exact absurd hu List.not_mem_nil

/-- What is put back was logged. -/
theorem undoLast (h : s.AllBindings P) : s.undoLast.AllBindings P where
  bound f name b hb := by
    -- A binding that is put back was in the trail.
    unfold Store.undoLast at hb
    split at hb
    · exact h.bound f name b hb
    · next u hBack =>
      rcases binding?_put_cases hb with hPrevious | hOld
      · exact h.logged u (Array.mem_toList_iff.mpr (Array.mem_of_back? hBack)) b hPrevious
      · exact h.bound f name b hOld
  logged u hu := by
    rw [trail_undoLast, Array.toList_pop] at hu
    exact h.logged u ((List.dropLast_sublist _).subset hu)

theorem unwindTo (h : s.AllBindings P) (n : Nat) : (s.unwindTo n).AllBindings P := by
  have hUndo (k : Nat) {s : Store} (h : s.AllBindings P) : (undo k s).AllBindings P := by
    induction k generalizing s with
    | zero => exact h
    | succ k ih => exact ih h.undoLast
  exact hUndo _ h

end AllBindings

end Store

-- ---------------------------------------------------------------------------
-- Contexts
-- ---------------------------------------------------------------------------

/-- All values that are bound in the context, or may be again, live in the memory; the cells that
are made next are not in use. -/
structure Context.LivesIn (memory : Memory) (c : Context) : Prop where
  bindings : c.store.AllBindings (Binding.LivesIn memory)
  free : ∀ cell, c.nextCell ≤ cell → memory cell = none

namespace Context.LivesIn

variable {c d : Context}

/-- What else is in the context does not matter. -/
theorem of_same (h : c.LivesIn memory) (hStore : d.store = c.store)
    (hCells : d.nextCell = c.nextCell) : d.LivesIn memory where
  bindings := by
    rw [hStore]
    exact h.bindings
  free := by
    rw [hCells]
    exact h.free

/-- The store is changed in a way that keeps the property of its bindings. -/
theorem ofStore (h : c.LivesIn memory) {s : Store} (hs : s.AllBindings (Binding.LivesIn memory)) :
    Context.LivesIn memory { c with store := s } := ⟨hs, h.free⟩

/-- Going back only puts back bindings that were logged. -/
theorem restore (h : c.LivesIn memory) (m : Checkpoint) : (c.restore m).LivesIn memory :=
  ⟨h.bindings.unwindTo _, h.free⟩

end Context.LivesIn

-- ---------------------------------------------------------------------------
-- Actions
-- ---------------------------------------------------------------------------

/-- Where an action ends, in a result or a fault, all values live in a memory that only grew. -/
inductive Yielded (memory : Memory) (P : Memory → α → Prop) :
    EStateM.Result Fault Context α → Prop
  | ok {memory' : Memory} {a : α} {d : Context} (hle : memory.Within memory')
      (hd : d.LivesIn memory') (h : P memory' a) : Yielded memory P (.ok a d)
  | error {memory' : Memory} {t : Fault} {d : Context} (hle : memory.Within memory')
      (hd : d.LivesIn memory') : Yielded memory P (.error t d)

/-- From a context that lives in the memory, `x` ends in one that lives in a larger memory, and its
results have the property there. -/
def Eval.Yields (memory : Memory) (P : Memory → α → Prop) (x : Eval α) : Prop :=
  ∀ c : Context, c.LivesIn memory → Yielded memory P (x c)

/-- The value lives in the memory. -/
def LiveValue (memory : Memory) (v : Value) : Prop := v.LivesIn memory

/-- Nothing is said of the result. -/
def AnyYield (_ : Memory) (_ : α) : Prop := True

/-- All of the values live in the memory. -/
def Lively (memory : Memory) (vs : List Value) : Prop := ∀ v ∈ vs, v.LivesIn memory

/-- Values that live in a memory live in every larger one. -/
theorem Lively.mono {vs : List Value} (h : Lively memory vs) (hle : memory.Within memory') :
    Lively memory' vs := fun v hv => (h v hv).mono hle

/-- There are no values. -/
@[simp] theorem lively_nil : Lively memory [] := fun _ hv => absurd hv List.not_mem_nil

/-- One value and the others. -/
@[simp] theorem lively_cons {v : Value} {vs : List Value} :
    Lively memory (v :: vs) ↔ v.LivesIn memory ∧ Lively memory vs := List.forall_mem_cons

/-- Some values and then others. -/
@[simp] theorem lively_append {vs ws : List Value} :
    Lively memory (vs ++ ws) ↔ Lively memory vs ∧ Lively memory ws := List.forall_mem_append

/-- The order does not matter. -/
@[simp] theorem lively_reverse {vs : List Value} : Lively memory vs.reverse ↔ Lively memory vs := by
  constructor
  · intro h v hv
    exact h v (List.mem_reverse.mpr hv)
  · intro h v hv
    exact h v (List.mem_reverse.mp hv)

namespace Eval

variable {P : Memory → α → Prop} {Q : Memory → β → Prop} {v : Value}

/-- A result, and nothing is made. -/
theorem yields_pure {a : α} (h : P memory a) : Yields memory P (pure a) :=
  fun _ hc => .ok (.refl memory) hc h

theorem yields_throw (t : Fault) : Yields memory P (throw t : Eval α) :=
  fun _ hc => .error (.refl memory) hc

/-- One action after the other, the second one in the memory that the first one leaves. -/
theorem yields_bind {x : Eval α} {f : α → Eval β} (hx : Yields memory P x)
    (hf : ∀ memory', memory.Within memory' → ∀ a, P memory' a → Yields memory' Q (f a)) :
    Yields memory Q (x >>= f) := by
  intro c hc
  have hFirst := hx c hc
  show Yielded memory Q (EStateM.bind x f c)
  unfold EStateM.bind
  cases h : x c with
  | ok a d =>
    rw [h] at hFirst
    cases hFirst with
    | @ok memory' _ _ hle hd ha =>
      -- the context that the first action leaves lives in a memory that has grown
      have hSecond := hf memory' hle a ha d hd
      dsimp only
      cases h' : f a d with
      | ok b e =>
        rw [h'] at hSecond
        cases hSecond with
        | ok hle' he hb => exact .ok (hle.trans hle') he hb
      | error t e =>
        rw [h'] at hSecond
        cases hSecond with
        | error hle' he => exact .error (hle.trans hle') he
  | error t d =>
    rw [h] at hFirst
    cases hFirst with
    | error hle hd => exact .error hle hd

/-- An action that looks at its context first. -/
theorem yields_look {f : Context → Eval β} (hf : ∀ c, c.LivesIn memory → Yields memory Q (f c)) :
    Yields memory Q (get >>= f) := fun c hc => hf c hc c hc

/-- A change of the context. -/
theorem yields_modify {f : Context → Context}
    (h : ∀ c : Context, c.LivesIn memory → (f c).LivesIn memory) :
    Yields memory AnyYield (modify f) := by
  intro c hc
  exact .ok (.refl memory) (h c hc) trivial

/-- To count a node makes no value. -/
theorem yields_tick (span : Span) : Yields memory AnyYield (tick span) := by
  intro c hc
  have hCounted : c.counted.LivesIn memory := hc.of_same rfl rfl
  rw [tick_apply]
  split
  · exact .error (.refl memory) hCounted
  · exact .ok (.refl memory) hCounted trivial

/-- A node that is counted first. -/
theorem yields_tick_bind {span : Span} {x : Eval α}
    (hx : ∀ memory', memory.Within memory' → Yields memory' P x) :
    Yields memory P (tick span >>= fun _ => x) := by
  refine yields_bind (yields_tick span) fun memory' hle _ _ => ?_
  exact hx memory' hle

/-- Frames that are entered or left are not values. -/
theorem yields_enter (frame : FrameId) : Yields memory AnyYield (enter frame) :=
  yields_modify fun _ hc => hc.of_same rfl rfl

theorem yields_leave : Yields memory AnyYield leave := yields_modify fun _ hc => hc.of_same rfl rfl

/-- To note a moment marks the store. -/
theorem yields_checkpoint : Yields memory AnyYield checkpoint := by
  intro _ hc
  exact .ok (.refl memory) (hc.ofStore hc.bindings.mark) trivial

/-- To go back puts back old bindings only, and takes no cell out of use. -/
theorem yields_restore (m : Checkpoint) : Yields memory AnyYield (restore m) :=
  yields_modify fun _ hc => hc.restore m

/-- A value is made in a cell that was not in use, of values that live in the memory. -/
theorem yields_new {mk : CellId → Value} (hCell : ∀ cell, (mk cell).cell? = some cell)
    (hParts : ∀ cell part, (mk cell).Reaches part → part = mk cell ∨ part.LivesIn memory) :
    Yields memory LiveValue (do return mk (← newCell)) := by
  intro c hc
  have hFree : memory c.nextCell = none := hc.free _ (Nat.le_refl _)
  have hle := Memory.within_add hFree (mk c.nextCell)
  -- The cell is in use now; all that was bound before lives on in the larger memory.
  refine .ok (d := { c with nextCell := c.nextCell + 1 }) hle ⟨?_, fun cell h => ?_⟩
    (.new hFree (hCell _) (hParts _))
  · exact hc.bindings.imp fun _ hb => hb.mono hle
  · exact (if_neg (Nat.ne_of_gt h)).trans (hc.free cell (Nat.le_of_succ_le h))

-- ---------------------------------------------------------------------------
-- Names
-- ---------------------------------------------------------------------------

/-- A new frame has no bindings. -/
theorem yields_newFrame (name : String) (parent : FrameId) (callSite : Option Span) :
    Yields memory AnyYield (newFrame name parent callSite) := by
  intro _ hc
  exact .ok (.refl memory) (hc.ofStore (hc.bindings.newFrame _ _ _)) trivial

/-- A frame inside the one in force. -/
theorem yields_childFrame (name : String) : Yields memory AnyYield (childFrame name) :=
  yields_look fun _ _ => yields_newFrame _ _ _

/-- A name is bound to what lives in the memory. -/
theorem yields_bindName (frame : FrameId) (name : String) {b : Binding} (hb : b.LivesIn memory) :
    Yields memory AnyYield (bindName frame name b) := by
  refine yields_modify fun _ hc => ?_
  exact hc.ofStore (hc.bindings.write frame name hb)

theorem yields_bindValue (frame : FrameId) (name : String) (hv : v.LivesIn memory)
    (isConst : Bool) : Yields memory AnyYield (bindName frame name (.ofValue v isConst)) :=
  yields_bindName frame name (Binding.livesIn_ofValue hv isConst)

/-- A placeholder has no value that could live anywhere. -/
theorem yields_declare (frame : FrameId) (name : Ident) :
    Yields memory AnyYield (declare frame name) := by
  refine yields_look fun c _ => ?_
  split
  · exact yields_throw _
  · exact yields_bindName frame name.name (Binding.livesIn_placeholder memory)

/-- A name gets its value, if it has a placeholder. -/
theorem yields_defineIn (frame : FrameId) (name : Ident) (hv : v.LivesIn memory)
    (isConst : Bool) : Yields memory AnyYield (defineIn frame name v isConst) := by
  refine yields_look fun c _ => ?_
  split
  · exact yields_bindValue frame name.name hv isConst
  · exact yields_throw _

theorem yields_define (name : Ident) (hv : v.LivesIn memory) (isConst : Bool) :
    Yields memory AnyYield (define name v isConst) := by
  refine yields_look fun _ _ => ?_
  exact yields_defineIn _ name hv isConst

/-- A value that is looked up was bound, and so it lives in the memory. -/
theorem yields_lookup (name : Ident) : Yields memory LiveValue (lookup name) := by
  refine yields_look fun c hc => ?_
  split
  · next f v isConst hResolved =>
    exact yields_pure (hc.bindings.bound f name.name _ (Store.binding?_of_resolve? hResolved) v rfl)
  · exact yields_throw _
  · exact yields_throw _

/-- A variable gets another value. -/
theorem yields_assign (name : Ident) (hv : v.LivesIn memory) :
    Yields memory AnyYield (assign name v) := by
  refine yields_look fun c _ => ?_
  split
  · exact yields_throw _
  · split
    · exact yields_throw _
    · split
      · exact yields_throw _
      · exact yields_bindValue _ name.name hv false

-- ---------------------------------------------------------------------------
-- Scopes
-- ---------------------------------------------------------------------------

/-- A closure is put into a cell of its own. Its only part is itself. -/
theorem yields_newClosure (f : Function) (frame : FrameId) :
    Yields memory LiveValue (newClosure f frame) := by
  refine yields_new ?_ ?_
  · intro _
    exact rfl
  · intro cell part hReaches
    cases hReaches
    exact .inl rfl

theorem yields_declareAll (frame : FrameId) (names : List Ident) :
    Yields memory AnyYield (declareAll frame names) := by
  induction names generalizing memory with
  | nil => exact yields_pure trivial
  | cons name names ih => exact yields_bind (yields_declare frame name) fun _ _ _ _ => ih

/-- A closure for each function that the block declares. -/
theorem yields_defineFunctions (frame : FrameId) (statements : List Stmt) :
    Yields memory AnyYield (defineFunctions frame statements) := by
  induction statements generalizing memory with
  | nil => exact yields_pure trivial
  | cons s rest ih =>
    cases s with
    | function f =>
      rw [defineFunctions]
      cases f.name? with
      | none => exact ih
      | some name =>
        refine yields_bind (yields_newClosure f frame) fun _ _ v hv => ?_
        exact yields_bind (yields_defineIn frame name hv true) fun _ _ _ _ => ih
    | _ => exact ih

/-- All that is done when a block is entered. -/
theorem yields_hoist (frame : FrameId) (b : Block) :
    Yields memory AnyYield (hoist frame b) := by
  refine yields_bind (yields_declareAll frame _) fun _ _ _ _ => ?_
  exact yields_defineFunctions frame _

/-- The frame of a block. -/
theorem yields_openBlock (b : Block) : Yields memory AnyYield (openBlock b) := by
  refine yields_bind (yields_childFrame _) fun _ _ frame _ => ?_
  refine yields_bind (yields_hoist frame b) fun _ _ _ _ => ?_
  exact yields_pure trivial

/-- The frame of a loop's variables. -/
theorem yields_openLoop (init : Option LoopInit) : Yields memory AnyYield (openLoop init) := by
  refine yields_bind (yields_childFrame _) fun _ _ frame _ => ?_
  refine yields_bind (yields_declareAll frame _) fun _ _ _ _ => ?_
  exact yields_pure trivial

/-- The arguments are bound, all of which live in the memory. -/
theorem yields_bindParams (frame : FrameId) (params : List Ident) {args : List Value}
    (hArgs : Lively memory args) :
    Yields memory AnyYield (bindParams frame params args) := by
  induction params generalizing memory args with
  | nil => exact yields_pure trivial
  | cons p ps ih =>
    cases args with
    | nil => exact yields_pure trivial
    | cons v vs =>
      obtain ⟨hv, hRest⟩ := lively_cons.mp hArgs
      exact yields_bind (yields_bindValue frame p.name hv false) fun _ hle _ _ =>
        ih (hRest.mono hle)

/-- The frame of a call. -/
theorem yields_openCall (f : Function) (env : FrameId) {args : List Value}
    (hArgs : Lively memory args) (span : Span) :
    Yields memory AnyYield (openCall f env args span) := by
  unfold openCall
  split
  · exact yields_throw _
  · refine yields_bind (yields_newFrame _ _ _) fun _ hle frame _ => ?_
    refine yields_bind (yields_bindParams frame f.params (hArgs.mono hle))
      fun _ _ _ _ => ?_
    exact yields_bind (yields_hoist frame f.body) fun _ _ _ _ => yields_pure trivial

/-- Values that are copied were bound already. -/
theorem yields_copyVariables (source target : FrameId) (names : List Ident) :
    Yields memory AnyYield (copyVariables source target names) := by
  induction names generalizing memory with
  | nil => exact yields_pure trivial
  | cons name names ih =>
    refine yields_look fun c hc => ?_
    have hCopy : ((c.store.binding? source name.name >>= Binding.value?).getD .undefined).LivesIn
        memory := by
      cases hBound : c.store.binding? source name.name >>= Binding.value? with
      | none => exact livesIn_plain rfl rfl
      | some v =>
        obtain ⟨b, hb, hv⟩ := Option.bind_eq_some_iff.mp hBound
        exact hc.bindings.bound source name.name b hb v hv
    exact yields_bind (yields_bindValue target name.name hCopy true) fun _ _ _ _ => ih

/-- The frame of a round. -/
theorem yields_openRound (init : Option LoopInit) (outer : FrameId) :
    Yields memory AnyYield (openRound init outer) := by
  refine yields_bind (yields_childFrame _) fun _ _ round _ => ?_
  refine yields_bind (yields_copyVariables outer round _) fun _ _ _ _ => ?_
  exact yields_pure trivial

-- ---------------------------------------------------------------------------
-- Primitives
-- ---------------------------------------------------------------------------

end Eval

/-- The value lives in the memory, if the answer is one. -/
def LiveAnswer (memory : Memory) (answer : Except HostFault Value) : Prop :=
  ∀ v, answer = .ok v → v.LivesIn memory

namespace Primitive

open Eval

variable {v : Value}

/-- An answer that is a value. -/
theorem yields_ok {x : Eval Value} (h : Yields memory LiveValue x) :
    Yields memory LiveAnswer (do return .ok (← x)) := by
  refine yields_bind h fun _ _ v hv => ?_
  refine yields_pure fun _ hOk => ?_
  cases hOk
  exact hv

/-- A value that is known. -/
theorem yields_value (hv : v.LivesIn memory) : Yields memory LiveAnswer (pure (.ok v)) :=
  yields_ok (yields_pure hv)

/-- An answer that is a fault. -/
theorem yields_fault (e : HostFault) : Yields memory LiveAnswer (pure (.error e)) :=
  yields_pure fun _ hOk => by cases hOk

/-- A pair is put into a cell of its own; its parts are in the memory. -/
theorem yields_newPair {a b : Value} (ha : a.LivesIn memory) (hb : b.LivesIn memory) :
    Yields memory LiveValue (newPair a b) := by
  refine yields_new ?_ ?_
  · intro _
    exact rfl
  · intro cell part hReaches
    cases hReaches with
    | self => exact .inl rfl
    | head h => exact .inr (ha.part h)
    | tail h => exact .inr (hb.part h)

/-- The pairs of a list live, each made in front of the one before. -/
theorem yields_listOnto {items : List Value} (hItems : Lively memory items)
    {done : Value} (hDone : done.LivesIn memory) :
    Yields memory LiveValue (listOnto items done) := by
  induction items generalizing memory done with
  | nil => exact yields_pure hDone
  | cons v vs ih =>
    obtain ⟨hv, hRest⟩ := lively_cons.mp hItems
    exact yields_bind (yields_newPair hv hDone) fun _ hle _ hPair =>
      ih (hRest.mono hle) hPair

/-- What is displayed is given back, and not made. -/
theorem yields_showLine (hv : v.LivesIn memory) (heading : Option Value) :
    Yields memory LiveValue (showLine v heading) := by
  refine yields_bind (yields_modify fun _ hc => hc.of_same rfl rfl) fun _ hle _ _ => ?_
  exact yields_pure (hv.mono hle)

/-- A number has no cell. -/
theorem liveAnswer_onNumber (p : Primitive) (f : Float → Float) (v : Value) :
    LiveAnswer memory (p.onNumber f v) := by
  intro w hw
  unfold onNumber at hw
  split at hw <;> cases hw
  exact livesIn_plain rfl rfl

/-- The largest or smallest of some numbers is a number, or there is a fault. -/
theorem liveAnswer_selectNumber (p : Primitive) (displaces : Float → Float → Bool)
    (position : Nat) (best : Float) (vs : List Value) :
    LiveAnswer memory (p.selectNumber displaces position best vs) := by
  induction vs generalizing position best with
  | nil =>
    rintro _ ⟨⟩
    exact livesIn_plain rfl rfl
  | cons v vs ih =>
    unfold selectNumber
    split
    · split
      · rintro _ ⟨⟩
        exact livesIn_plain rfl rfl
      · exact ih _ _
    · exact fun _ hOk => by cases hOk

/-- Values are taken from the arguments, or are made of them. -/
theorem yields_call (p : Primitive) {args : List Value} (hArgs : Lively memory args) :
    Yields memory LiveAnswer (p.call args) := by
  unfold Primitive.call
  split
  case h_1 a b =>
    exact yields_ok (yields_newPair (hArgs a List.mem_cons_self)
      (hArgs b (List.mem_cons_of_mem a List.mem_cons_self)))
  case h_2 cell a b => exact yields_value ((hArgs _ List.mem_cons_self).part (.head (.self a)))
  case h_4 cell a b => exact yields_value ((hArgs _ List.mem_cons_self).part (.tail (.self b)))
  case h_6 =>
    exact yields_ok (yields_listOnto (lively_reverse.mpr hArgs) (livesIn_plain rfl rfl))
  case h_8 v => exact yields_ok (yields_showLine (hArgs v List.mem_cons_self) none)
  case h_9 v heading => exact yields_ok (yields_showLine (hArgs v List.mem_cons_self) _)
  case h_18 =>
    -- The answer of `pow` is a number, or undefined; neither has a cell.
    refine yields_pure fun v hv => ?_
    revert hv
    generalize numberArgs _ 1 _ = x
    rcases x with e | ⟨_ | ⟨x, _ | ⟨y, _ | ⟨z, zs⟩⟩⟩⟩ <;> rintro ⟨⟩ <;> exact livesIn_plain rfl rfl
  all_goals first
    | exact yields_fault _
    | exact yields_value (livesIn_plain rfl rfl)
    | exact yields_pure (liveAnswer_onNumber _ _ _)
    | exact yields_pure (liveAnswer_selectNumber _ _ _ _ _)

end Primitive

/-- A primitive gives a value that lives in the memory, or ends in a fault. -/
theorem Eval.yields_applyPrimitive (p : Primitive) {args : List Value}
    (hArgs : Lively memory args) (span : Span) :
    Yields memory LiveValue (applyPrimitive p args span) := by
  unfold applyPrimitive
  split
  · exact yields_throw _
  · refine yields_bind (p.yields_call hArgs) fun _ _ answer hAnswer => ?_
    split
    · exact yields_pure (hAnswer _ rfl)
    · exact yields_throw _

end AmbScript
