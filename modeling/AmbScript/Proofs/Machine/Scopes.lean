import AmbScript.Machine.Start

/-!
# Filling and opening scopes

Scopes are opened and filled, closures made and primitives called by a few actions: a cell is
numbered, a name is bound in a frame, a line is displayed, a frame is made, and the context is
looked at in between. So what each of these keeps, and a sequence of two, the whole of it keeps;
which it is does not matter.

* `Eval.after` — the context that a computation leaves, whether it has a result or not.
* `Eval.Filling` — a computation binds names in one frame, and makes none.
* `Eval.filling_hoist`, `Eval.filling_bindParams`, `Eval.filling_copyVariables` — the names of a
  scope; `Eval.filling_applyPrimitive` — primitives, which bind no name at all.
* `Eval.Opening` — a computation makes frames, and binds names in any.
* `Eval.Filling.leads`, `Eval.Opening.leads` — what relates contexts across every action, does so
  across all of it.
* `Eval.opening_openBlock`, `Eval.opening_openLoop`, `Eval.opening_openCall`,
  `Eval.opening_openRound` — the scopes themselves.

The two predicates are inductive so that a new relation between contexts only has to be proved of
the few actions. They say less than what a computation does, and so a change in how a scope is
filled touches the one lemma about it here and none of the relations.
-/

namespace AmbScript

variable {α β : Type} {frame : FrameId}

-- ---------------------------------------------------------------------------
-- What is left behind
-- ---------------------------------------------------------------------------

/-- The context that `x` leaves, whether it has a result or not. -/
def Eval.after (x : Eval α) (c : Context) : Context :=
  match x c with
  | .ok _ d => d
  | .error _ d => d

namespace Eval

/-- Of a computation with a result, the context that comes with the result. -/
theorem after_ok {x : Eval α} {c d : Context} {a : α} (h : x c = .ok a d) : x.after c = d := by
  unfold after
  rw [h]

/-- Of one that fails, the context in which it failed. -/
theorem after_error {x : Eval α} {c d : Context} {t : Fault} (h : x c = .error t d) :
    x.after c = d := by
  unfold after
  rw [h]

/-- After a sequence, what its second computation leaves, unless the first one failed. -/
theorem after_bind (x : Eval α) (f : α → Eval β) (c : Context) :
    (x >>= f).after c = match x c with
      | .ok a d => (f a).after d
      | .error _ d => d := by
  show (match EStateM.bind x f c with | .ok _ d => d | .error _ d => d) = _
  unfold EStateM.bind
  cases x c <;> rfl

/-- A relation that takes every action of a sequence from each context to the one that it leaves,
takes the whole sequence there. -/
theorem leads_bind {R : Context → Context → Prop} (hTrans : ∀ {c d e}, R c d → R d e → R c e)
    {x : Eval α} {f : α → Eval β} (hx : ∀ c, R c (x.after c)) (hf : ∀ a c, R c ((f a).after c))
    (c : Context) : R c ((x >>= f).after c) := by
  have hFirst := hx c
  rw [after_bind]
  cases h : x c with
  | ok a d =>
    rw [after_ok h] at hFirst
    exact hTrans hFirst (hf a d)
  | error t d =>
    rw [after_error h] at hFirst
    exact hFirst

/-- To look a name up leaves everything as it was, whether the name is found or not. -/
theorem after_lookup (name : Ident) (c : Context) : (lookup name).after c = c := by
  unfold lookup
  rw [after_bind]
  show after _ c = c
  split <;> rfl

/-- Unless it fails, an assignment binds the name anew in some frame. -/
theorem after_assign (name : Ident) (v : Value) (c : Context) :
    (assign name v).after c = c ∨
      ∃ frame, (assign name v).after c =
        { c with store := c.store.write frame name.name (.ofValue v false) } := by
  unfold assign
  rw [after_bind]
  show after _ c = c ∨ ∃ frame, after _ c = _
  split
  · exact .inl rfl
  · split
    · exact .inl rfl
    · split
      · exact .inl rfl
      · exact .inr ⟨_, rfl⟩

end Eval

-- ---------------------------------------------------------------------------
-- Sequences of actions
-- ---------------------------------------------------------------------------

namespace Eval

/-- The computation is a sequence of actions that make no frame and bind no name but in `frame`. It
never looks at the limits, and never misses a name. -/
inductive Filling (frame : FrameId) : {α : Type} → Eval α → Prop
  | pure {α : Type} (a : α) : Filling frame (pure a)
  | throw {α : Type} {t : Fault} (hFound : ∀ name span, t ≠ .undefinedVariable name span) :
      Filling frame (throw t : Eval α)
  | bind {α β : Type} {x : Eval α} {f : α → Eval β} (hx : Filling frame x)
      (hf : ∀ a, Filling frame (f a)) : Filling frame (x >>= f)
  | look {β : Type} {f : Context → Eval β} (hLimits : ∀ c limits, f { c with limits } = f c)
      (hf : ∀ c, Filling frame (f c)) : Filling frame (get >>= f)
  | newCell : Filling frame newCell
  | bindName (name : String) (b : Binding) : Filling frame (bindName frame name b)
  | showLine (v : Value) (heading : Option Value) : Filling frame (Primitive.showLine v heading)

/-- The computation is a sequence of actions that may also make frames, and fill any. -/
inductive Opening : {α : Type} → Eval α → Prop
  | filling {α : Type} {frame : FrameId} {x : Eval α} (h : Filling frame x) : Opening x
  | bind {α β : Type} {x : Eval α} {f : α → Eval β} (hx : Opening x) (hf : ∀ a, Opening (f a)) :
      Opening (x >>= f)
  | look {β : Type} {f : Context → Eval β} (hLimits : ∀ c limits, f { c with limits } = f c)
      (hf : ∀ c, Opening (f c)) : Opening (get >>= f)
  | newFrame (name : String) (parent : FrameId) (callSite : Option Span) :
      Opening (newFrame name parent callSite)

section

variable {R : Context → Context → Prop} (hRefl : ∀ c, R c c)
  (hTrans : ∀ {c d e}, R c d → R d e → R c e)
  (hCell : ∀ c : Context, R c { c with nextCell := c.nextCell + 1 })
  (hLine : ∀ (c : Context) output, R c { c with output })

include hRefl hTrans hCell hLine

/-- A computation that fills a frame is as good as its actions, also if it ends in a fault. -/
theorem Filling.leads
    (hName : ∀ (c : Context) name b, R c { c with store := c.store.write frame name b })
    {x : Eval α} (h : Filling frame x) (c : Context) : R c (x.after c) := by
  induction h generalizing c with
  | pure a => exact hRefl c
  | throw _ => exact hRefl c
  | bind _ _ hx hf => exact leads_bind (R := R) hTrans hx hf c
  | look _ _ hf => exact hf c c
  | newCell => exact hCell c
  | bindName name b => exact hName c name b
  | showLine v heading => exact hLine c _

theorem Opening.leads
    (hName : ∀ (c : Context) frame name b, R c { c with store := c.store.write frame name b })
    (hFrame : ∀ (c : Context) name parent callSite, R c (c.newFrame name parent callSite))
    {x : Eval α} (h : Opening x) (c : Context) : R c (x.after c) := by
  induction h generalizing c with
  | filling h => exact h.leads hRefl hTrans hCell hLine (fun c => hName c _) c
  | bind _ _ hx hf => exact leads_bind (R := R) hTrans hx hf c
  | look _ _ hf => exact hf c c
  | newFrame name parent callSite => exact hFrame c name parent callSite

end

-- ---------------------------------------------------------------------------
-- Names of a scope
-- ---------------------------------------------------------------------------

/-- A closure only takes the number of a new cell. -/
theorem filling_newClosure (f : Function) (frame : FrameId) : Filling frame (newClosure f frame) :=
  Filling.newCell.bind fun _ => .pure _

/-- A placeholder is a binding in the frame. -/
theorem filling_declare (name : Ident) : Filling frame (declare frame name) := by
  refine .look (fun _ _ => rfl) fun c => ?_
  split
  · exact .throw nofun
  · exact .bindName _ _

theorem filling_defineIn (name : Ident) (v : Value) (isConst : Bool) :
    Filling frame (defineIn frame name v isConst) := by
  refine .look (fun _ _ => rfl) fun c => ?_
  split
  · exact .bindName _ _
  · exact .throw nofun

theorem filling_declareAll (names : List Ident) : Filling frame (declareAll frame names) := by
  induction names with
  | nil => exact .pure _
  | cons name names ih => exact (filling_declare name).bind fun _ => ih

/-- The functions that a block declares are bound as soon as it is entered. -/
theorem filling_defineFunctions (statements : List Stmt) :
    Filling frame (defineFunctions frame statements) := by
  fun_induction defineFunctions frame statements with
  | case1 => exact .pure _
  | case2 f rest _ name _ ih =>
    exact (filling_newClosure f frame).bind fun _ => (filling_defineIn name _ true).bind fun _ => ih
  | case3 f rest _ _ ih => exact ih
  | case4 _ rest _ ih => exact ih

/-- All that is done when a block is entered happens in its frame. -/
theorem filling_hoist (b : Block) : Filling frame (hoist frame b) := by
  refine (filling_declareAll _).bind fun _ => ?_
  exact filling_defineFunctions _

/-- Arguments are bound in the frame of the call, as far as there are parameters for them. -/
theorem filling_bindParams (params : List Ident) (args : List Value) :
    Filling frame (bindParams frame params args) := by
  induction params generalizing args with
  | nil => exact .pure _
  | cons p ps ih =>
    cases args with
    | nil => exact .pure _
    | cons v vs => exact (Filling.bindName _ _).bind fun _ => ih vs

/-- The variables of a loop are copied to the frame of a round. They are taken from the one frame
where they are, so that no name can be missed. -/
theorem filling_copyVariables (source : FrameId) (names : List Ident) :
    Filling frame (copyVariables source frame names) := by
  induction names with
  | nil => exact .pure _
  | cons name names ih =>
    exact .look (fun _ _ => rfl) fun _ => (Filling.bindName _ _).bind fun _ => ih

-- ---------------------------------------------------------------------------
-- Primitives
-- ---------------------------------------------------------------------------

/-- A list is built of pairs, each with a number of its own. -/
theorem filling_listOnto (items : List Value) (done : Value) :
    Filling frame (Primitive.listOnto items done) := by
  induction items generalizing done with
  | nil => exact .pure _
  | cons v vs ih => exact (Filling.newCell.bind fun _ => .pure _).bind fun _ => ih _

/-- A primitive makes pairs, shows lines or fails, and binds nothing. -/
theorem filling_call (p : Primitive) (args : List Value) : Filling frame (p.call args) := by
  unfold Primitive.call
  split
  case h_1 => exact (Filling.newCell.bind fun _ => .pure _).bind fun _ => .pure _
  case h_6 => exact (filling_listOnto _ _).bind fun _ => .pure _
  case h_8 => exact (Filling.showLine _ _).bind fun _ => .pure _
  case h_9 => exact (Filling.showLine _ _).bind fun _ => .pure _
  all_goals exact .pure _

/-- What comes after a fault is never done. -/
theorem filling_throw_bind {t : Fault} (f : α → Eval β)
    (hFound : ∀ name span, t ≠ .undefinedVariable name span) : Filling frame (throw t >>= f) :=
  Filling.throw hFound

/-- Primitives bind no name, so that any frame will do. -/
theorem filling_applyPrimitive (frame : FrameId) (p : Primitive) (args : List Value) (span : Span) :
    Filling frame (applyPrimitive p args span) := by
  unfold applyPrimitive
  split
  · exact filling_throw_bind _ nofun
  · refine (filling_call p args).bind fun answer => ?_
    split
    · exact .pure _
    · exact .throw nofun

-- ---------------------------------------------------------------------------
-- Scopes
-- ---------------------------------------------------------------------------

/-- A frame inside the one in force. -/
theorem opening_childFrame (name : String) : Opening (childFrame name) := by
  refine .look ?_ ?_
  · intro _ _
    exact rfl
  · intro _
    exact .newFrame _ _ _

/-- A frame is made, filled, and given. -/
theorem Opening.filled {x : Eval FrameId} {f : FrameId → Eval Unit} (hx : Opening x)
    (hf : ∀ frame, Filling frame (f frame)) :
    Opening (do
      let frame ← x
      f frame
      return frame) :=
  hx.bind fun frame => .filling ((hf frame).bind fun _ => .pure frame)

/-- The frame of a block, filled with its names. -/
theorem opening_openBlock (b : Block) : Opening (openBlock b) := by
  refine (opening_childFrame _).filled fun _ => ?_
  exact filling_hoist b

/-- The frame of a loop's variables, filled with placeholders. -/
theorem opening_openLoop (init : Option LoopInit) : Opening (openLoop init) := by
  refine (opening_childFrame _).filled fun _ => ?_
  exact filling_declareAll _

/-- The frame of a call, filled with the arguments and the names of the body. -/
theorem opening_openCall (f : Function) (env : FrameId) (args : List Value) (span : Span) :
    Opening (openCall f env args span) := by
  unfold openCall
  split
  · exact @Opening.filling _ env _ (filling_throw_bind _ nofun)
  · exact (Opening.newFrame _ _ _).bind fun _ => .filling
      ((filling_bindParams _ _).bind fun _ => (filling_hoist _).bind fun _ => .pure _)

/-- The frame of a round, filled with copies of the variables. -/
theorem opening_openRound (init : Option LoopInit) (outer : FrameId) :
    Opening (openRound init outer) := by
  refine (opening_childFrame _).filled fun _ => ?_
  exact filling_copyVariables _ _

end Eval

end AmbScript
