import AmbScript.Proofs.Orphan.Contexts

/-!
# Actions with one more frame

Every action that evaluation is made of does the same when there is one more frame that nothing
refers to: it faults or not, displays the same lines, and has the same result, renumbered.

* `Eval.Echoes` — one action does with one more frame what another one does without it.
* `Eval.echoes_lookup`, `Eval.echoes_openCall` and so on — single actions, and new scopes.
* `Eval.echoes_applyPrimitive` — primitives.
* `Expr.echoes_start`, `Stmt.echoes_start` — the starts of nodes.

`Echoes` takes a property of the first context, because two of the actions need one: to look a name
up and to assign to it go outwards from frame to frame, and this takes as many steps with one more
frame only if frames are younger than the frames around them. Everything that comes before such an
action in a sequence has to keep the property (`Echoes.bindKept`); where nothing comes after that
needs it, `Echoes.bind` is enough.
-/

namespace AmbScript

variable {α β γ δ : Type} {k : FrameId} {v : Bool}

/-- Two actions have ended in the same way, in contexts one of which has one more frame; `g` says
how the result is renumbered. -/
inductive Echoed (k : FrameId) (v : Bool) (g : α → β) :
    EStateM.Result Fault Context α → EStateM.Result Fault Context β → Prop
  | ok (a : α) {c d : Context} (h : c.Shifted k v d) : Echoed k v g (.ok a c) (.ok (g a) d)
  | error (t : Fault) {c d : Context} (h : c.Shifted k v d) : Echoed k v g (.error t c) (.error t d)

/-- In contexts with the property, `y` does with one more frame what `x` does without it. -/
def Eval.Echoes (k : FrameId) (v : Bool) (P : Context → Prop) (g : α → β) (x : Eval α)
    (y : Eval β) : Prop :=
  ∀ c d, P c → c.Shifted k v d → Echoed k v g (x c) (y d)

/-- Nothing is asked of the context. -/
def Context.Any (_ : Context) : Prop := True

/-- The frames of the context are younger than the frames around them. -/
def Context.Grounded (c : Context) : Prop := c.store.Grounded

namespace Eval

variable {P : Context → Prop} {g : α → β} {g' : γ → δ}

/-- A result that is renumbered. -/
theorem echoes_pure {a : α} {b : β} (h : b = g a) : Echoes k v P g (pure a) (pure b) := by
  intro c d _ hShifted
  rw [h]
  exact .ok a hShifted

/-- The same fault, as faults hold no frames. -/
theorem echoes_throw {t t' : Fault} (h : t' = t) :
    Echoes k v P g (throw t) (throw t') := by
  intro c d _ hShifted
  rw [h]
  exact .error t hShifted

/-- A sequence whose first action leaves the contexts with their property. -/
theorem Echoes.bindKept {x : Eval α} {y : Eval β} {f : α → Eval γ} {f' : β → Eval δ}
    (hx : Echoes k v P g x y) {Q : Context → Prop}
    (hKept : ∀ c a d, P c → x c = .ok a d → Q d)
    (hf : ∀ a, Echoes k v Q g' (f a) (f' (g a))) : Echoes k v P g' (x >>= f) (y >>= f') := by
  intro c d hc hShifted
  have hFirst := hx c d hc hShifted
  have hQ := hKept c
  show Echoed k v g' (EStateM.bind x f c) (EStateM.bind y f' d)
  unfold EStateM.bind
  revert hFirst hQ
  generalize x c = r
  generalize y d = r'
  rintro (⟨a, hNext⟩ | ⟨t, hNext⟩) hQ
  · exact hf a _ _ (hQ a _ hc rfl) hNext
  · exact .error t hNext

/-- A sequence whose second action needs nothing of its context. -/
theorem Echoes.bind {x : Eval α} {y : Eval β} {f : α → Eval γ} {f' : β → Eval δ}
    (hx : Echoes k v P g x y) (hf : ∀ a, Echoes k v Context.Any g' (f a) (f' (g a))) :
    Echoes k v P g' (x >>= f) (y >>= f') := hx.bindKept (fun _ _ _ _ _ => trivial) hf

/-- A value that is the only result. -/
theorem Echoes.found {x y : Eval Value} (h : Echoes k v P (Value.renumber k) x y) :
    Echoes k v P (Search.renumber k) (do return Search.found (k := .value) (← x))
      (do return Search.found (k := .value) (← y)) := h.bind fun _ => echoes_pure rfl

/-- Actions that look at their contexts first. -/
theorem echoes_get_bind {f : Context → Eval γ} {f' : Context → Eval δ}
    (h : ∀ c d, P c → c.Shifted k v d → Echoed k v g' (f c c) (f' d d)) :
    Echoes k v P g' (get >>= f) (get >>= f') := h

/-- A change that can be made to both contexts. -/
theorem echoes_modify {f f' : Context → Context}
    (h : ∀ c d, c.Shifted k v d → (f c).Shifted k v (f' d)) :
    Echoes k v P id (modify f) (modify f') := by
  intro c d _ hShifted
  exact .ok () (h c d hShifted)

-- ---------------------------------------------------------------------------
-- Single actions
-- ---------------------------------------------------------------------------

/-- Counting a node looks at the counters only, which are the same. -/
theorem echoes_tick (span : Span) : Echoes k v P id (tick span) (tick span) := by
  intro c d _ hShifted
  have hCounted : c.counted.Shifted k v d.counted := hShifted.change fun _ _ _ _ _ _ => rfl
  rw [tick_apply, tick_apply, hCounted.exceeded?]
  cases c.counted.exceeded? span with
  | some t => exact .error t hCounted
  | none => exact .ok () hCounted

/-- Counting a node makes no frame. -/
theorem Echoes.counted {span : Span} {x : Eval γ} {y : Eval δ}
    (h : Echoes k v Context.Grounded g' x y) :
    Echoes k v Context.Grounded g' (tick span >>= fun _ => x) (tick span >>= fun _ => y) := by
  refine (echoes_tick span).bindKept (fun c _ d hc hEq => ?_) fun _ => h
  rw [(tick_eq_ok hEq).1]
  exact hc

/-- Cells keep their numbers. -/
theorem echoes_newCell : Echoes k v P id newCell newCell := by
  intro c d _ hShifted
  have hNext : Context.Shifted k v { c with nextCell := c.nextCell + 1 }
      { d with nextCell := d.nextCell + 1 } :=
    hShifted.change (f := fun e => { e with nextCell := e.nextCell + 1 }) fun _ _ _ _ _ _ => rfl
  show Echoed k v id (.ok c.nextCell _) (.ok d.nextCell _)
  rw [hShifted.nextCell]
  exact .ok c.nextCell hNext

/-- A closure is made in the frame that corresponds. -/
theorem echoes_newClosure (f : Function) (frame : FrameId) :
    Echoes k v P (Value.renumber k) (newClosure f frame) (newClosure f (past k frame)) :=
  echoes_newCell.bind fun _ => echoes_pure rfl

/-- A closure is made in the current frame. -/
theorem echoes_closure (f : Function) :
    Echoes k v P (Value.renumber k) (get >>= fun c => newClosure f c.current)
      (get >>= fun c => newClosure f c.current) := by
  refine echoes_get_bind fun c d hc hShifted => ?_
  rw [hShifted.current]
  exact echoes_newClosure f c.current c d hc hShifted

theorem echoes_enter (frame : FrameId) : Echoes k v P id (enter frame) (enter (past k frame)) :=
  echoes_modify fun _ _ h => h.enter frame

theorem echoes_leave : Echoes k v P id leave leave := echoes_modify fun _ _ h => h.leave

/-- Two new frames correspond, whatever their numbers are. -/
theorem echoes_newFrame (name : String) (parent : FrameId) (callSite : Option Span) :
    Echoes k v P (past k) (newFrame name parent callSite)
      (newFrame name (past k parent) callSite) := by
  intro c d _ hShifted
  have hNew : d.store.nextFrame = past k c.store.nextFrame :=
    hShifted.store.nextFrame.trans (past_of_le hShifted.store.old).symm
  show Echoed k v (past k) (.ok c.store.nextFrame _) (.ok d.store.nextFrame _)
  rw [hNew]
  exact .ok _ (hShifted.newFrame name parent callSite)

theorem echoes_childFrame (name : String) :
    Echoes k v P (past k) (childFrame name) (childFrame name) := by
  refine echoes_get_bind fun c d hc hShifted => ?_
  rw [hShifted.current]
  exact echoes_newFrame name c.current none c d hc hShifted

theorem echoes_bindName (frame : FrameId) (name : String) (b : Binding) :
    Echoes k v P id (bindName frame name b) (bindName (past k frame) name (b.renumber k)) := by
  refine echoes_modify fun _ _ h => ?_
  exact h.withStore (h.store.write frame name b)

theorem echoes_declare (frame : FrameId) (name : Ident) :
    Echoes k v P id (declare frame name) (declare (past k frame) name) := by
  refine echoes_get_bind fun c d hc hShifted => ?_
  rw [hShifted.store.binding?]
  cases c.store.binding? frame name.name with
  | some b => exact .error _ hShifted
  | none => exact echoes_bindName frame name.name .placeholder c d hc hShifted

/-- A name is defined in the frame that corresponds, if it is declared there. -/
theorem echoes_defineIn (frame : FrameId) (name : Ident) (u : Value) (isConst : Bool) :
    Echoes k v P id (defineIn frame name u isConst)
      (defineIn (past k frame) name (u.renumber k) isConst) := by
  refine echoes_get_bind fun c d hc hShifted => ?_
  rw [hShifted.store.binding?]
  cases c.store.binding? frame name.name with
  | none => exact .error _ hShifted
  | some b =>
    obtain ⟨_ | u', _⟩ := b
    · exact echoes_bindName frame name.name (.ofValue u isConst) c d hc hShifted
    · exact .error _ hShifted

theorem echoes_define (name : Ident) (u : Value) (isConst : Bool) :
    Echoes k v P id (define name u isConst) (define name (u.renumber k) isConst) := by
  refine echoes_get_bind fun c d hc hShifted => ?_
  rw [hShifted.current]
  exact echoes_defineIn c.current name u isConst c d hc hShifted

/-- A name has the same value, renumbered. -/
theorem echoes_lookup (name : Ident) :
    Echoes k v Context.Grounded (Value.renumber k) (lookup name) (lookup name) := by
  refine echoes_get_bind fun c d hc hShifted => ?_
  -- The one place, but for assignments, where frames have to be younger than those around them.
  rw [hShifted.current, hShifted.store.resolve? hc]
  cases c.store.resolve? c.current name.name with
  | none => exact .error _ hShifted
  | some x =>
    obtain ⟨f, _ | u, isConst⟩ := x
    · exact .error _ hShifted
    · exact .ok u hShifted

/-- The same variable is assigned to. -/
theorem echoes_assign (name : Ident) (u : Value) :
    Echoes k v Context.Grounded id (assign name u) (assign name (u.renumber k)) := by
  refine echoes_get_bind fun c d hc hShifted => ?_
  rw [hShifted.current, hShifted.store.resolve? hc]
  cases c.store.resolve? c.current name.name with
  | none => exact .error _ hShifted
  | some x =>
    obtain ⟨f, slot, _ | _⟩ := x
    · cases slot with
      | placeholder => exact .error _ hShifted
      | value u' => exact echoes_bindName f name.name (.ofValue u false) c d hc hShifted
    · exact .error _ hShifted

-- ---------------------------------------------------------------------------
-- Scopes
-- ---------------------------------------------------------------------------

theorem echoes_declareAll (frame : FrameId) (names : List Ident) :
    Echoes k v P id (declareAll frame names) (declareAll (past k frame) names) := by
  induction names generalizing P with
  | nil => exact echoes_pure rfl
  | cons name names ih => exact (echoes_declare frame name).bind fun _ => ih

theorem echoes_defineFunctions (frame : FrameId) (stmts : List Stmt) :
    Echoes k v P id (defineFunctions frame stmts) (defineFunctions (past k frame) stmts) := by
  induction stmts generalizing P with
  | nil => exact echoes_pure rfl
  | cons stmt rest ih =>
    cases stmt with
    | function f =>
      rw [defineFunctions, defineFunctions]
      cases f.name? with
      | none => exact ih
      | some name =>
        exact (echoes_newClosure f frame).bind fun u =>
          (echoes_defineIn frame name u true).bind fun _ => ih
    | _ => exact ih

/-- The declarations of a block are made ahead of time in both contexts. -/
theorem echoes_hoist (frame : FrameId) (b : Block) :
    Echoes k v P id (hoist frame b) (hoist (past k frame) b) := by
  refine (echoes_declareAll frame _).bind fun _ => ?_
  exact echoes_defineFunctions frame _

theorem echoes_openBlock (b : Block) : Echoes k v P (past k) (openBlock b) (openBlock b) := by
  refine (echoes_childFrame _).bind fun frame => ?_
  refine (echoes_hoist frame b).bind fun _ => ?_
  exact echoes_pure rfl

theorem echoes_openLoop (init : Option LoopInit) :
    Echoes k v P (past k) (openLoop init) (openLoop init) := by
  refine (echoes_childFrame _).bind fun frame => ?_
  refine (echoes_declareAll frame _).bind fun _ => ?_
  exact echoes_pure rfl

theorem echoes_bindParams (frame : FrameId) (params : List Ident) (args : List Value) :
    Echoes k v P id (bindParams frame params args)
      (bindParams (past k frame) params (args.map (Value.renumber k))) := by
  induction params generalizing P args with
  | nil => exact echoes_pure rfl
  | cons p ps ih =>
    cases args with
    | nil => exact echoes_pure rfl
    | cons u us => exact (echoes_bindName frame p.name (.ofValue u false)).bind fun _ => ih us

theorem echoes_openCall (f : Function) (env : FrameId) (args : List Value) (span : Span) :
    Echoes k v P (past k) (openCall f env args span)
      (openCall f (past k env) (args.map (Value.renumber k)) span) := by
  unfold openCall
  rw [List.length_map]
  split
  · exact echoes_throw rfl
  · exact (echoes_newFrame _ env _).bind fun frame => (echoes_bindParams frame _ args).bind fun _ =>
      (echoes_hoist frame _).bind fun _ => echoes_pure rfl

/-- The variables of a round are the same ones, with the values renumbered. -/
theorem echoes_copyVariables (source target : FrameId) (names : List Ident) :
    Echoes k v P id (copyVariables source target names)
      (copyVariables (past k source) (past k target) names) := by
  induction names generalizing P with
  | nil => exact echoes_pure rfl
  | cons name names ih =>
    refine echoes_get_bind fun c d hc hShifted => ?_
    -- A name without a value counts as undefined, which has no frame to renumber.
    have hCopied : (((d.store.binding? (past k source) name.name) >>= Binding.value?).getD
        .undefined) = Value.renumber k
          (((c.store.binding? source name.name) >>= Binding.value?).getD .undefined) := by
      rw [hShifted.store.binding?]
      cases c.store.binding? source name.name with
      | none => rfl
      | some b => obtain ⟨_ | u, _⟩ := b <;> rfl
    have hNext (u : Value) : Echoes k v P id
        (bindName target name.name (.ofValue u true) >>= fun _ => copyVariables source target names)
        (bindName (past k target) name.name (.ofValue (u.renumber k) true) >>= fun _ =>
          copyVariables (past k source) (past k target) names) :=
      (echoes_bindName target name.name (.ofValue u true)).bind fun _ => ih
    have hHere := hNext
      (((c.store.binding? source name.name) >>= Binding.value?).getD .undefined) c d hc hShifted
    rw [← hCopied] at hHere
    exact hHere

theorem echoes_openRound (init : Option LoopInit) (frame : FrameId) :
    Echoes k v P (past k) (openRound init frame) (openRound init (past k frame)) := by
  refine (echoes_childFrame _).bind fun round => ?_
  refine (echoes_copyVariables frame round _).bind fun _ => ?_
  exact echoes_pure rfl

-- ---------------------------------------------------------------------------
-- Primitives
-- ---------------------------------------------------------------------------

theorem echoes_newPair (a b : Value) :
    Echoes k v P (Value.renumber k) (Primitive.newPair a b)
      (Primitive.newPair (a.renumber k) (b.renumber k)) :=
  echoes_newCell.bind fun _ => echoes_pure rfl

theorem echoes_listOnto (items : List Value) (done : Value) :
    Echoes k v P (Value.renumber k) (Primitive.listOnto items done)
      (Primitive.listOnto (items.map (Value.renumber k)) (done.renumber k)) := by
  induction items generalizing P done with
  | nil => exact echoes_pure rfl
  | cons u us ih => exact (echoes_newPair u done).bind fun pair => ih pair

theorem echoes_showLine (u : Value) (heading : Option Value) :
    Echoes k v P (Value.renumber k) (Primitive.showLine u heading)
      (Primitive.showLine (u.renumber k) (heading.map (Value.renumber k))) := by
  have hHeading : Option.Rel (Value.Alike (.past k)) heading (heading.map (Value.renumber k)) := by
    cases heading with
    | none => exact .none
    | some u => exact .some u.alike_renumber
  refine Echoes.bind (g := id) ?_ fun _ => echoes_pure rfl
  refine echoes_modify fun c d hShifted => ⟨hShifted.store, ?_⟩
  have hRest := hShifted.rest
  rw [hRest, Value.render_renumber, ← Primitive.headed_eq hHeading]

/-- How answers are renumbered. -/
def answered (k : FrameId) : Except HostFault Value → Except HostFault Value :=
  Except.map (Value.renumber k)

/-- All that primitives do, they do with one more frame as well. -/
theorem relates_echoes : Primitive.Relates (.past k) (Echoes k v P (answered k)) where
  answer h := echoes_pure h.eq_map
  newPair {a a' b b'} ha hb := by
    rw [ha.eq_renumber, hb.eq_renumber]
    exact (echoes_newPair a b).bind fun _ => echoes_pure rfl
  newList {us us'} h := by
    have hItems : us' = us.map (Value.renumber k) := by
      rw [← Value.renumberItems_eq_map]
      exact Value.itemsAlike_eq_renumber (Value.itemsAlike_iff.mpr h)
    unfold Primitive.newList
    rw [hItems, ← List.map_reverse]
    exact (echoes_listOnto us.reverse .null).bind fun _ => echoes_pure rfl
  showLine {u u'} hu heading heading' hHeading := by
    have hSame : heading' = heading.map (Value.renumber k) := by
      cases hHeading with
      | none => rfl
      | some h => exact congrArg some h.eq_renumber
    rw [hu.eq_renumber, hSame]
    exact (echoes_showLine u heading).bind fun _ => echoes_pure rfl

/-- A primitive does the same, as it cannot see the numbers of frames. -/
theorem echoes_applyPrimitive (p : Primitive) (args : List Value) (span : Span) :
    Echoes k v P (Value.renumber k) (applyPrimitive p args span)
      (applyPrimitive p (args.map (Value.renumber k)) span) := by
  unfold applyPrimitive
  rw [List.length_map]
  split
  · exact echoes_throw rfl
  · refine (relates_echoes.call p (Value.forall₂_renumber args)).bind fun answer => ?_
    cases answer with
    | ok u => exact echoes_pure rfl
    | error e => exact echoes_throw rfl

theorem echoes_ofExcept {x y : Except Fault Value} (h : Value.ResultAlike (.past k) x y) :
    Echoes k v P (Value.renumber k) (ofExcept x) (ofExcept y) := by
  rw [h.eq_map]
  cases x with
  | ok u => exact echoes_pure rfl
  | error t => exact echoes_throw rfl

end Eval

open Eval

-- ---------------------------------------------------------------------------
-- Starts of nodes
-- ---------------------------------------------------------------------------

theorem Block.echoes_start {P : Context → Prop} (b : Block) :
    Echoes k v P (Search.renumber k) b.start b.start := by
  refine (echoes_openBlock b).bind fun _ => ?_
  exact echoes_pure rfl

mutual

/-- An expression starts in the same way. -/
theorem Expr.echoes_start : ∀ e : Expr, Echoes k v Context.Grounded (Search.renumber k) e.start e.start
  | .number .. => .counted (echoes_pure rfl)
  | .string .. => .counted (echoes_pure rfl)
  | .bool .. => .counted (echoes_pure rfl)
  | .null _ => .counted (echoes_pure rfl)
  | .undefined _ => .counted (echoes_pure rfl)
  | .array .. => .counted (echoes_pure rfl)
  | .ident name => .counted (echoes_lookup name).found
  | .assign _ value _ => by
    refine .counted ?_
    refine value.echoes_start.bind fun _ => ?_
    exact echoes_pure rfl
  | .unary _ operand _ => by
    refine .counted ?_
    refine operand.echoes_start.bind fun _ => ?_
    exact echoes_pure rfl
  | .binary _ left _ _ => by
    refine .counted ?_
    refine left.echoes_start.bind fun _ => ?_
    exact echoes_pure rfl
  | .logical _ left _ _ => by
    refine .counted ?_
    refine left.echoes_start.bind fun _ => ?_
    exact echoes_pure rfl
  | .conditional test _ _ _ => by
    refine .counted ?_
    refine test.echoes_start.bind fun _ => ?_
    exact echoes_pure rfl
  | .call callee args span => by
    unfold Expr.start
    refine .counted ?_
    split
    · exact echoes_pure rfl
    · exact echoes_startRequire args span
    · exact callee.echoes_start.bind fun _ => echoes_pure rfl
  | .index object _ _ => by
    refine .counted ?_
    refine object.echoes_start.bind fun _ => ?_
    exact echoes_pure rfl
  | .member object _ _ => by
    refine .counted ?_
    refine object.echoes_start.bind fun _ => ?_
    exact echoes_pure rfl
  | .function f => .counted (echoes_closure f).found

theorem echoes_startRequire : ∀ (args : List Expr) (span : Span),
    Echoes k v Context.Grounded (Search.renumber k) (startRequire args span) (startRequire args span)
  | [predicate], _ => by
    refine predicate.echoes_start.bind fun _ => ?_
    exact echoes_pure rfl
  | [], _ => echoes_throw rfl
  | _ :: _ :: _, _ => echoes_throw rfl

end

theorem Branch.echoes_start (b : Branch) :
    Echoes k v Context.Grounded (Search.renumber k) b.start b.start := by
  cases b with
  | mk test _ _ _ => exact .counted (test.echoes_start.bind fun _ => echoes_pure rfl)

theorem Stmt.echoes_start (s : Stmt) :
    Echoes k v Context.Grounded (Search.renumber k) s.start s.start := by
  cases s with
  | expr e => exact .counted (e.echoes_start.bind fun _ => echoes_pure rfl)
  | declare _ _ init _ => exact .counted (init.echoes_start.bind fun _ => echoes_pure rfl)
  | returns value _ => exact .counted (value.echoes_start.bind fun _ => echoes_pure rfl)
  | branch b => exact b.echoes_start
  | block b => exact .counted b.echoes_start
  | forLoop init _ _ _ _ => exact .counted ((echoes_openLoop init).bind fun _ => echoes_pure rfl)
  | _ => exact .counted (echoes_pure rfl)

theorem Alternate.echoes_start (a : Alternate) :
    Echoes k v Context.Grounded (Search.renumber k) a.start a.start := by
  cases a with
  | absent => exact echoes_pure rfl
  | block b => exact b.echoes_start
  | branch b => exact b.echoes_start

/-- A function that is called with the same arguments, renumbered. -/
theorem echoes_startCall {P : Context → Prop} (function : Value) (args : List Value)
    (span : Span) :
    Echoes k v P (Search.renumber k) (startCall function args span)
      (startCall (function.renumber k) (args.map (Value.renumber k)) span) := by
  have hRender := function.render_renumber (k := k)
  cases function with
  | closure cell f env =>
    exact (echoes_openCall f env args span).bind fun _ => echoes_pure rfl
  | primitive p => exact (echoes_applyPrimitive p args span).found
  | _ => exact echoes_throw (congrArg (Fault.callingNonFunction · span) hRender)

theorem echoes_nonBoolean {P : Context → Prop} {g : α → α} (u : Value) (span : Span) :
    Echoes k v P g (nonBoolean u span) (nonBoolean (u.renumber k) span) :=
  echoes_throw (congrArg (Fault.nonBooleanCondition · span) u.typeName_renumber)

-- ---------------------------------------------------------------------------
-- Going on from a result
-- ---------------------------------------------------------------------------

/-- What is done with one result. -/
theorem Mapping.echoes_apply {i o : Kind} (f : Mapping i o) (item : i.Item) :
    Echoes k v Context.Grounded (o.renumber k) (f.apply item)
      ((f.renumber k).apply (i.renumber k item)) := by
  cases f with
  | array =>
    refine echoes_newCell.bind fun cell => echoes_pure ?_
    show Value.array cell (item.map (Value.renumber k)) = .array cell (renumberItems k item)
    rw [Value.renumberItems_eq_map]
  | assign target => exact (echoes_assign target item).bind fun _ => echoes_pure rfl
  | unary op span => exact echoes_ofExcept (Value.Alike.unary op (Value.alike_renumber item) span)
  | binary op left span =>
    exact echoes_ofExcept (left.alike_renumber.binary op (Value.alike_renumber item) span)
  | index object span =>
    exact echoes_ofExcept (object.alike_renumber.index (Value.alike_renumber item) span)
  | member property span =>
    exact echoes_throw (congrArg (Fault.illegalMemberAccess property · span)
      (Value.typeName_renumber item))
  | declare isConst name => exact (echoes_define name item isConst).bind fun _ => echoes_pure rfl
  | call => cases item <;> exact echoes_pure rfl
  | program => cases item <;> exact echoes_pure rfl
  | _ => exact echoes_pure rfl

theorem echoes_continueLogical (op : LogicalOp) (right : Expr) (leftSpan : Span) (left : Value) :
    Echoes k v Context.Grounded (Search.renumber k) (continueLogical op right leftSpan left)
      (continueLogical op right leftSpan (left.renumber k)) := by
  have hBad : Echoes k v Context.Grounded (Search.renumber k)
      (nonBoolean left leftSpan : Eval (Search .value))
      (nonBoolean (left.renumber k) leftSpan) := echoes_nonBoolean left leftSpan
  cases left with
  | bool b =>
    cases op <;> cases b
    · exact echoes_pure rfl
    · exact right.echoes_start
    · exact right.echoes_start
    · exact echoes_pure rfl
  | _ => cases op <;> exact hBad

theorem echoes_continueConditional (consequent alternate : Expr) (testSpan : Span) (test : Value) :
    Echoes k v Context.Grounded (Search.renumber k)
      (continueConditional consequent alternate testSpan test)
      (continueConditional consequent alternate testSpan (test.renumber k)) := by
  have hBad : Echoes k v Context.Grounded (Search.renumber k)
      (nonBoolean test testSpan : Eval (Search .value))
      (nonBoolean (test.renumber k) testSpan) := echoes_nonBoolean test testSpan
  cases test with
  | bool b =>
    cases b
    · exact alternate.echoes_start
    · exact consequent.echoes_start
  | _ => exact hBad

theorem echoes_continueRequire (span : Span) (predicate : Value) :
    Echoes k v Context.Grounded (Search.renumber k) (continueRequire span predicate)
      (continueRequire span (predicate.renumber k)) := by
  have hType := predicate.typeName_renumber (k := k)
  cases predicate with
  | bool b => cases b <;> exact echoes_pure rfl
  | _ =>
    exact echoes_throw
      (congrArg (Fault.typeMismatch "boolean" " as argument to require" · span) hType)

theorem echoes_continueBranch (consequent : Block) (alternate : Alternate) (testSpan : Span)
    (test : Value) :
    Echoes k v Context.Grounded (Search.renumber k) (continueBranch consequent alternate testSpan test)
      (continueBranch consequent alternate testSpan (test.renumber k)) := by
  have hBad : Echoes k v Context.Grounded (Search.renumber k)
      (nonBoolean test testSpan : Eval (Search .completion))
      (nonBoolean (test.renumber k) testSpan) := echoes_nonBoolean test testSpan
  cases test with
  | bool b =>
    cases b
    · exact alternate.echoes_start
    · exact consequent.echoes_start
  | _ => exact hBad

/-- What is started for each result. -/
theorem Expansion.echoes_apply {i o : Kind} (f : Expansion i o) (item : i.Item) :
    Echoes k v Context.Grounded (Search.renumber k) (f.apply item)
      ((f.renumber k).apply (i.renumber k item)) := by
  cases f with
  | binary op right span => exact right.echoes_start.bind fun _ => echoes_pure rfl
  | logical op right leftSpan => exact echoes_continueLogical op right leftSpan item
  | conditional consequent alternate testSpan =>
    exact echoes_continueConditional consequent alternate testSpan item
  | callee args span => exact echoes_pure rfl
  | arguments function span => exact echoes_startCall function item span
  | index key span => exact key.echoes_start.bind fun _ => echoes_pure rfl
  | require span => exact echoes_continueRequire span item
  | branch consequent alternate testSpan =>
    exact echoes_continueBranch consequent alternate testSpan item

end AmbScript
