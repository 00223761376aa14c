import AmbScript.Proofs.Machine.Scopes
import AmbScript.Proofs.Store.Descent

/-!
# What nodes do to contexts

Computations on a context are made of a few actions. None of them but `Eval.enter`, `Eval.leave`
and `Eval.restore` touches the frames in force, and none but `Eval.restore` loses what the trail
can take back.

* `Eval.bind_eq_ok` — how a sequence of actions comes to a result.
* `Context.Proceeds` — what holds between a context and a later one of the same driver step.
* `Context.Follows` — beyond that, the frames in force are the same.
* `Eval.Forward` — a computation only takes contexts to contexts that follow them.
* `Eval.Counts` — beyond that, it counts a node; so does the start of every node
  (`Expr.counts_start`, `Stmt.counts_start`).

These are the facts about actions that nothing else in the theory has to unfold them for. A property
of contexts that is kept by all that follows is kept by every node; and since the starts of nodes
count, a machine that starts nodes again and again comes to the end of a budget.
-/

namespace AmbScript

variable {α β : Type}

-- ---------------------------------------------------------------------------
-- Sequences of actions
-- ---------------------------------------------------------------------------

namespace Eval

/-- A sequence has a result if both of its parts have one. -/
theorem bind_eq_ok {x : Eval α} {f : α → Eval β} {c : Context} {b : β} {d : Context} :
    (x >>= f) c = .ok b d ↔ ∃ a e, x c = .ok a e ∧ f a e = .ok b d := by
  show EStateM.bind x f c = .ok b d ↔ _
  unfold EStateM.bind
  cases x c with
  | ok a e =>
    simp only [EStateM.Result.ok.injEq]
    exact ⟨fun h => ⟨a, e, ⟨rfl, rfl⟩, h⟩, fun ⟨_, _, ⟨rfl, rfl⟩, h⟩ => h⟩
  | error f e => simp

/-- A sequence goes on from the result of its first action. -/
theorem bind_of_ok {x : Eval α} {c d : Context} {a : α} (h : x c = .ok a d) (f : α → Eval β) :
    (x >>= f) c = f a d := by
  show EStateM.bind x f c = f a d
  unfold EStateM.bind
  rw [h]

/-- To ask for the context is to go on with it. -/
theorem get_bind (f : Context → Eval β) (c : Context) : ((get : Eval Context) >>= f) c = f c c := rfl

/-- A sequence fails with the fault of its first action. -/
theorem bind_of_error {x : Eval α} {c d : Context} {t : Fault} (h : x c = .error t d)
    (f : α → Eval β) : (x >>= f) c = .error t d := by
  show EStateM.bind x f c = .error t d
  unfold EStateM.bind
  rw [h]

end Eval

-- ---------------------------------------------------------------------------
-- Following contexts
-- ---------------------------------------------------------------------------

/-- `d` is a later context of the same driver step: only the store, the frames entered, the supply
of cells, the output and the count of steps have changed, and all but the frames only forwards. If
steps were counted, the last count was within the limits. -/
structure Context.Proceeds (c d : Context) : Prop where
  store : c.store.Descends d.store
  cells : c.nextCell ≤ d.nextCell
  output : c.output.toList <+: d.output.toList
  steps : c.steps ≤ d.steps
  allowed : c.steps < d.steps → ∀ span, d.exceeded? span = none
  rest : d = { c with
    store := d.store, inner := d.inner, nextCell := d.nextCell, output := d.output,
    steps := d.steps }

/-- Beyond that, the frames in force are the same. -/
structure Context.Follows (c d : Context) : Prop extends Context.Proceeds c d where
  inner : d.inner = c.inner

/-- The context in which one more evaluation of a node is counted. -/
def Context.counted (c : Context) : Context := { c with steps := c.steps + 1 }

/-- Whether a limit is reached does not depend on the place. -/
theorem Context.exceeded?_eq_none {c : Context} {span : Span} (h : c.exceeded? span = none)
    (span' : Span) : c.exceeded? span' = none := by
  have hOvertime : exceeded?.overtime c span = none → exceeded?.overtime c span' = none := by
    unfold exceeded?.overtime
    split
    · intro hNone
      rw [Option.map_eq_none_iff] at hNone ⊢
      exact hNone
    · exact id
  unfold exceeded? at *
  -- the request to stop comes first, then the budget, then the time
  cases hInterrupted : c.interrupted with
  | true => simp [hInterrupted] at h
  | false =>
    simp only [hInterrupted, Bool.false_eq_true, if_false] at h ⊢
    cases hBudget : c.limits.stepBudget with
    | none =>
      rw [hBudget] at h
      exact hOvertime h
    | some budget =>
      rw [hBudget] at h
      dsimp only at h ⊢
      split at h
      · cases h
      · rename_i hWithin
        rw [if_neg hWithin]
        exact hOvertime h

namespace Context

variable {c d e : Context}

namespace Proceeds

/-- No time has passed. -/
@[refl] theorem refl (c : Context) : Proceeds c c := by
  refine ⟨.refl _, Nat.le_refl _, List.prefix_rfl, Nat.le_refl _, ?_, rfl⟩
  intro h
  exact absurd h (Nat.lt_irrefl _)

/-- The frames outside the driver step stay. -/
theorem outer_eq (h : Proceeds c d) : d.outer = c.outer := by rw [h.rest]

/-- The limits of a driver step stay. -/
theorem limits_eq (h : Proceeds c d) : d.limits = c.limits := by rw [h.rest]

/-- The request to stop stays as it is. -/
theorem interrupted_eq (h : Proceeds c d) : d.interrupted = c.interrupted := by rw [h.rest]

/-- What is known of the time stays as it is. -/
theorem expired_eq (h : Proceeds c d) : d.expired = c.expired := by rw [h.rest]

/-- A limit is reached or not as before, if no node was counted. -/
theorem exceeded?_eq (h : Proceeds c d) (hSteps : d.steps = c.steps) (span : Span) :
    d.exceeded? span = c.exceeded? span := by
  unfold exceeded? exceeded?.overtime
  rw [h.interrupted_eq, h.limits_eq, h.expired_eq, hSteps]

/-- Later than a later context is later. The last count of both is the one that was within the
limits. -/
theorem trans (h₁ : Proceeds c d) (h₂ : Proceeds d e) : Proceeds c e where
  store := h₁.store.trans h₂.store
  cells := Nat.le_trans h₁.cells h₂.cells
  output := h₁.output.trans h₂.output
  steps := Nat.le_trans h₁.steps h₂.steps
  allowed hSteps span := by
    rcases Nat.lt_or_ge d.steps e.steps with hLate | hEarly
    · exact h₂.allowed hLate span
    · have hEq : e.steps = d.steps := Nat.le_antisymm hEarly h₂.steps
      rw [h₂.exceeded?_eq hEq]
      exact h₁.allowed (hEq ▸ hSteps) span
  rest := by
    have hRest := h₂.rest
    rw [h₁.rest] at hRest
    exact hRest

/-- A frame is entered. -/
theorem enter (c : Context) (frame : FrameId) : c.Proceeds (c.enter frame) := by
  refine ⟨.refl _, Nat.le_refl _, List.prefix_rfl, Nat.le_refl _, ?_, rfl⟩
  intro h
  exact absurd h (Nat.lt_irrefl _)

/-- A frame is left. -/
theorem leave (c : Context) : c.Proceeds c.leave := by
  refine ⟨.refl _, Nat.le_refl _, List.prefix_rfl, Nat.le_refl _, ?_, rfl⟩
  intro h
  exact absurd h (Nat.lt_irrefl _)

/-- Noting the present moment. -/
theorem checkpoint (c : Context) : c.Proceeds c.checkpoint := by
  refine ⟨Store.descends_mark _, Nat.le_refl _, List.prefix_rfl, Nat.le_refl _, ?_, rfl⟩
  intro h
  exact absurd h (Nat.lt_irrefl _)

end Proceeds

namespace Follows

/-- Nothing was done. -/
@[refl] theorem refl (c : Context) : Follows c c := ⟨.refl c, rfl⟩

/-- The frames in force are the same all along. -/
theorem trans (h₁ : Follows c d) (h₂ : Follows d e) : Follows c e :=
  ⟨h₁.toProceeds.trans h₂.toProceeds, h₂.inner.trans h₁.inner⟩

/-- A change of the store alone. -/
theorem ofStore {s : Store} (h : c.store.Descends s) : Follows c { c with store := s } := by
  refine ⟨?_, rfl⟩
  refine ⟨h, Nat.le_refl _, List.prefix_rfl, Nat.le_refl _, ?_, rfl⟩
  intro h
  exact absurd h (Nat.lt_irrefl _)

end Follows

end Context

/-- Every context that `x` ends in with a result follows the one it began in. -/
def Eval.Forward (x : Eval α) : Prop :=
  ∀ (c : Context) (a : α) (d : Context), x c = .ok a d → c.Follows d

namespace Eval

theorem forward_pure (a : α) : Forward (pure a) := by
  intro c b d h
  cases h
  exact .refl _

/-- Where there is no result, there is nothing to show. -/
theorem forward_throw (t : Fault) : Forward (throw t : Eval α) := by
  intro c b d h
  cases h

/-- To ask for the context changes nothing. -/
theorem forward_get : Forward (get : Eval Context) := by
  intro c b d h
  cases h
  exact .refl _

/-- One computation behind the other. -/
theorem forward_bind {x : Eval α} {f : α → Eval β} (hx : Forward x) (hf : ∀ a, Forward (f a)) :
    Forward (x >>= f) := by
  intro c b d h
  obtain ⟨a, e, hFirst, hSecond⟩ := bind_eq_ok.mp h
  exact (hx _ _ _ hFirst).trans (hf a _ _ _ hSecond)

/-- A change that is known to go forwards. -/
theorem forward_modify {f : Context → Context} (h : ∀ c : Context, c.Follows (f c)) :
    Forward (modify f : Eval Unit) := by
  intro c b d hEq
  cases hEq
  exact h c

/-- A result that was computed without the context. -/
theorem forward_ofExcept (x : Except Fault α) : Forward (ofExcept x) := by
  cases x with
  | ok a => exact forward_pure a
  | error t => exact forward_throw t

/-- A computation that only asks for the context and goes on from there. -/
theorem forward_get_bind {f : Context → Eval β} (hf : ∀ c, Forward (f c)) :
    Forward (get >>= f) := forward_bind forward_get hf

-- ---------------------------------------------------------------------------
-- Single actions
-- ---------------------------------------------------------------------------

/-- A node is counted first; then it is checked whether that is one too many. -/
theorem tick_apply (span : Span) (c : Context) :
    tick span c =
      match c.counted.exceeded? span with
      | some t => .error t c.counted
      | none => .ok () c.counted := by
  show (match c.counted.exceeded? span with
    | some t => throw t
    | none => pure () : Eval Unit) c.counted = _
  cases c.counted.exceeded? span <;> rfl

/-- A node is counted, also if that is one too many. -/
theorem after_tick (span : Span) (c : Context) : (tick span).after c = c.counted := by
  unfold after
  rw [tick_apply]
  cases c.counted.exceeded? span <;> rfl

/-- If a node is let through, it was counted and no limit is reached. -/
theorem tick_eq_ok {span : Span} {c d : Context} {u : Unit} (h : tick span c = .ok u d) :
    d = c.counted ∧ d.exceeded? span = none := by
  rw [tick_apply] at h
  split at h
  · cases h
  · rename_i hNone
    cases h
    exact ⟨rfl, hNone⟩

/-- Counting goes forwards. -/
theorem forward_tick (span : Span) : Forward (tick span) := by
  intro c u d h
  obtain ⟨rfl, hNone⟩ := tick_eq_ok h
  exact ⟨⟨.refl _, Nat.le_refl _, List.prefix_rfl, Nat.le_succ _,
    fun _ => Context.exceeded?_eq_none hNone, rfl⟩, rfl⟩

/-- The supply of cells is used up. -/
theorem forward_newCell : Forward newCell := by
  refine forward_get_bind fun c => forward_bind (forward_modify fun c => ?_) fun _ => forward_pure _
  exact ⟨⟨.refl _, Nat.le_succ _, List.prefix_rfl, Nat.le_refl _,
    fun h => absurd h (Nat.lt_irrefl _), rfl⟩, rfl⟩

/-- The store has one frame more. -/
theorem forward_newFrame (name : String) (parent : FrameId) (callSite : Option Span) :
    Forward (newFrame name parent callSite) := by
  refine forward_get_bind fun c => forward_bind (forward_modify fun c => ?_) fun _ => forward_pure _
  exact .ofStore (Store.descends_newFrame _ _ _ _)

/-- What a name was bound to is kept in the trail. -/
theorem forward_bindName (frame : FrameId) (name : String) (b : Binding) :
    Forward (bindName frame name b) := by
  refine forward_modify fun _ => ?_
  exact .ofStore (Store.descends_write _ _ _ _)

/-- A line is put behind those that were displayed. -/
theorem forward_showLine (v : Value) (heading : Option Value) :
    Forward (Primitive.showLine v heading) := by
  refine forward_bind (forward_modify fun c => ?_) fun _ => forward_pure _
  exact ⟨⟨.refl _, Nat.le_refl _, by simp, Nat.le_refl _, fun h => absurd h (Nat.lt_irrefl _),
    rfl⟩, rfl⟩

/-- To read a name changes nothing. -/
theorem forward_lookup (name : Ident) : Forward (lookup name) := by
  refine forward_get_bind fun c => ?_
  split
  · exact forward_pure _
  · exact forward_throw _
  · exact forward_throw _

/-- To assign writes to the store, at the place where the name is found. -/
theorem forward_assign (name : Ident) (v : Value) : Forward (assign name v) := by
  refine forward_get_bind fun c => ?_
  split
  · exact forward_throw _
  · split
    · exact forward_throw _
    · split
      · exact forward_throw _
      · exact forward_bindName _ _ _

-- ---------------------------------------------------------------------------
-- Scopes and primitives
-- ---------------------------------------------------------------------------

/-- What only fills a frame goes forwards. -/
theorem Filling.forward {frame : FrameId} {x : Eval α} (h : Filling frame x) : Forward x := by
  induction h with
  | pure a => exact forward_pure a
  | throw _ => exact forward_throw _
  | bind _ _ hx hf => exact forward_bind hx hf
  | look _ _ hf => exact forward_get_bind hf
  | newCell => exact forward_newCell
  | bindName name b => exact forward_bindName _ name b
  | showLine v heading => exact forward_showLine v heading

theorem Opening.forward {x : Eval α} (h : Opening x) : Forward x := by
  induction h with
  | filling h => exact h.forward
  | bind _ _ hx hf => exact forward_bind hx hf
  | look _ _ hf => exact forward_get_bind hf
  | newFrame name parent callSite => exact forward_newFrame name parent callSite

theorem forward_define (name : Ident) (v : Value) (isConst : Bool) :
    Forward (define name v isConst) := by
  refine forward_get_bind fun _ => ?_
  exact (filling_defineIn name v isConst).forward

-- ---------------------------------------------------------------------------
-- Starts of nodes
-- ---------------------------------------------------------------------------

/-- `x` is forward and counts at least one node. -/
def Counts (x : Eval α) : Prop :=
  ∀ (c : Context) (a : α) (d : Context), x c = .ok a d → c.Follows d ∧ c.steps < d.steps

/-- To count is to go forwards. -/
theorem Counts.forward {x : Eval α} (h : Counts x) : Forward x :=
  fun c a d hEq => (h c a d hEq).1

/-- Where there is no result, there is nothing to show. -/
theorem counts_throw (t : Fault) : Counts (throw t : Eval α) := by
  intro c b d h
  cases h

/-- What is counted first stays counted. -/
theorem counts_bind {x : Eval α} {f : α → Eval β} (hx : Counts x) (hf : ∀ a, Forward (f a)) :
    Counts (x >>= f) := by
  intro c b d h
  obtain ⟨a, e, hFirst, hSecond⟩ := bind_eq_ok.mp h
  obtain ⟨hFollows, hSteps⟩ := hx _ _ _ hFirst
  have hRest := hf a _ _ _ hSecond
  exact ⟨hFollows.trans hRest, Nat.lt_of_lt_of_le hSteps hRest.steps⟩

/-- The action itself counts one node. -/
theorem counts_tick (span : Span) : Counts (tick span) := by
  intro c u d h
  refine ⟨forward_tick span c u d h, ?_⟩
  obtain ⟨rfl, -⟩ := tick_eq_ok h
  exact Nat.lt_succ_self _

/-- A node that is counted first. -/
theorem counts_tick_bind {span : Span} {f : Unit → Eval β} (hf : ∀ u, Forward (f u)) :
    Counts (tick span >>= f) := counts_bind (counts_tick span) hf

end Eval

open Eval

/-- A block counts nothing by itself; its statements do. -/
theorem Block.forward_start (b : Block) : Forward b.start := by
  refine forward_bind (opening_openBlock b).forward fun _ => ?_
  exact forward_pure _

mutual

/-- Every expression counts itself before anything else is done. -/
theorem Expr.counts_start : ∀ e : Expr, Counts e.start
  | .number .. => counts_tick_bind fun _ => forward_pure _
  | .string .. => counts_tick_bind fun _ => forward_pure _
  | .bool .. => counts_tick_bind fun _ => forward_pure _
  | .null _ => counts_tick_bind fun _ => forward_pure _
  | .undefined _ => counts_tick_bind fun _ => forward_pure _
  | .array .. => counts_tick_bind fun _ => forward_pure _
  | .ident _ => by
    refine counts_tick_bind fun _ => ?_
    refine forward_bind (forward_lookup _) fun _ => ?_
    exact forward_pure _
  | .assign _ value _ => by
    refine counts_tick_bind fun _ => ?_
    refine forward_bind value.counts_start.forward fun _ => ?_
    exact forward_pure _
  | .unary _ operand _ => by
    refine counts_tick_bind fun _ => ?_
    refine forward_bind operand.counts_start.forward fun _ => ?_
    exact forward_pure _
  | .binary _ left _ _ => by
    refine counts_tick_bind fun _ => ?_
    refine forward_bind left.counts_start.forward fun _ => ?_
    exact forward_pure _
  | .logical _ left _ _ => by
    refine counts_tick_bind fun _ => ?_
    refine forward_bind left.counts_start.forward fun _ => ?_
    exact forward_pure _
  | .conditional test _ _ _ => by
    refine counts_tick_bind fun _ => ?_
    refine forward_bind test.counts_start.forward fun _ => ?_
    exact forward_pure _
  | .call callee args span => by
    unfold Expr.start
    refine counts_tick_bind fun _ => ?_
    split
    · exact forward_pure _
    · exact (counts_startRequire args span).forward
    · exact forward_bind callee.counts_start.forward fun _ => forward_pure _
  | .index object _ _ => by
    refine counts_tick_bind fun _ => ?_
    refine forward_bind object.counts_start.forward fun _ => ?_
    exact forward_pure _
  | .member object _ _ => by
    refine counts_tick_bind fun _ => ?_
    refine forward_bind object.counts_start.forward fun _ => ?_
    exact forward_pure _
  | .function _ => by
    refine counts_tick_bind fun _ => ?_
    refine forward_get_bind fun _ => ?_
    refine forward_bind (filling_newClosure _ _).forward fun _ => ?_
    exact forward_pure _

/-- `require` counts its predicate. -/
theorem counts_startRequire : ∀ (args : List Expr) (span : Span), Counts (startRequire args span)
  | [predicate], _ => by
    refine counts_bind predicate.counts_start fun _ => ?_
    exact forward_pure _
  | [], _ => counts_throw _
  | _ :: _ :: _, _ => counts_throw _

end

/-- So the start of an expression goes forwards. -/
theorem Expr.forward_start (e : Expr) : Forward e.start := e.counts_start.forward

/-- A branch counts itself, also behind an `else`. -/
theorem Branch.counts_start (b : Branch) : Counts b.start := by
  cases b with
  | mk test _ _ _ =>
    exact counts_tick_bind fun _ => forward_bind test.forward_start fun _ => forward_pure _

/-- Every statement counts itself before anything else is done. -/
theorem Stmt.counts_start (s : Stmt) : Counts s.start := by
  cases s with
  | expr e => exact counts_tick_bind fun _ => forward_bind e.forward_start fun _ => forward_pure _
  | declare _ _ init _ =>
    exact counts_tick_bind fun _ => forward_bind init.forward_start fun _ => forward_pure _
  | function _ => exact counts_tick_bind fun _ => forward_pure _
  | returns value _ =>
    exact counts_tick_bind fun _ => forward_bind value.forward_start fun _ => forward_pure _
  | branch b => exact b.counts_start
  | block b => exact counts_tick_bind fun _ => b.forward_start
  | whileLoop _ _ _ => exact counts_tick_bind fun _ => forward_pure _
  | forLoop _ _ _ _ _ =>
    exact counts_tick_bind fun _ => forward_bind (opening_openLoop _).forward fun _ => forward_pure _
  | breakLoop _ => exact counts_tick_bind fun _ => forward_pure _
  | continueLoop _ => exact counts_tick_bind fun _ => forward_pure _
  | cut _ => exact counts_tick_bind fun _ => forward_pure _

/-- So the start of a statement goes forwards. -/
theorem Stmt.forward_start (s : Stmt) : Forward s.start := s.counts_start.forward

-- ---------------------------------------------------------------------------
-- Going on from a result
-- ---------------------------------------------------------------------------

/-- A call makes a frame with the arguments in it; a primitive may make cells or display a line. -/
theorem forward_startCall (function : Value) (args : List Value) (span : Span) :
    Forward (startCall function args span) := by
  unfold startCall
  split
  · exact forward_bind (opening_openCall _ _ _ _).forward fun _ => forward_pure _
  · exact forward_bind (filling_applyPrimitive 0 _ _ _).forward fun _ => forward_pure _
  · exact forward_throw _

theorem forward_nonBoolean (v : Value) (span : Span) : Forward (nonBoolean v span : Eval α) :=
  forward_throw _

/-- What is done with one result: an operation, an assignment, a declaration, or nothing. -/
theorem Mapping.forward_apply {i o : Kind} (f : Mapping i o) (item : i.Item) :
    Forward (f.apply item) := by
  cases f with
  | array => exact forward_bind forward_newCell fun _ => forward_pure _
  | assign target => exact forward_bind (forward_assign _ _) fun _ => forward_pure _
  | unary op span => exact forward_ofExcept _
  | binary op left span => exact forward_ofExcept _
  | index object span => exact forward_ofExcept _
  | member property span => exact forward_throw _
  | statement => exact forward_pure _
  | declare isConst name => exact forward_bind (forward_define _ _ _) fun _ => forward_pure _
  | returns => exact forward_pure _
  | call => exact forward_pure _
  | program => exact forward_pure _

/-- What follows `else` is started, if anything does. -/
theorem Alternate.forward_start (a : Alternate) : Forward a.start := by
  cases a with
  | absent => exact forward_pure _
  | block b => exact b.forward_start
  | branch b => exact b.counts_start.forward

/-- The right operand is started, unless the left one decides. -/
theorem forward_continueLogical (op : LogicalOp) (right : Expr) (leftSpan : Span) (left : Value) :
    Forward (continueLogical op right leftSpan left) := by
  unfold continueLogical
  split
  · exact right.forward_start
  · exact right.forward_start
  · exact forward_pure _
  · exact forward_nonBoolean _ _

/-- One of the two results is started. -/
theorem forward_continueConditional (consequent alternate : Expr) (testSpan : Span)
    (test : Value) : Forward (continueConditional consequent alternate testSpan test) := by
  unfold continueConditional
  split
  · exact consequent.forward_start
  · exact alternate.forward_start
  · exact forward_nonBoolean _ _

/-- Nothing is started: the search goes on or fails. -/
theorem forward_continueRequire (span : Span) (predicate : Value) :
    Forward (continueRequire span predicate) := by
  unfold continueRequire
  split
  · exact forward_pure _
  · exact forward_pure _
  · exact forward_throw _

/-- One of the two blocks is started. -/
theorem forward_continueBranch (consequent : Block) (alternate : Alternate) (testSpan : Span)
    (test : Value) : Forward (continueBranch consequent alternate testSpan test) := by
  unfold continueBranch
  split
  · exact consequent.forward_start
  · exact alternate.forward_start
  · exact forward_nonBoolean _ _

/-- Whatever a result leads to, starting it goes forwards. -/
theorem Expansion.forward_apply {i o : Kind} (f : Expansion i o) (item : i.Item) :
    Forward (f.apply item) := by
  cases f with
  | binary op right span => exact forward_bind right.forward_start fun _ => forward_pure _
  | logical op right leftSpan => exact forward_continueLogical _ _ _ _
  | conditional consequent alternate testSpan => exact forward_continueConditional _ _ _ _
  | callee args span => exact forward_pure _
  | arguments function span => exact forward_startCall _ _ _
  | index key span => exact forward_bind key.forward_start fun _ => forward_pure _
  | require span => exact forward_continueRequire _ _
  | branch consequent alternate testSpan => exact forward_continueBranch _ _ _ _

end AmbScript
