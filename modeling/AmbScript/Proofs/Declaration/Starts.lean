import AmbScript.Proofs.Declaration.Hoisting
import AmbScript.Proofs.Reach.Frames

/-!
# Names of searches that are started

A node that is started promises values to names: a block to all variables and constants that it
declares, since it is entered at once, and a declaration to its own name, which is in the current
frame. The former are added as placeholders with the frame of the block; the latter has been one
since its scope was entered. So, where the names that are promised before are placeholders, those
are that the search promises.

* `Eval.Launches` — an action starts a search whose names are placeholders.
* `Expr.launches_start`, `Stmt.launches_start`, `Expansion.launches_apply` — so do all nodes.
* `Eval.LaunchesPhase`, `Machine.launches_startBody` — and so do the parts of loops.
* `Mapping.awaits_apply` — a declaration gives its name its value, and no other name gets one.

`Launches` has two lists of names: those that are placeholders before the action, and those that the
search around waits for. For an expression the two are the same, since it promises nothing itself.
-/

namespace AmbScript

variable {α : Type} {f : FrameId} {ps before : List Promise}

open Eval Store

namespace Eval

-- ---------------------------------------------------------------------------
-- Actions that start searches
-- ---------------------------------------------------------------------------

/-- Where the names `before` are placeholders, `x` starts a search, and the names that it promises
when it is asked in the frame `f` are placeholders beside the names `ps`. -/
def Launches (f : FrameId) (before ps : List Promise) {k : Kind} (x : Eval (Search k)) : Prop :=
  Leaves (·.Awaits before) (fun t s => t.Fresh ∧ s.Awaits (t.promises f ++ ps)) x

section

variable {k : Kind} {x : Eval (Search k)}

/-- A search that promises nothing is there at once. -/
theorem launches_pure {t : Search k} (hFresh : t.Fresh) (h : t.promises f = []) :
    Launches f ps ps (pure t) := by
  refine leaves_pure fun s hAwaits => ?_
  exact ⟨hFresh, by rwa [h]⟩

/-- A result is there at once. -/
theorem launches_found (item : Option k.Item) :
    Launches f ps ps (pure (.once item) : Eval (Search k)) := launches_pure (.once item) rfl

theorem launches_throw (t : Fault) : Launches f before ps (throw t : Eval (Search k)) :=
  leaves_throw t

/-- What comes first leaves the store alone. -/
theorem Launches.after {y : Eval α} {g : α → Eval (Search k)} (hy : Idle y)
    (h : ∀ a, Launches f before ps (g a)) : Launches f before ps (y >>= g) :=
  leaves_bind hy.leaves h

/-- To count a node leaves all names as they are. -/
theorem Launches.counted {span : Span} (h : Launches f before ps x) :
    Launches f before ps (tick span >>= fun _ => x) := .after (idle_tick span) fun _ => h

/-- A declaration adds its name to those that are promised. -/
theorem Launches.map {o : Kind} (g : Mapping k o) (h : Launches f before (g.promises f ++ ps) x) :
    Launches f before ps (x >>= fun t => pure (.map g t)) := by
  refine leaves_bind h fun t => ?_
  refine leaves_pure fun s hLaunched => ?_
  exact ⟨.map g hLaunched.1, by rw [Search.promises, List.append_assoc]; exact hLaunched.2⟩

/-- What comes of the results is still to be started, and promises nothing yet. -/
theorem Launches.bind {o : Kind} (g : Expansion k o) (h : Launches f before ps x) :
    Launches f before ps (x >>= fun t => pure (.bind g t)) := by
  refine leaves_bind h fun _ => ?_
  refine leaves_pure fun _ hLaunched => ?_
  exact ⟨.bind g hLaunched.1, hLaunched.2⟩

end

/-- A result that was computed without the context. -/
theorem idle_ofExcept (x : Except Fault α) : Idle (ofExcept x) := by
  cases x <;> exact fun _ => rfl

/-- An action that neither makes a frame nor binds a name in one. -/
theorem leaves_of_filling {x : Eval α} (h : ∀ g, Filling g x) (ps : List Promise) :
    Leaves (·.Awaits ps) (fun _ s => s.Awaits ps) x := by
  intro c a d hAwaits hEq
  have hFills := (h c.store.nextFrame).furnishes c
  rw [after_ok hEq] at hFills
  refine hAwaits.congr fun p hp => ?_
  rw [binding?_eq, binding?_eq, hFills.others p.1 (Nat.ne_of_lt (hAwaits.lt_nextFrame hp))]

/-- Only a name that has a value is assigned to. -/
theorem leaves_assign (name : Ident) (v : Value) (ps : List Promise) :
    Leaves (·.Awaits ps) (fun _ s => s.Awaits ps) (assign name v) := by
  intro c u d hAwaits hEq
  unfold assign at hEq
  rw [get_bind] at hEq
  cases hResolved : c.store.resolve? c.current name.name with
  | none =>
    rw [hResolved] at hEq
    cases hEq
  | some found =>
    obtain ⟨frame, slot, isConst⟩ := found
    rw [hResolved] at hEq
    cases isConst with
    | true => cases hEq
    | false =>
      cases slot with
      | placeholder => cases hEq
      -- a name with a value is assigned; it is not one that is awaited
      | value old =>
        cases hEq
        exact hAwaits.write_assigned (binding?_of_resolve? hResolved) Slot.noConfusion

end Eval

-- ---------------------------------------------------------------------------
-- Nodes
-- ---------------------------------------------------------------------------

/-- A block promises its own names in its own frame. -/
theorem Block.launches_start (b : Block) (f : FrameId) (ps : List Promise) :
    Launches f ps ps b.start := by
  refine leaves_bind (leaves_openBlock b ps) fun frame => ?_
  refine leaves_pure fun _ hAwaits => ?_
  exact ⟨.within frame (.sequence b.statements), hAwaits⟩

mutual

/-- An expression promises nothing. -/
theorem Expr.launches_start : ∀ (e : Expr) (f : FrameId) (ps : List Promise),
    Launches f ps ps e.start
  | .number .., _, _ => .counted (launches_found _)
  | .string .., _, _ => .counted (launches_found _)
  | .bool .., _, _ => .counted (launches_found _)
  | .null _, _, _ => .counted (launches_found _)
  | .undefined _, _, _ => .counted (launches_found _)
  | .array .., _, _ => .counted (launches_pure (.map _ (.product _)) rfl)
  | .ident name, _, _ => by
    refine .counted ?_
    refine .after (idle_lookup name) fun _ => ?_
    exact launches_found _
  | .assign _ value _, f, ps => .counted (.map _ (value.launches_start f ps))
  | .unary _ operand _, f, ps => .counted (.map _ (operand.launches_start f ps))
  | .binary _ left _ _, f, ps => .counted (.bind _ (left.launches_start f ps))
  | .logical _ left _ _, f, ps => .counted (.bind _ (left.launches_start f ps))
  | .conditional test _ _ _, f, ps => .counted (.bind _ (test.launches_start f ps))
  | .call callee args span, f, ps => by
    unfold Expr.start
    refine .counted ?_
    split
    · exact launches_pure (.choice _) rfl
    · exact launches_startRequire args span f ps
    · exact .bind _ (callee.launches_start f ps)
  | .index object _ _, f, ps => .counted (.bind _ (object.launches_start f ps))
  | .member object _ _, f, ps => .counted (.map _ (object.launches_start f ps))
  | .function _, _, _ => by
    refine .counted ?_
    refine .after ?_ ?_
    · intro _
      exact rfl
    · intro _
      refine .after ?_ ?_
      · intro _
        exact rfl
      · intro _
        exact launches_found _

theorem launches_startRequire : ∀ (args : List Expr) (span : Span) (f : FrameId)
    (ps : List Promise), Launches f ps ps (startRequire args span)
  | [predicate], _, f, ps => .bind _ (predicate.launches_start f ps)
  | [], _, _, _ => launches_throw _
  | _ :: _ :: _, _, _, _ => launches_throw _

end

/-- Nor does a branch before its condition has been found to hold. -/
theorem Branch.launches_start (b : Branch) (f : FrameId) (ps : List Promise) :
    Launches f ps ps b.start := by
  cases b with
  | mk test consequent alternate span => exact .counted (.bind _ (test.launches_start f ps))

/-- A statement promises the name that it declares. -/
theorem Stmt.launches_start (s : Stmt) (f : FrameId) (ps : List Promise) :
    Launches f (s.promises f ++ ps) ps s.start := by
  cases s with
  | expr e => exact .counted (.map _ (e.launches_start f ps))
  | declare isConst name init span => exact .counted (.map _ (init.launches_start f _))
  | returns value span => exact .counted (.map _ (value.launches_start f ps))
  | branch b => exact b.launches_start f ps
  | block b => exact .counted (b.launches_start f ps)
  | whileLoop test body span => exact .counted (launches_pure (.loop _) rfl)
  | forLoop init test update body span =>
    refine leaves_bind (idle_tick span).leaves fun _ => ?_
    exact leaves_bind (leaves_openLoop init ps) fun frame => leaves_pure fun _ hAwaits =>
      ⟨.loop _, hAwaits⟩
  | _ => exact .counted (launches_found _)

/-- What stands behind `else`. -/
theorem Alternate.launches_start (a : Alternate) (f : FrameId) (ps : List Promise) :
    Launches f ps ps a.start := by
  cases a with
  | absent => exact launches_found _
  | block b => exact b.launches_start f ps
  | branch b => exact b.launches_start f ps

/-- A call promises the names of the body, in the frame of the call. -/
theorem launches_startCall (function : Value) (args : List Value) (span : Span) (f : FrameId)
    (ps : List Promise) : Launches f ps ps (startCall function args span) := by
  cases function with
  | closure cell h env =>
    refine leaves_bind (leaves_openCall h env args span ps) fun frame =>
      leaves_pure fun s hAwaits => ⟨.map .call (.within frame (.sequence h.body.statements)), ?_⟩
    show s.Awaits ((promisedBy frame h.body.statements ++ []) ++ ps)
    rw [List.append_nil]
    exact hAwaits
  | primitive p =>
    exact leaves_bind (leaves_of_filling (fun g => filling_applyPrimitive g p args span) ps)
      fun _ => launches_found _
  | _ => exact launches_throw _

/-- What is started for a result promises nothing to the outside. -/
theorem Expansion.launches_apply {i o : Kind} (g : Expansion i o) (item : i.Item) (f : FrameId)
    (ps : List Promise) : Launches f ps ps (g.apply item) := by
  cases g with
  | binary op right span => exact .map _ (right.launches_start f ps)
  | logical op right leftSpan =>
    show Launches f ps ps (continueLogical op right leftSpan item)
    unfold continueLogical
    split
    · exact right.launches_start f ps
    · exact right.launches_start f ps
    · exact launches_found _
    · exact launches_throw _
  | conditional consequent alternate testSpan =>
    show Launches f ps ps (continueConditional consequent alternate testSpan item)
    unfold continueConditional
    split
    · exact consequent.launches_start f ps
    · exact alternate.launches_start f ps
    · exact launches_throw _
  | callee args span => exact launches_pure (.bind _ (.product _)) rfl
  | arguments function span => exact launches_startCall function item span f ps
  | index key span => exact .map _ (key.launches_start f ps)
  | require span =>
    show Launches f ps ps (continueRequire span item)
    unfold continueRequire
    split
    · exact launches_found _
    · exact launches_found _
    · exact launches_throw _
  | branch consequent alternate testSpan =>
    show Launches f ps ps (continueBranch consequent alternate testSpan item)
    unfold continueBranch
    split
    · exact consequent.launches_start f ps
    · exact alternate.launches_start f ps
    · exact launches_throw _

-- ---------------------------------------------------------------------------
-- Results
-- ---------------------------------------------------------------------------

/-- What is found gives a name its value if it is that of a declaration. -/
theorem Mapping.awaits_apply {i o : Kind} (g : Mapping i o) {item : i.Item} {y : o.Item}
    {c d : Context} (hAwaits : c.store.Awaits (g.promises c.current ++ ps))
    (hEq : g.apply item c = .ok y d) : d.store.Awaits ps := by
  -- All but declarations and assignments leave the store alone.
  have hIdle (h : Idle (g.apply item)) (hNone : g.promises c.current = []) : d.store.Awaits ps := by
    rw [hNone] at hAwaits
    exact h.leaves (P := (·.Awaits ps)) c y d hAwaits hEq
  cases g with
  | declare isConst name =>
    obtain ⟨u, e, hDefine, hDone⟩ := bind_eq_ok.mp hEq
    cases hDone
    have hPlaceholder := hAwaits.placeholder _ List.mem_cons_self
    have hDefine : defineIn c.current name item isConst c = .ok u d := hDefine
    rw [defineIn_eq_ok item isConst hPlaceholder] at hDefine
    cases hDefine
    exact hAwaits.write_head
  | assign target =>
    obtain ⟨u, e, hAssign, hDone⟩ := bind_eq_ok.mp hEq
    cases hDone
    exact leaves_assign target item ps c u d hAwaits hAssign
  | array => exact hIdle (fun _ => rfl) rfl
  | unary op span => exact hIdle (idle_ofExcept _) rfl
  | binary op left span => exact hIdle (idle_ofExcept _) rfl
  | index object span => exact hIdle (idle_ofExcept _) rfl
  | _ => exact hIdle (fun _ => rfl) rfl

-- ---------------------------------------------------------------------------
-- Parts of loops
-- ---------------------------------------------------------------------------

/-- The same of an action that starts a part of a loop. -/
def Eval.LaunchesPhase (f : FrameId) (before ps : List Promise) (x : Eval Phase) : Prop :=
  Leaves (·.Awaits before) (fun p s => p.started.2.Fresh ∧ s.Awaits (p.promises f ++ ps)) x

/-- A part of a loop is started. -/
theorem Eval.Launches.phase {k : Kind} {x : Eval (Search k)} (h : Launches f before ps x)
    (mk : Search k → Phase) (hmk : ∀ t, (mk t).started = ⟨k, t⟩) :
    LaunchesPhase f before ps (x >>= fun t => pure (mk t)) := by
  refine leaves_bind h fun t => leaves_pure fun s hLaunched => ?_
  rw [Phase.promises, hmk]
  exact hLaunched

namespace Machine

/-- The test is an expression. -/
theorem launches_startTest (header : Loop) (f : FrameId) (ps : List Promise) :
    LaunchesPhase f ps ps (startTest header) := by
  cases header with
  | whileLoop test body => exact (test.launches_start f ps).phase .test fun _ => rfl
  | forLoop init test update body frame =>
    cases test with
    | none => exact leaves_pure fun s hAwaits => ⟨.once (k := .value) _, hAwaits⟩
    | some test => exact (test.launches_start f ps).phase .test fun _ => rfl

/-- The names of the loop get their values from what comes first in it. -/
theorem launches_startLoop (header : Loop) (f : FrameId) (ps : List Promise) :
    LaunchesPhase (header.inside f) (header.promises ++ ps) ps (startLoop header) := by
  cases header with
  | whileLoop test body => exact launches_startTest (.whileLoop test body) f ps
  | forLoop init test update body frame =>
    cases init with
    | none => exact launches_startTest (.forLoop none test update body frame) frame ps
    | some init =>
      have hInit := (init.toStmt.launches_start frame ps).phase .init fun _ => rfl
      cases init <;> exact hInit

theorem launches_startUpdate (header : Loop) (f : FrameId) (ps : List Promise) :
    LaunchesPhase f ps ps (startUpdate header) := by
  unfold startUpdate
  split
  · exact (Expr.launches_start _ f ps).phase .update fun _ => rfl
  · exact launches_startTest _ f ps

/-- Copies of the loop's variables have their values at once. -/
theorem launches_startBody (header : Loop) (f : FrameId) (ps : List Promise) :
    LaunchesPhase f ps ps (startBody header) := by
  cases header with
  | whileLoop test body => exact (body.launches_start f ps).phase .body fun _ => rfl
  | forLoop init test update body frame =>
    refine leaves_bind (leaves_openRound init frame ps) fun round => ?_
    refine leaves_bind (Idle.leaves fun _ => rfl) fun _ => ?_
    refine leaves_bind (body.launches_start round ps) fun t => ?_
    refine leaves_bind (Idle.leaves fun _ => rfl) fun _ => ?_
    exact leaves_pure fun s hLaunched => ⟨.within round hLaunched.1, hLaunched.2⟩

end Machine

end AmbScript
