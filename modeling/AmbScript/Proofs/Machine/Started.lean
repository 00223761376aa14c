import AmbScript.Proofs.Machine.Surroundings

/-!
# Searches that were just started

A search that a node comes to has not entered any frame yet: all parts of it are inside the frames
that were in force where it was started. Only the body of a `for` loop is started inside a frame of
its own, that of the round, and is put into this frame then.

* `Search.Even` — all parts of a search are inside the same frames.
* `Machine.startedIn_evaluation` — what a node comes to is like this, but for the rounds of loops.

A search that has been asked is no longer even: what it has entered by then is inside of further
frames. So nothing here is preserved by steps; it is a property of searches at their start, and it
is all that has to be known about them for the frames around the others to be told from the stack.
-/

namespace AmbScript

open Eval

-- ---------------------------------------------------------------------------
-- What a node comes to
-- ---------------------------------------------------------------------------

/-- All parts of the search are inside the frames that the search itself is inside of. -/
def Search.Even {k : Kind} (s : Search k) : Prop :=
  ∀ around, ∀ fs ∈ s.surroundings around, fs = around

namespace Search

/-- A result that is known at once has no parts. -/
theorem even_once {k : Kind} (item : Option k.Item) : Even (.once item) := by
  intro around fs hfs
  rw [surroundings] at hfs
  exact List.mem_singleton.mp hfs

/-- What is done to each result happens inside the same frames. -/
theorem Even.map {i o : Kind} {s : Search i} (h : s.Even) (f : Mapping i o) : Even (.map f s) := by
  intro around fs hfs
  rw [surroundings] at hfs
  rcases List.mem_cons.mp hfs with rfl | hPart
  · rfl
  · exact h around fs hPart

/-- So far only the search for the first of the two results was started. -/
theorem Even.bind {i o : Kind} {s : Search i} (h : s.Even) (f : Expansion i o) :
    Even (.bind f s) := by
  intro around fs hfs
  rw [surroundings] at hfs
  rcases List.mem_cons.mp hfs with rfl | hPart
  · rfl
  · exact h around fs hPart

/-- The statements of a scope, inside its frame. -/
theorem even_scope (frame : FrameId) (statements : List Stmt) :
    Even (.within frame (.sequence statements)) := by
  intro around fs hfs
  rw [surroundings, surroundings] at hfs
  exact List.mem_singleton.mp hfs

/-- A choice that was not entered has no parts. -/
theorem even_choice (alternatives : List Expr) : Even (.choice alternatives) := by
  intro around fs hfs
  rw [surroundings] at hfs
  exact List.mem_singleton.mp hfs

theorem even_product (exprs : List Expr) : Even (.product exprs) := by
  intro around fs hfs
  rw [surroundings] at hfs
  exact List.mem_singleton.mp hfs

theorem even_loop (header : Loop) : Even (.loop header) := by
  intro around fs hfs
  rw [surroundings] at hfs
  exact List.mem_singleton.mp hfs

end Search

open Search

/-- The frame of a block is made when the block is started, and entered when its statements are
asked. -/
theorem Block.even_start (b : Block) : Returns Even b.start := by
  refine returns_bind fun frame => ?_
  exact returns_pure (even_scope frame _)

/-- A node that is counted first. -/
theorem Eval.Returns.counted {k : Kind} {span : Span} {x : Eval (Search k)} (h : Returns Even x) :
    Returns Even (tick span >>= fun _ => x) := returns_bind fun _ => h

/-- What is made of each result. -/
theorem Eval.Returns.evenMap {i o : Kind} {x : Eval (Search i)} (h : Returns Even x)
    (f : Mapping i o) : Returns Even (x >>= fun s => pure (.map f s)) :=
  h.bind fun _ hs => returns_pure (hs.map f)

/-- What is evaluated after each result. -/
theorem Eval.Returns.evenBind {i o : Kind} {x : Eval (Search i)} (h : Returns Even x)
    (f : Expansion i o) : Returns Even (x >>= fun s => pure (.bind f s)) :=
  h.bind fun _ hs => returns_pure (hs.bind f)

mutual

/-- All parts of what an expression starts were started inside the frames around it: the search for
an operand is a part of the search for the whole. -/
theorem Expr.even_start : ∀ e : Expr, Returns Even e.start
  | .number .. => .counted (returns_pure (even_once _))
  | .string .. => .counted (returns_pure (even_once _))
  | .bool .. => .counted (returns_pure (even_once _))
  | .null _ => .counted (returns_pure (even_once _))
  | .undefined _ => .counted (returns_pure (even_once _))
  | .array items _ => .counted (returns_pure ((even_product items).map _))
  | .ident _ => by
    refine .counted ?_
    refine returns_bind fun _ => ?_
    exact returns_pure (even_once _)
  | .assign _ value _ => .counted (value.even_start.evenMap _)
  | .unary _ operand _ => .counted (operand.even_start.evenMap _)
  | .binary _ left _ _ => .counted (left.even_start.evenBind _)
  | .logical _ left _ _ => .counted (left.even_start.evenBind _)
  | .conditional test _ _ _ => .counted (test.even_start.evenBind _)
  -- a call is the only expression with forms of its own: the two written as calls
  | .call callee args span => by
    unfold Expr.start
    refine .counted ?_
    split
    · exact returns_pure (even_choice args)
    · exact even_startRequire args span
    · exact callee.even_start.evenBind _
  | .index object _ _ => .counted (object.even_start.evenBind _)
  | .member object _ _ => .counted (object.even_start.evenMap _)
  | .function _ => by
    refine .counted ?_
    refine returns_bind fun _ => ?_
    refine returns_bind fun _ => ?_
    exact returns_pure (even_once _)

/-- A condition is evaluated where `require` is called. -/
theorem even_startRequire : ∀ (args : List Expr) (span : Span),
    Returns Even (startRequire args span)
  | [predicate], _ => predicate.even_start.evenBind _
  | [], _ => returns_throw _
  | _ :: _ :: _, _ => returns_throw _

end

/-- A branch is a block. -/
theorem Branch.even_start (b : Branch) : Returns Even b.start := by
  cases b with
  | mk test _ _ _ => exact .counted (test.even_start.evenBind _)

theorem Stmt.even_start (s : Stmt) : Returns Even s.start := by
  cases s with
  | expr e => exact .counted (e.even_start.evenMap _)
  | declare _ _ init _ => exact .counted (init.even_start.evenMap _)
  | returns value _ => exact .counted (value.even_start.evenMap _)
  | branch b => exact b.even_start
  | block b => exact .counted b.even_start
  | whileLoop test body _ => exact .counted (returns_pure (even_loop _))
  | forLoop _ _ _ _ _ => exact .counted (returns_bind fun _ => returns_pure (even_loop _))
  | _ => exact .counted (returns_pure (even_once _))

/-- What stands after `else`, which may be absent. -/
theorem Alternate.even_start (a : Alternate) : Returns Even a.start := by
  cases a with
  | absent => exact returns_pure (even_once _)
  | block b => exact b.even_start
  | branch b => exact b.even_start

/-- The body of a function is the statements of a scope; other values are no functions, or
primitive. -/
theorem even_startCall (function : Value) (args : List Value) (span : Span) :
    Returns Even (startCall function args span) := by
  unfold startCall
  split
  · exact returns_bind fun frame => returns_pure ((even_scope frame _).map _)
  · exact returns_bind fun _ => returns_pure (even_once _)
  · exact returns_throw _

/-- Whatever is evaluated after a result is evaluated inside the same frames as the search for
it. -/
theorem Expansion.even_apply {i o : Kind} (f : Expansion i o) (item : i.Item) :
    Returns Even (f.apply item) := by
  cases f with
  | binary op right span => exact right.even_start.evenMap _
  | logical op right leftSpan =>
    show Returns Even (continueLogical _ _ _ _)
    unfold continueLogical
    split
    · exact right.even_start
    · exact right.even_start
    · exact returns_pure (even_once _)
    · exact returns_throw _
  | conditional consequent alternate testSpan =>
    show Returns Even (continueConditional _ _ _ _)
    unfold continueConditional
    split
    · exact consequent.even_start
    · exact alternate.even_start
    · exact returns_throw _
  | callee args span => exact returns_pure ((even_product args).bind _)
  | arguments function span => exact even_startCall _ _ _
  | index key span => exact key.even_start.evenMap _
  | require span =>
    show Returns Even (continueRequire _ _)
    unfold continueRequire
    split
    · exact returns_pure (even_once _)
    · exact returns_pure (even_once _)
    · exact returns_throw _
  | branch consequent alternate testSpan =>
    show Returns Even (continueBranch _ _ _ _)
    unfold continueBranch
    split
    · exact consequent.even_start
    · exact alternate.even_start
    · exact returns_throw _

namespace Machine

/-- The search was started where the frames `fs` were in force: all of it, or a block in a round of
a `for` loop, which was started inside the frame of the round. -/
inductive StartedIn (fs : List FrameId) : Started → Prop
  | even {k : Kind} {s : Search k} (h : s.Even) : StartedIn fs ⟨k, s⟩
  | round {round : FrameId} {b : Block} {s : Search .completion} {c d : Context} (hEven : s.Even)
      (hStart : b.start c = .ok s d) (hInner : c.inner = round :: fs) :
      StartedIn fs ⟨.completion, .within round s⟩

/-- The test of a loop, which may be missing. -/
theorem even_startTest (header : Loop) :
    Returns (fun p : Phase => p.started.2.Even) (startTest header) := by
  cases header with
  | whileLoop test body => exact test.even_start.bind fun _ h => returns_pure h
  | forLoop init test update body frame =>
    cases test with
    | none => exact returns_pure (even_once (k := .value) _)
    | some test => exact test.even_start.bind fun _ h => returns_pure h

/-- A loop begins with its initialisation, or else with its test. -/
theorem even_startLoop (header : Loop) :
    Returns (fun p : Phase => p.started.2.Even) (startLoop header) := by
  unfold startLoop
  split
  · exact (Stmt.even_start _).bind fun _ h => returns_pure h
  · exact even_startTest _

/-- The update of a loop, which may be missing. -/
theorem even_startUpdate (header : Loop) :
    Returns (fun p : Phase => p.started.2.Even) (startUpdate header) := by
  unfold startUpdate
  split
  · exact (Expr.even_start _).bind fun _ h => returns_pure h
  · exact even_startTest _

/-- A body in a `for` loop is started inside the frame of its round, which is entered for that
only. -/
theorem startedIn_startBody {header : Loop} {c d : Context} {p : Phase}
    (h : startBody header c = .ok p d) : StartedIn c.inner p.started := by
  cases header with
  | whileLoop test body =>
    obtain ⟨s, e, hStart, hPhase⟩ := bind_eq_ok.mp h
    cases hPhase
    exact .even (body.even_start _ _ _ hStart)
  | forLoop init test update body frame =>
    obtain ⟨round, c₁, hRound, hRest⟩ := bind_eq_ok.mp h
    obtain ⟨u, c₂, hEnter, hRest⟩ := bind_eq_ok.mp hRest
    obtain ⟨s, c₃, hStart, hRest⟩ := bind_eq_ok.mp hRest
    obtain ⟨u, c₄, hLeave, hPhase⟩ := bind_eq_ok.mp hRest
    cases hPhase
    -- to make the frame of the round does not enter it
    have hBefore : c₁.inner = c.inner := ((opening_openRound _ _).forward _ _ _ hRound).inner
    cases hEnter
    exact .round (body.even_start _ _ _ hStart) hStart (congrArg (round :: ·) hBefore)

/-- Whatever node a step evaluates. -/
theorem startedIn_evaluation {m : Machine} {x : Eval Started} (hNode : m.evaluation? = some x)
    {c d : Context} {s : Started} (h : x c = .ok s d) : StartedIn c.inner s := by
  -- all but a body are even: what they start asks for no frame of its own
  have hSearch {k : Kind} {y : Eval (Search k)} (hEven : Returns Even y)
      (hy : some (node y) = some x) : StartedIn c.inner s := by
    cases hy
    obtain ⟨s, e, hStart, hResult⟩ := bind_eq_ok.mp h
    cases hResult
    exact .even (hEven _ _ _ hStart)
  have hPhase {y : Eval Phase} (hEven : Returns (fun p : Phase => p.started.2.Even) y)
      (hy : some (part y) = some x) : StartedIn c.inner s := by
    cases hy
    obtain ⟨p, e, hStart, hResult⟩ := bind_eq_ok.mp h
    cases hResult
    exact .even (hEven _ _ _ hStart)
  obtain ⟨k, walk, stack⟩ := m
  cases walk with
  | pull t =>
    have hNode : t.evaluation? = some x := hNode
    unfold Search.evaluation? at hNode
    split at hNode
    · exact hSearch (Expr.even_start _) hNode
    · exact hSearch (Expr.even_start _) hNode
    · exact hSearch (Expr.even_start _) hNode
    · exact hSearch (Stmt.even_start _) hNode
    · exact hPhase (even_startLoop _) hNode
    · cases hNode
  | found item rest =>
    cases stack with
    | nil => cases hNode
    | push p below =>
      have hNode : p.evaluation? item = some x := hNode
      unfold Pending.evaluation? at hNode
      split at hNode
      · exact hSearch (Expansion.even_apply _ _) hNode
      · exact hSearch (Expr.even_start _) hNode
      · exact hSearch (Stmt.even_start _) hNode
      · exact hPhase (even_startTest _) hNode
      · cases hNode
        obtain ⟨p, e, hStart, hResult⟩ := bind_eq_ok.mp h
        cases hResult
        -- a body starts in the frame of its round
        exact startedIn_startBody hStart
      · exact hPhase (even_startUpdate _) hNode
      · exact hPhase (even_startUpdate _) hNode
      · exact hPhase (even_startTest _) hNode
      · cases hNode
  | drained rest =>
    cases stack with
    | nil => cases hNode
    | push p below =>
      have hNode : p.alternative? = some x := hNode
      unfold Pending.alternative? at hNode
      split at hNode
      · exact hSearch (Expr.even_start _) hNode
      · cases hNode

end Machine

end AmbScript
