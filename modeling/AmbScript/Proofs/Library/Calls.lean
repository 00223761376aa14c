import AmbScript.Proofs.Library.Rules

/-!
# Calls of functions that read as an outline says

A call makes a frame inside the one that the function was made in. The frame has the parameters and
the functions declared in the body; all other names stand for what they stand for outside. So what a
call enumerates follows from what the lines of the body enumerate in such a frame.

* `Context.Within` — a context inside the frame of a call.
* `Context.Runs` — what a statement enumerates that reads as a line says.
* `Context.answers_closure`, `Context.answers_returns` — what the call enumerates.

Two kinds of context have to be told apart: the one in which the call is made, and the ones inside
it, in which the lines of the body are searched. `Within` says what the second kind has from the
first, and all that is asked of a body is asked of such contexts only.
-/

namespace AmbScript

open Machine Eval Store

variable {c d : Context}

-- ---------------------------------------------------------------------------
-- Names
-- ---------------------------------------------------------------------------

namespace Store.Sees

variable {s : Store} {f : FrameId} {n : String} {v : Value}

/-- A name of the frame itself. -/
theorem here {isConst : Bool} (h : s.binding? f n = some (.ofValue v isConst)) : s.Sees f n v := by
  obtain ⟨frame, hFrame, hBinding⟩ := Option.bind_eq_some_iff.mp h
  refine ⟨f, isConst, ?_⟩
  unfold Store.resolve? Store.resolveLoop
  rw [hFrame]
  dsimp only
  rw [hBinding]

/-- A name that the frame does not have is looked up in the frame around it. -/
theorem outside {sc : Scope} {parent : FrameId} (hScope : s.scope? f = some sc)
    (hParent : sc.parent = some parent) (hYounger : parent < f) (hNone : s.binding? f n = none)
    (h : s.Sees parent n v) : s.Sees f n v := by
  obtain ⟨g, isConst, hResolved⟩ := h
  obtain ⟨frame, hFrame, rfl⟩ := Option.map_eq_some_iff.mp hScope
  have hBinding : frame.binding? n = none := by
    unfold Store.binding? at hNone
    rw [hFrame] at hNone
    exact hNone
  have hParent : frame.parent = some parent := hParent
  refine ⟨g, isConst, ?_⟩
  unfold Store.resolve? Store.resolveLoop
  rw [hFrame]
  dsimp only
  rw [hBinding, hParent]
  exact (Store.Retains.refl s).resolveLoop (Nat.succ_le_of_lt hYounger) hResolved

end Store.Sees

-- ---------------------------------------------------------------------------
-- The frame of a call
-- ---------------------------------------------------------------------------

/-- `d` is inside the frame of a call of a function that reads as `o` says and was made in the frame
`env`; it comes from `c`. -/
structure Context.Within (c : Context) (o : Outline) (env : FrameId) (args : List Value)
    (d : Context) : Prop where
  upholds : c.Upholds d
  made : d.current < d.store.nextFrame
  params : List.Forall₂ d.Sees o.params args
  functions {name : String} {params : List String} {result : Sketch}
    (hLine : .function name params result ∈ o.lines) :
    ∃ cell g, Outline.Of ⟨params, [.returns result]⟩ g ∧
      d.Sees name (.closure cell g d.current)
  outside {n : String} {v : Value} (hOther : n ∉ o.names) (h : c.store.Sees env n v) : d.Sees n v

/-- A call can be made from any later context. -/
theorem Context.Within.upheld {b c d : Context} {o : Outline} {env : FrameId} {args : List Value}
    (h : c.Within o env args d) (hUpholds : b.Upholds c) : b.Within o env args d where
  upholds := hUpholds.trans h.upholds
  made := h.made
  params := h.params
  functions := h.functions
  outside hOther hSees := h.outside hOther (hSees.retains hUpholds.retains)

namespace Eval

variable {g : Function} {o : Outline} {env : FrameId} {args : List Value}

/-- The frame can be made. -/
theorem openCall_eq_ok (hOf : o.Of g) (hDistinct : o.names.Nodup)
    (hLength : o.params.length = args.length) (hMade : env < c.store.nextFrame) (span : Span) :
    ∃ d, openCall g env args span c = .ok c.store.nextFrame d ∧ c.Keeps d ∧
      c.Within o env args (d.enter c.store.nextFrame) := by
  let frame := c.store.nextFrame
  let c₁ := c.newFrame g.displayName env (some span)
  -- the call's frame is new and empty, with the closure's frame around it
  have hScope : c₁.store.scope? frame = some ⟨g.displayName, some env, some span, fun _ => none⟩ :=
    (scope?_newFrame _ _ _ _ _).trans (if_pos rfl)
  have hNew : frame < c₁.store.nextFrame := by
    show c.store.nextFrame < (c.store.newFrame _ _ _).nextFrame
    rw [nextFrame_newFrame]
    exact Nat.lt_succ_self _
  have hEmpty (n : String) : c₁.store.binding? frame n = none := by
    rw [binding?_eq, hScope]
    rfl
  have hArity : g.params.length = args.length := by
    rw [← hLength, ← hOf.params, List.length_map]
  obtain ⟨d, hFill, hParams, hFunctions, hOthers⟩ := fillCall_eq_ok (c := c₁) hArity
    (hOf.names ▸ hDistinct) hNew hEmpty
  have hFills := ((@filling_bindParams frame g.params args).bind fun _ =>
    filling_hoist g.body).furnishes c₁
  rw [after_ok hFill] at hFills
  have hOpen : openCall g env args span c = .ok frame d := by
    obtain ⟨_, c₂, hBind, hHoist⟩ := bind_eq_ok.mp hFill
    unfold openCall
    rw [if_neg (not_not.mpr hArity)]
    exact bind_eq_ok.mpr ⟨frame, c₁, rfl, bind_eq_ok.mpr ⟨(), c₂, hBind,
      bind_eq_ok.mpr ⟨(), d, hHoist, rfl⟩⟩⟩
  -- only the new frame has been written to
  have hKeeps : c.Keeps d := by
    refine ⟨((opening_openCall g env args span).forward _ _ _ hOpen).precedes, ?_, fun hf => ?_⟩
    · rw [hFills.nextFrame]
      exact Nat.le_of_lt hNew
    · have hOther := Nat.ne_of_lt hf
      exact (hFills.others _ hOther).trans ((scope?_newFrame _ _ _ _ _).trans (if_neg hOther))
  refine ⟨d, hOpen, hKeeps, hKeeps.upholds.enter frame, ?_, ?_, fun hLine => ?_,
    fun hOther hSees => ?_⟩
  · show frame < d.store.nextFrame
    rw [hFills.nextFrame]
    exact hNew
  · rw [← hOf.params]
    exact List.forall₂_map_left_iff.mpr
      (List.forall₂_iff_zip.mpr ⟨hArity, fun hMem => .here (hParams _ hMem)⟩)
  · obtain ⟨x, hMem, rfl, hFunction⟩ := hOf.function hLine
    obtain ⟨cell, hBinding⟩ := hFunctions x hMem
    exact ⟨cell, x.2, hFunction, .here hBinding⟩
  · obtain ⟨sc, hsc, -, hParent⟩ := hFills.frame _ hScope
    exact .outside hsc hParent hMade (hOthers _ (hOf.names ▸ hOther)) (hSees.retains hKeeps.retains)

end Eval

-- ---------------------------------------------------------------------------
-- Statements
-- ---------------------------------------------------------------------------

/-- No line is a `cut`. -/
theorem Line.Of.isCut {line : Line} {s : Stmt} (h : line.Of s) : s.isCut = false := by
  cases h <;> rfl

namespace Context

/-- Every statement enumerates that reads as the line says. -/
def Runs (c : Context) (line : Line) (row : List (Completion → Prop)) : Prop :=
  ∀ s : Stmt, line.Of s → c.Enumerates (k := .completion) s.start row

section

variable {σ : Sketch} {ps : List (Value → Prop)} (hUnbounded : c.Unbounded)

include hUnbounded

/-- A line that returns the value of an expression. -/
theorem runs_returns (h : c.Finds σ ps) :
    c.Runs (.returns σ) (ps.map fun p completion => ∃ v, completion = .returns v ∧ p v) := by
  intro s hs
  cases hs with
  | returns hOf span =>
    refine (Enumerates.map (h _ hOf) (List.forall₂_map_right_iff.mpr
      (List.forall₂_same.mpr fun p _ v hv d _ => ?_))).tick hUnbounded span
    exact ⟨_, d, rfl, ⟨v, rfl, hv⟩, .refl d⟩

/-- A line that is an expression. -/
theorem runs_expr (h : c.Finds σ ps) :
    c.Runs (.expr σ) (ps.map fun p completion => ∃ v, completion = .value v ∧ p v) := by
  intro s hs
  cases hs with
  | @expr _ e hOf =>
    refine (Enumerates.map (h _ hOf) (List.forall₂_map_right_iff.mpr
      (List.forall₂_same.mpr fun p _ v hv d _ => ?_))).tick hUnbounded e.span
    exact ⟨_, d, rfl, ⟨v, rfl, hv⟩, .refl d⟩

/-- Its function has been there since the frame was made. -/
theorem runs_function (name : String) (params : List String) (result : Sketch) :
    c.Runs (.function name params result) [(· = .value .undefined)] := by
  intro s hs
  cases hs with
  | function name params hOf span span' span'' =>
    have hFound : c.Enumerates (k := .completion) (pure (.found (.value .undefined)))
        [(· = .value .undefined)] := enumerates_found (k := .completion) rfl
    exact hFound.tick hUnbounded _

end

/-- All lines, each of them for every result of those before it. -/
theorem runs_statements {lines : List Line} {statements : List Stmt}
    {rows : List (List (Completion → Prop))} (hOf : List.Forall₂ Line.Of lines statements)
    (hRuns : List.Forall₂ c.Runs lines rows) :
    List.Forall₂ (fun s row => c.Enumerates (k := .completion) s.start row ∧ s.isCut = false)
      statements rows := by
  induction hOf generalizing rows with
  | nil =>
    cases hRuns
    exact .nil
  | cons hLine _ ih =>
    cases hRuns with
    | cons hRow hRuns => exact .cons ⟨hRow _ hLine, hLine.isCut⟩ (ih hRuns)

-- ---------------------------------------------------------------------------
-- Calls
-- ---------------------------------------------------------------------------

variable {o : Outline} {env : FrameId} {args : List Value}

/-- The results of a call are those of the completions of its body. Lines behind the first one
matter only if that completes. -/
theorem answers_closure {cell : CellId} {g : Function} {line : Line} {lines : List Line}
    {ps : List (Value → Prop)} (row : List (Completion → Prop))
    (rows : List (List (Completion → Prop))) (hOf : o.Of g) (hLines : o.lines = line :: lines)
    (hDistinct : o.names.Nodup) (hLength : o.params.length = args.length)
    (hMade : env < c.store.nextFrame)
    (hFirst : ∀ d, c.Within o env args d → d.Runs line row)
    (hRest : row ≠ [] → ∀ d, c.Within o env args d → List.Forall₂ d.Runs lines rows)
    (hOrdinary : ∀ r ∈ (row :: rows).dropLast, Ordinary r)
    (hCall : List.Forall₂ (fun q p => ∀ completion, q completion → p completion.ofCall)
      (inTurn row rows) ps) :
    c.Answers (.closure cell g env) args ps := by
  intro span d hUpholds
  let frame := d.store.nextFrame
  obtain ⟨e, hOpen, hKeeps, hWithin⟩ := openCall_eq_ok hOf hDistinct hLength
    (Nat.lt_of_lt_of_le hMade hUpholds.retains.frames) span
  have hBody : Machine.Enumerates (e.enter frame) (k := .completion) (inTurn row rows)
      (ask (.sequence g.body.statements)) (e.enter frame) := by
    have hWithin := hWithin.upheld hUpholds
    have hStatements := hLines ▸ hOf.lines
    generalize g.body.statements = statements at hStatements
    cases hStatements with
    | cons hLine hStatements =>
      exact enumerates_sequence hLine.isCut (hFirst _ hWithin _ hLine)
        (fun hSome => runs_statements hStatements (hRest hSome _ hWithin)) hOrdinary
  -- the body is entered, and left with each completion
  have hInside : Machine.Enumerates e (k := .completion) (inTurn row rows)
      (ask (.within frame (.sequence g.body.statements))) e :=
    .ask (hBody.within.congr (fun _ => rfl) rfl)
  have hResults := hInside.map (f := .call) (hCall.imp fun q p h completion hq d' _ =>
    ⟨completion.ofCall, d', rfl, h completion hq, .refl d'⟩)
  have hAsked : Machine.Enumerates e (k := .value) ps
      (ask (.map .call (.within frame (.sequence g.body.statements)))) e :=
    .ask (hResults.congr (fun _ => rfl) rfl)
  refine (hAsked.mono hKeeps).after (.of_eq fun stack => ?_) (.inl hKeeps.retains)
  show EStateM.bind (EStateM.bind (openCall g env args span) _) _ d = _
  simp only [EStateM.bind, hOpen]
  rfl

/-- The results of a call are those of the expression that the body returns. -/
theorem answers_returns {cell : CellId} {g : Function} {σ : Sketch} {ps : List (Value → Prop)}
    (hOf : o.Of g) (hLine : o.lines = [.returns σ]) (hDistinct : o.names.Nodup)
    (hLength : o.params.length = args.length) (hMade : env < c.store.nextFrame)
    (hUnbounded : c.Unbounded) (hResult : ∀ d, c.Within o env args d → d.Finds σ ps) :
    c.Answers (.closure cell g env) args ps := by
  refine answers_closure (ps.map fun p completion => ∃ v, completion = .returns v ∧ p v) [] hOf
    hLine hDistinct hLength hMade (fun d hWithin => ?_) (fun _ d _ => .nil)
    (fun r hr => absurd hr List.not_mem_nil)
    (List.forall₂_map_left_iff.mpr (List.forall₂_same.mpr fun p _ completion hReturned => ?_))
  · exact runs_returns (hWithin.upholds.unbounded hUnbounded) (hResult d hWithin)
  · obtain ⟨v, rfl, hv⟩ := hReturned
    exact hv

end Context

end AmbScript
