import AmbScript.Proofs.Course.Combinations
import AmbScript.Proofs.Library.Sketches

/-!
# What expressions enumerate

Rules for what an expression enumerates, given what its parts do, one for each kind of expression
that the library's functions on lists need. All is said of a context and of every later one that
keeps its bindings, so what is known of one part holds when another one has been evaluated.

* `Context.Enumerates.map`, `Context.Enumerates.bind` and so on — searches that are started.
* `Store.Sees`, `Context.Sees` — what a name stands for.
* `Context.Answers` — what a call of a function value enumerates.
* `Context.Finds` — what every expression enumerates that reads as a sketch says.

Results are told by properties and not by values, since a pair is made in a new cell each time: of
`pair(1, null)` it can only be said what its parts are. A row is a list of such properties, one for
each result, and rules combine rows in the way that the search combines results.
-/

namespace AmbScript

open Machine Eval

variable {i k o : Kind} {c d : Context}

/-- A later context that keeps bindings is not stopped either. -/
theorem Context.Keeps.unbounded (h : c.Keeps d) (hUnbounded : c.Unbounded) : d.Unbounded :=
  h.toPrecedes.unbounded hUnbounded

-- ---------------------------------------------------------------------------
-- Searches that are started
-- ---------------------------------------------------------------------------

namespace Context.Enumerates

variable {x : Eval (Search i)} {ps : List (i.Item → Prop)}

/-- A node is counted first. -/
theorem tick (h : c.Enumerates x ps) (hUnbounded : c.Unbounded) (span : Span) :
    c.Enumerates (Eval.tick span >>= fun _ => x) ps := by
  intro d hKeeps
  have hCounted : d.Keeps d.counted := .counted d
  refine ((h d.counted (hKeeps.trans hCounted)).mono hCounted).after (.of_eq fun stack => ?_)
    (.inl hCounted.retains)
  show EStateM.bind (EStateM.bind (Eval.tick span) fun _ => x) _ d = EStateM.bind x _ d.counted
  simp only [EStateM.bind, tick_unbounded (hKeeps.unbounded hUnbounded)]

/-- Something is made of each result, without searching. -/
theorem map {f : Mapping i o} {qs : List (o.Item → Prop)} (h : c.Enumerates x ps)
    (hf : List.Forall₂ (fun p q => ∀ item, p item → ∀ d, c.Keeps d →
      ∃ b d', f.apply item d = .ok b d' ∧ q b ∧ d.Keeps d') ps qs) :
    c.Enumerates (do return .map f (← x)) qs := by
  intro d hKeeps
  refine Machine.Enumerates.after
    (.map (hf.imp fun p q hApply item hItem e hLater => ?_) (h d hKeeps))
    (.launch (fun s stack => rfl) d) (.inl (.refl _))
  exact hApply item hItem e (hKeeps.trans hLater)

/-- What is made of the one result. -/
theorem map_single {f : Mapping i o} {p : i.Item → Prop} {q : o.Item → Prop}
    (h : c.Enumerates x [p]) (hf : ∀ item, p item → ∀ d, ∃ b, f.apply item d = .ok b d ∧ q b) :
    c.Enumerates (do return .map f (← x)) [q] := by
  refine h.map (.cons (fun item hItem d _ => ?_) .nil)
  obtain ⟨b, hOk, hb⟩ := hf item hItem d
  exact ⟨b, d, hOk, hb, .refl d⟩

/-- Another search is started for each result, and the rows follow one another. -/
theorem bind {f : Expansion i o} {rows : List (List (o.Item → Prop))} (h : c.Enumerates x ps)
    (hf : List.Forall₂ (fun p row => ∀ item, p item → c.Enumerates (f.apply item) row) ps rows) :
    c.Enumerates (do return .bind f (← x)) rows.flatten := by
  intro d hKeeps
  refine Machine.Enumerates.after
    (.bind (hf.imp fun p row hApply item hItem e hLater => ?_) (h d hKeeps))
    (.launch (fun s stack => rfl) d) (.inl (.refl _))
  exact hApply item hItem e (hKeeps.trans hLater)

/-- What follows from the one result. -/
theorem bind_single {f : Expansion i o} {p : i.Item → Prop} {qs : List (o.Item → Prop)}
    (h : c.Enumerates x [p]) (hf : ∀ item, p item → c.Enumerates (f.apply item) qs) :
    c.Enumerates (do return .bind f (← x)) qs := by
  have hRow := h.bind (.cons hf .nil)
  rwa [List.flatten_singleton] at hRow

theorem imp {qs : List (i.Item → Prop)} (h : c.Enumerates x ps)
    (hImp : List.Forall₂ (fun p q => ∀ item, p item → q item) ps qs) : c.Enumerates x qs :=
  fun d hKeeps => (h d hKeeps).imp hImp

end Context.Enumerates

namespace Context

/-- One result is there at once. -/
theorem enumerates_found {p : k.Item → Prop} {item : k.Item} (h : p item) :
    c.Enumerates (pure (.found item)) [p] := by
  intro d _
  refine .ask ?_
  refine .found h (.refl d) fun _ hLater => ?_
  exact .failed hLater

theorem enumerates_failed : c.Enumerates (pure (.failed : Search k)) [] :=
  fun d _ => .failed (.refl d)

/-- The alternatives, one after the other. -/
theorem enumerates_choice {es : List Expr} {rows : List (List (Value → Prop))}
    (hes : List.Forall₂ (fun e row => c.Enumerates (k := .value) e.start row) es rows) :
    c.Enumerates (k := .value) (pure (.choice es)) rows.flatten := by
  intro _ hKeeps
  refine Machine.enumerates_choice ?_
  refine hes.imp fun _ _ h => ?_
  exact h.keeps hKeeps

/-- All combinations of results of the operands. -/
theorem enumerates_product {es : List Expr} {rows : List (List (Value → Prop))}
    (hes : List.Forall₂ (fun e row => c.Enumerates (k := .value) e.start row) es rows) :
    c.Enumerates (k := .tuple) (pure (.product es)) ((combinations rows).map Fits) := by
  intro _ hKeeps
  refine Machine.enumerates_product ?_
  refine hes.imp fun _ _ h => ?_
  exact h.keeps hKeeps

/-- The result of an action. -/
theorem enumerates_perform {x : Eval k.Item} {p : k.Item → Prop}
    (hx : ∀ d, c.Keeps d → ∃ item e, x d = .ok item e ∧ p item ∧ d.Keeps e) :
    c.Enumerates (do return .found (← x)) [p] := by
  intro d hKeeps
  obtain ⟨item, e, hOk, hItem, hLater⟩ := hx d hKeeps
  have hFound : Machine.Enumerates d [p] (ask (.found item)) e :=
    (enumerates_found hItem e (.refl e)).mono hLater
  refine hFound.after (.of_eq fun stack => ?_) (.inl hLater.retains)
  show EStateM.bind (EStateM.bind x _) _ d = _
  simp only [EStateM.bind, hOk]
  rfl

end Context

-- ---------------------------------------------------------------------------
-- Names
-- ---------------------------------------------------------------------------

/-- A name is resolved as before, also if it may be sought further outwards. -/
theorem Store.Retains.resolveLoop {s t : Store} (h : s.Retains t) {n : String} {fuel fuel' : Nat}
    {f : FrameId} {x : FrameId × Binding} (hle : fuel ≤ fuel')
    (hResolved : s.resolveLoop n fuel f = some x) : t.resolveLoop n fuel' f = some x := by
  induction fuel generalizing fuel' f with
  | zero => cases hResolved
  | succ fuel ih =>
    -- The later store has at least as many frames, and therefore at least as much fuel.
    obtain ⟨fuel', rfl⟩ := Nat.exists_eq_succ_of_ne_zero (Nat.ne_of_gt (Nat.lt_of_lt_of_le
      (Nat.succ_pos fuel) hle))
    have hle := Nat.le_of_succ_le_succ hle
    unfold Store.resolveLoop at hResolved ⊢
    cases hFrame : s.frames[f]? with
    | none =>
      rw [hFrame] at hResolved
      cases hResolved
    | some frame =>
      have hScope : t.scope? f = some frame.scope := by
        rw [h.scopes ((s.scope?_isSome_iff f).mp (by rw [Store.scope?, hFrame]; rfl)), Store.scope?,
          hFrame]
        rfl
      obtain ⟨frame', hFrame', hSame⟩ := Option.map_eq_some_iff.mp hScope
      have hBinding : frame'.binding? = frame.binding? := congrArg Scope.binding? hSame
      have hParent : frame'.parent = frame.parent := congrArg Scope.parent hSame
      rw [hFrame] at hResolved
      rw [hFrame']
      dsimp only at hResolved ⊢
      rw [hBinding, hParent]
      cases hb : frame.binding? n with
      | some b =>
        rw [hb] at hResolved
        exact hResolved
      | none =>
        rw [hb] at hResolved
        obtain ⟨parent, hp, hOutward⟩ := Option.bind_eq_some_iff.mp hResolved
        exact Option.bind_eq_some_iff.mpr ⟨parent, hp, ih hle hOutward⟩

/-- A name is resolved as before. -/
theorem Store.Retains.resolve? {s t : Store} (h : s.Retains t) {n : String} {f : FrameId}
    {x : FrameId × Binding} (hResolved : s.resolve? f n = some x) : t.resolve? f n = some x :=
  h.resolveLoop (Nat.le_refl _) hResolved

/-- Looked up from the frame `f`, the name stands for the value. -/
def Store.Sees (s : Store) (f : FrameId) (n : String) (v : Value) : Prop :=
  ∃ g isConst, s.resolve? f n = some (g, .ofValue v isConst)

theorem Store.Sees.retains {s t : Store} {f : FrameId} {n : String} {v : Value} (h : s.Sees f n v)
    (hRetains : s.Retains t) : t.Sees f n v := by
  obtain ⟨g, isConst, hResolved⟩ := h
  exact ⟨g, isConst, hRetains.resolve? hResolved⟩

namespace Context

/-- A name that is looked up stands for the value. -/
def Sees (c : Context) (n : String) (v : Value) : Prop := c.store.Sees c.current n v

theorem Keeps.current_eq (h : c.Keeps d) : d.current = c.current := by
  unfold current
  rw [h.toPrecedes.inner_eq, h.toPrecedes.outer_eq]

/-- A name stands for the same value later on. -/
theorem Sees.keeps {n : String} {v : Value} (h : c.Sees n v) (hKeeps : c.Keeps d) : d.Sees n v := by
  have hLater : d.store.Sees c.current n v := Store.Sees.retains h hKeeps.retains
  rw [← hKeeps.current_eq] at hLater
  exact hLater

/-- To look the name up has that value as its one result. -/
theorem Sees.enumerates {n : Ident} {v : Value} (h : c.Sees n.name v) :
    c.Enumerates (k := .value) (do return .found (← lookup n)) [(· = v)] := by
  refine enumerates_perform (k := .value) fun d hKeeps => ⟨v, d, ?_, rfl, .refl d⟩
  obtain ⟨f, isConst, hResolved⟩ := h.keeps hKeeps
  unfold lookup
  refine bind_eq_ok.mpr ⟨d, d, rfl, ?_⟩
  rw [hResolved]
  rfl

-- ---------------------------------------------------------------------------
-- Calls
-- ---------------------------------------------------------------------------

/-- `d` is a later context of the same run, perhaps inside other frames, and all bindings of `c` are
as they were. -/
def Upholds (c d : Context) : Prop := ({ c with inner := d.inner } : Context).Keeps d

theorem Keeps.inside (h : c.Keeps d) (frames : List FrameId) :
    ({ c with inner := frames } : Context).Keeps { d with inner := frames } where
  store := h.store
  cells := h.cells
  rest := by
    have hRest := h.rest
    rw [hRest]
  retains := h.retains

theorem Keeps.upholds (h : c.Keeps d) : c.Upholds d := by
  unfold Upholds
  rw [h.inner_eq]
  exact h

namespace Upholds

theorem trans {e : Context} (h : c.Upholds d) (h' : d.Upholds e) : c.Upholds e :=
  (h.inside e.inner).trans h'

theorem enter (h : c.Upholds d) (frame : FrameId) : c.Upholds (d.enter frame) := Keeps.enter h frame

theorem retains (h : c.Upholds d) : c.store.Retains d.store :=
  @Keeps.retains { c with inner := d.inner } d h

theorem unbounded (h : c.Upholds d) (hUnbounded : c.Unbounded) : d.Unbounded :=
  Keeps.unbounded h hUnbounded

end Upholds

/-- While the run goes on and all bindings of `c` are as they were, a call of the function value
enumerates. -/
def Answers (c : Context) (f : Value) (args : List Value) (ps : List (Value → Prop)) : Prop :=
  ∀ span d, c.Upholds d → Machine.Enumerates d (k := .value) ps (launch (startCall f args span)) d

variable {f : Value} {args : List Value} {ps : List (Value → Prop)}

/-- A function value answers in the same way later on. -/
theorem Answers.upholds (h : c.Answers f args ps) (hUpholds : c.Upholds d) : d.Answers f args ps := by
  intro span e hLater
  exact h span e (hUpholds.trans hLater)

/-- Less may be said of the answers. -/
theorem Answers.imp (h : c.Answers f args ps) {qs : List (Value → Prop)}
    (hImp : List.Forall₂ (fun p q => ∀ v, p v → q v) ps qs) : c.Answers f args qs := by
  intro span d hLater
  exact (h span d hLater).imp hImp

/-- A primitive has one answer. -/
theorem answers_primitive {p : Primitive} {q : Value → Prop}
    (hArity : p.arity.accepts args.length = true)
    (hCall : ∀ d, ∃ v e, p.call args d = .ok (.ok v) e ∧ q v ∧ d.Keeps e) :
    c.Answers (.primitive p) args [q] := by
  intro span d _
  suffices d.Enumerates (startCall (.primitive p) args span) [q] from this d (.refl d)
  refine enumerates_perform (k := .value) fun d _ => ?_
  obtain ⟨v, e, hOk, hv, hKeeps⟩ := hCall d
  refine ⟨v, e, ?_, hv, hKeeps⟩
  unfold applyPrimitive
  rw [hArity, if_neg (show ¬ (!true) = true from Bool.false_ne_true)]
  exact bind_eq_ok.mpr ⟨.ok v, e, hOk, rfl⟩

/-- Whether a value is the empty list. -/
theorem answers_isNull (v : Value) :
    c.Answers (.primitive .isNull) [v] [(· = .bool (Primitive.isNull.question v))] := by
  refine answers_primitive rfl fun d => ?_
  exact ⟨_, d, rfl, rfl, .refl d⟩

theorem answers_isPair (v : Value) :
    c.Answers (.primitive .isPair) [v] [(· = .bool (Primitive.isPair.question v))] := by
  refine answers_primitive rfl fun d => ?_
  exact ⟨_, d, rfl, rfl, .refl d⟩

/-- The first part of a pair. -/
theorem answers_head (cell : CellId) (a b : Value) :
    c.Answers (.primitive .head) [.pair cell a b] [(· = a)] := by
  refine answers_primitive rfl fun d => ?_
  exact ⟨_, d, rfl, rfl, .refl d⟩

theorem answers_tail (cell : CellId) (a b : Value) :
    c.Answers (.primitive .tail) [.pair cell a b] [(· = b)] := by
  refine answers_primitive rfl fun d => ?_
  exact ⟨_, d, rfl, rfl, .refl d⟩

/-- A pair is made in a cell of its own. -/
theorem answers_pair (a b : Value) :
    c.Answers (.primitive .pair) [a, b] [fun v => ∃ cell, v = .pair cell a b] := by
  refine answers_primitive rfl fun d => ?_
  refine ⟨_, { d with nextCell := d.nextCell + 1 }, rfl, ⟨_, rfl⟩, ?_, .refl _⟩
  exact ⟨.refl _, Nat.le_succ _, rfl⟩

/-- A name that is called tells the kind of the search. -/
theorem start_call (name : Ident) (es : List Expr) (span : Span) :
    (Expr.call (.ident name) es span).start = (do
      tick span
      if name.name = "amb" then return .choice es
      else if name.name = "require" then startRequire es span
      else return .bind (.callee es span) (← (Expr.ident name).start)) := by
  unfold Expr.start
  rw [show (Expr.ident name).ident?.map (·.name) = some name.name from rfl]
  split
  · rename_i h
    rw [if_pos (Option.some.inj h)]
  · rename_i h
    rw [Option.some.inj h, if_neg (by decide), if_pos rfl]
  · rename_i hAmb hRequire
    rw [if_neg fun h => hAmb (congrArg some h), if_neg fun h => hRequire (congrArg some h)]
    rfl

/-- The arguments are combined, and the function is called with each combination. -/
theorem enumerates_call {name : Ident} {es : List Expr} {span : Span}
    {pss : List (List (Value → Prop))} {rows : List (List (Value → Prop))}
    (hUnbounded : c.Unbounded) (hAmb : name.name ≠ "amb") (hRequire : name.name ≠ "require")
    (hName : c.Sees name.name f)
    (hArgs : List.Forall₂ (fun e ps => c.Enumerates (k := .value) e.start ps) es pss)
    (hCall : List.Forall₂ (fun ps row => ∀ vs, Fits ps vs → c.Answers f vs row)
      (combinations pss) rows) :
    c.Enumerates (k := .value) (Expr.call (.ident name) es span).start rows.flatten := by
  have hCallee : c.Enumerates (k := .value) (Expr.ident name).start [(· = f)] :=
    hName.enumerates.tick hUnbounded _
  have hSearch : c.Enumerates (k := .value)
      (do return .bind (.callee es span) (← (Expr.ident name).start)) rows.flatten := by
    refine hCallee.bind_single fun v hv => ?_
    subst hv
    refine (enumerates_product hArgs).bind (f := .arguments v span)
      (List.forall₂_map_left_iff.mpr (hCall.imp fun ps row hRow vs hFits => ?_))
    exact fun d hKeeps => hRow vs hFits span d hKeeps.upholds
  rw [start_call, if_neg hAmb, if_neg hRequire]
  exact hSearch.tick hUnbounded span

-- ---------------------------------------------------------------------------
-- Expressions
-- ---------------------------------------------------------------------------

/-- Every expression enumerates that reads as the sketch says. -/
def Finds (c : Context) (σ : Sketch) (ps : List (Value → Prop)) : Prop :=
  ∀ e : Expr, σ.Of e → c.Enumerates (k := .value) e.start ps

/-- Less may be said of the results. -/
theorem Finds.imp {σ : Sketch} {qs : List (Value → Prop)} (h : c.Finds σ ps)
    (hImp : List.Forall₂ (fun p q => ∀ v, p v → q v) ps qs) : c.Finds σ qs :=
  fun e he => (h e he).imp hImp

/-- Less may be said of the one result. -/
theorem Finds.imp_single {σ : Sketch} {p q : Value → Prop} (h : c.Finds σ [p])
    (hImp : ∀ v, p v → q v) : c.Finds σ [q] :=
  h.imp (.cons hImp .nil)

section

variable {σ τ υ : Sketch} {qs : List (Value → Prop)} {v w : Value} {b : Bool}
  (hUnbounded : c.Unbounded)

include hUnbounded

theorem finds_null : c.Finds .null [(· = .null)] := by
  intro e he
  cases he with
  | null span =>
    have hFound : c.Enumerates (k := .value) (pure (.found .null)) [(· = .null)] :=
      enumerates_found (k := .value) rfl
    exact hFound.tick hUnbounded span

theorem finds_bool (b : Bool) : c.Finds (.bool b) [(· = .bool b)] := by
  intro e he
  cases he with
  | bool _ span =>
    have hFound : c.Enumerates (k := .value) (pure (.found (.bool b))) [(· = .bool b)] :=
      enumerates_found (k := .value) rfl
    exact hFound.tick hUnbounded span

/-- A name has the value that it stands for. -/
theorem finds_name {n : String} (h : c.Sees n v) : c.Finds (.name n) [(· = v)] := by
  intro e he
  cases he with
  | name n => exact h.enumerates.tick hUnbounded _

theorem finds_not (h : c.Finds σ [(· = .bool b)]) : c.Finds (.not σ) [(· = .bool !b)] := by
  intro e he
  cases he with
  | not hOf span =>
    refine ((h _ hOf).map_single fun v hv d => ?_).tick hUnbounded span
    subst hv
    exact ⟨_, rfl, rfl⟩

/-- Two values are compared as `===` does. -/
theorem finds_equal (hLeft : c.Finds σ [(· = v)]) (hRight : c.Finds τ [(· = w)]) :
    c.Finds (.equal σ τ) [(· = .bool (v.strictEquals w))] := by
  intro e he
  cases he with
  | equal hLeftOf hRightOf span =>
    refine ((hLeft _ hLeftOf).bind_single fun left hv => ?_).tick hUnbounded span
    subst hv
    refine (hRight _ hRightOf).map_single fun right hw d => ?_
    subst hw
    exact ⟨_, rfl, rfl⟩

/-- Only one of the two alternatives has to be known of. -/
theorem finds_conditional (hTest : c.Finds σ [(· = .bool b)])
    (h : c.Finds (bif b then τ else υ) ps) : c.Finds (.conditional σ τ υ) ps := by
  intro e he
  cases he with
  | conditional hTestOf hConsequentOf hAlternateOf span =>
    refine ((hTest _ hTestOf).bind_single fun test hb => ?_).tick hUnbounded span
    subst hb
    cases b with
    | true => exact h _ hConsequentOf
    | false => exact h _ hAlternateOf

/-- The right operand matters only where the left one is false. -/
theorem finds_or (b' : Bool) (hLeft : c.Finds σ [(· = .bool b)])
    (hRight : b = false → c.Finds τ [(· = .bool b')]) :
    c.Finds (.logical .or σ τ) [(· = .bool (b || b'))] := by
  intro e he
  cases he with
  | logical _ hLeftOf hRightOf span =>
    refine ((hLeft _ hLeftOf).bind_single fun left hb => ?_).tick hUnbounded span
    subst hb
    cases b with
    | true => exact enumerates_found (k := .value) rfl
    | false => exact hRight rfl _ hRightOf

theorem finds_and (b' : Bool) (hLeft : c.Finds σ [(· = .bool b)])
    (hRight : b = true → c.Finds τ [(· = .bool b')]) :
    c.Finds (.logical .and σ τ) [(· = .bool (b && b'))] := by
  intro e he
  cases he with
  | logical _ hLeftOf hRightOf span =>
    refine ((hLeft _ hLeftOf).bind_single fun left hb => ?_).tick hUnbounded span
    subst hb
    cases b with
    | true => exact hRight rfl _ hRightOf
    | false => exact enumerates_found (k := .value) rfl

/-- A call with one argument. -/
theorem finds_call {n : String} {rows : List (List (Value → Prop))} (hAmb : n ≠ "amb")
    (hRequire : n ≠ "require") (hName : c.Sees n f) (hArg : c.Finds σ ps)
    (hCall : List.Forall₂ (fun p row => ∀ v, p v → c.Answers f [v] row) ps rows) :
    c.Finds (.call n σ) rows.flatten := by
  intro e he
  cases he with
  | call name hOf span =>
    refine enumerates_call hUnbounded hAmb hRequire hName (.cons (hArg _ hOf) .nil) ?_
    rw [combinations_one]
    refine List.forall₂_map_left_iff.mpr (hCall.imp fun p row h vs hFits => ?_)
    cases hFits with
    | cons hv hNil =>
      cases hNil
      exact h _ hv

/-- A call whose argument has one value. -/
theorem finds_call_single {n : String} {p : Value → Prop} (hAmb : n ≠ "amb")
    (hRequire : n ≠ "require") (hName : c.Sees n f) (hArg : c.Finds σ [p])
    (hCall : ∀ v, p v → c.Answers f [v] ps) : c.Finds (.call n σ) ps := by
  have hRow := finds_call hUnbounded hAmb hRequire hName hArg (.cons hCall .nil)
  rwa [List.flatten_singleton] at hRow

/-- A call with two arguments. -/
theorem finds_call₂ {n : String} {rows : List (List (Value → Prop))} (hAmb : n ≠ "amb")
    (hRequire : n ≠ "require") (hName : c.Sees n f) (hFirst : c.Finds σ ps) (hSecond : c.Finds τ qs)
    (hCall : List.Forall₂ (fun x row => ∀ v w, x.1 v → x.2 w → c.Answers f [v, w] row)
      (ps ×ˢ qs) rows) :
    c.Finds (.call₂ n σ τ) rows.flatten := by
  intro e he
  cases he with
  | call₂ name hFirstOf hSecondOf span =>
    refine enumerates_call hUnbounded hAmb hRequire hName
      (.cons (hFirst _ hFirstOf) (.cons (hSecond _ hSecondOf) .nil)) ?_
    rw [combinations_two]
    refine List.forall₂_map_left_iff.mpr (hCall.imp fun x row h vs hFits => ?_)
    cases hFits with
    | cons hv hRest =>
      cases hRest with
      | cons hw hNil =>
        cases hNil
        exact h _ _ hv hw

/-- A call whose two arguments have one value each. -/
theorem finds_call₂_single {n : String} {p q : Value → Prop} (hAmb : n ≠ "amb")
    (hRequire : n ≠ "require") (hName : c.Sees n f) (hFirst : c.Finds σ [p])
    (hSecond : c.Finds τ [q])
    (hCall : ∀ v w, p v → q w → c.Answers f [v, w] ps) : c.Finds (.call₂ n σ τ) ps := by
  have hRow := finds_call₂ hUnbounded hAmb hRequire hName hFirst hSecond (.cons hCall .nil)
  rwa [List.flatten_singleton] at hRow

/-- A choice between two alternatives. -/
theorem finds_amb (hFirst : c.Finds σ ps) (hSecond : c.Finds τ qs) :
    c.Finds (.call₂ "amb" σ τ) (ps ++ qs) := by
  intro e he
  generalize hName : "amb" = n at he
  cases he with
  | call₂ name hFirstOf hSecondOf span =>
    have hChoice := enumerates_choice (.cons (hFirst _ hFirstOf) (.cons (hSecond _ hSecondOf) .nil))
    rw [List.flatten_cons, List.flatten_singleton] at hChoice
    rw [start_call, if_pos hName.symm]
    exact hChoice.tick hUnbounded span

/-- A requirement that is met has one result, and one that is not has none. -/
theorem finds_require (h : c.Finds σ [(· = .bool b)]) :
    c.Finds (.call "require" σ) (bif b then [(· = .undefined)] else []) := by
  intro e he
  generalize hName : "require" = n at he
  cases he with
  | call name hOf span =>
    rw [start_call, ← hName, if_neg (by decide), if_pos rfl]
    refine ((h _ hOf).bind_single fun v hb => ?_).tick hUnbounded span
    subst hb
    cases b with
    | true => exact enumerates_found (k := .value) rfl
    | false => exact enumerates_failed

end

end Context

end AmbScript
