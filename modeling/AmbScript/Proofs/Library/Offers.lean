import AmbScript.Proofs.Library.Calls
import AmbScript.Proofs.Session.Constants

/-!
# The library in a context

As soon as the library is loaded its functions are there, and they are there for good: their names
stand for the functions of its text, and so do the names of the primitives that these use, whatever
programs declare in frames of their own.

* `Store.Offers` — the functions on lists and the primitives that they use are there.
* `Stage.Session.offers` — they are, at every stage after loading.
* `Context.Supplies` — what a call of one of the functions enumerates; `Context.Stocked.supplies`
  says that it is what the expression in its body enumerates.
* `Context.Yields` — what comes of such a call in one context.
* `Context.Visits` — a context inside such a call, and what is at hand there.

A function of the library is called while a program runs, with frames of the program around the
call. But the frame of the call is made inside the frame `1` of the library, so that what the
program declares by the same names is not seen in there.
-/

namespace AmbScript

open Store Eval

variable {retire : {k : Kind} → Search k → Bool} {chapter : Nat}

/-- Looked up from the frame, the names of the primitives that the library uses stand for these. -/
def Store.Provides (s : Store) (f : FrameId) : Prop :=
  ∀ q ∈ Prelude.listPrimitives, s.Sees f q.name (.primitive q)

/-- The functions on lists are in the frame `1`, and the primitives that they use are found
there. -/
structure Store.Offers (s : Store) : Prop where
  made : 1 < s.nextFrame
  functions {n : String} {o : Outline} (h : (n, o) ∈ Prelude.outlines) :
    ∃ cell f, o.Of f ∧ s.binding? 1 n = some (.ofValue (.closure cell f 1) true)
  primitives : s.Provides 1

/-- Frames that were there bind the same names to the same values. -/
theorem Store.Retains.bindings {s t : Store} (h : s.Retains t) {f : FrameId}
    (hMade : f < s.nextFrame) (n : String) : t.binding? f n = s.binding? f n := by
  rw [binding?_eq, binding?_eq, h.scopes hMade]

/-- What the library offers stays. -/
theorem Store.Offers.retains {s t : Store} (h : s.Offers) (hRetains : s.Retains t) : t.Offers where
  made := Nat.lt_of_lt_of_le h.made hRetains.frames
  functions hMem := by
    obtain ⟨cell, f, hOf, hBinding⟩ := h.functions hMem
    exact ⟨cell, f, hOf, (hRetains.bindings h.made _).trans hBinding⟩
  primitives q hMem := (h.primitives q hMem).retains hRetains

-- ---------------------------------------------------------------------------
-- Where the library is
-- ---------------------------------------------------------------------------

set_option maxRecDepth 4000 in
/-- The primitives are in the global frame. -/
theorem binding?_new (chapter : Nat) {q : Primitive} (h : q ∈ Prelude.listPrimitives) :
    (Context.new chapter).store.binding? 0 q.name = some (.ofValue (.primitive q) true) := by
  revert h q
  show ∀ q ∈ Prelude.listPrimitives, _
  unfold Prelude.listPrimitives
  simp only [List.forall_mem_cons, List.not_mem_nil, false_imp_iff, implies_true, and_true]
  exact ⟨rfl, rfl, rfl, rfl, rfl⟩

namespace Stage

/-- What the library declares it declares as its text does. -/
theorem Loaded.offers {p : Program} {st : Stage} (h : st.Loaded p) (hOutlines : p.OutlinesLists)
    (hGlobal : ∀ q ∈ Prelude.listPrimitives,
      st.context.store.binding? 0 q.name = some (.ofValue (.primitive q) true)) :
    st.context.store.Offers := by
  obtain ⟨hDeclared, hThere, hPrimitives⟩ := hOutlines
  refine ⟨h.made, fun {n o} hMem => ?_, fun q hMem => ?_⟩
  · obtain ⟨f, cell, hStatement, hName, hBinding⟩ := h.holds.held n (hThere _ hMem)
    have hOutline := hDeclared _ hStatement _ hMem hName
    obtain ⟨name, hSome, rfl⟩ := Option.map_eq_some_iff.mp hName
    have hFunction : (Stmt.function f).declaredFunction? = some (name, f) :=
      congrArg (Option.map (·, f)) hSome
    rw [hFunction] at hOutline
    exact ⟨cell, f, Function.of_outline? hOutline, hBinding⟩
  · obtain ⟨sc, hsc, -, hParent, -⟩ := h.inside
    exact .outside hsc hParent Nat.one_pos (h.holds.others _ (hPrimitives q hMem))
      (.here (hGlobal q hMem))

/-- At every stage after the library was loaded its functions on lists are there. -/
theorem Session.offers {st : Stage} (h : Session retire chapter st)
    (hLoaded : st.context.preludePending = false) : st.context.store.Offers := by
  obtain ⟨library, hLibrary, hOutlines⟩ := Prelude.exists_outlines
  rcases h.loaded_or with hUntouched | ⟨p, hp, hThere⟩
  · rw [hUntouched.pending] at hLoaded
    cases hLoaded
  · rw [hLibrary] at hp
    cases hp
    refine hThere.offers hOutlines fun q hMem => ?_
    have hNew := constants_new chapter
    have hGlobal : 0 < (Context.new chapter).store.nextFrame := nextFrame_new chapter ▸ Nat.one_pos
    rw [h.carries.binding?_eq_of_fixed hGlobal fun n b hBinding => ?_]
    · exact binding?_new chapter hMem
    · obtain ⟨v, rfl⟩ := hNew.const 0 n b hBinding
      exact ⟨v, hNew.fixed hBinding⟩

end Stage

/-- No function of the library has a name with a meaning of its own. -/
theorem Prelude.names_apart {n : String} {o : Outline} (h : (n, o) ∈ outlines) :
    n ≠ "amb" ∧ n ≠ "require" := by
  have hNames : ∀ x ∈ outlines, x.1 ≠ "amb" ∧ x.1 ≠ "require" := by decide
  exact hNames _ h

-- ---------------------------------------------------------------------------
-- Primitives at hand
-- ---------------------------------------------------------------------------

namespace Context

variable {c d : Context} {o : Outline} {args : List Value}

/-- The context is not stopped, and the primitives that the library uses are at hand. -/
structure Equipped (c : Context) : Prop where
  unbounded : c.Unbounded
  provides : c.store.Provides c.current

/-- In the frame of a call that has other names. -/
theorem Within.equipped {env : FrameId} (h : c.Within o env args d) (hUnbounded : c.Unbounded)
    (hProvides : c.store.Provides env) (hApart : ∀ q ∈ Prelude.listPrimitives, q.name ∉ o.names) :
    d.Equipped := by
  refine ⟨h.upholds.unbounded hUnbounded, ?_⟩
  intro q hMem
  exact h.outside (hApart q hMem) (hProvides q hMem)

namespace Equipped

variable {σ τ : Sketch} {v a b : Value} {cell : CellId} {ps qs : List (Value → Prop)}
  (h : c.Equipped)

include h

/-- A primitive with one argument. -/
theorem finds_primitive {q : Primitive} {w : Value} (hMem : q ∈ Prelude.listPrimitives)
    (hArg : c.Finds σ [(· = v)]) (hCall : c.Answers (.primitive q) [v] [(· = w)]) :
    c.Finds (.call q.name σ) [(· = w)] := by
  have hNames : ∀ q ∈ Prelude.listPrimitives, q.name ≠ "amb" ∧ q.name ≠ "require" := by decide
  obtain ⟨hAmb, hRequire⟩ := hNames q hMem
  refine finds_call_single h.unbounded hAmb hRequire (h.provides q hMem) hArg fun w hw => ?_
  subst hw
  exact hCall

/-- Whether the value is the empty list. -/
theorem finds_isNull (hArg : c.Finds σ [(· = v)]) :
    c.Finds (.call "is_null" σ) [(· = .bool (Primitive.isNull.question v))] :=
  h.finds_primitive (q := .isNull) (by decide) hArg (answers_isNull v)

theorem finds_isPair (hArg : c.Finds σ [(· = v)]) :
    c.Finds (.call "is_pair" σ) [(· = .bool (Primitive.isPair.question v))] :=
  h.finds_primitive (q := .isPair) (by decide) hArg (answers_isPair v)

theorem finds_head (hArg : c.Finds σ [(· = .pair cell a b)]) :
    c.Finds (.call "head" σ) [(· = a)] :=
  h.finds_primitive (q := .head) (by decide) hArg (answers_head cell a b)

theorem finds_tail (hArg : c.Finds σ [(· = .pair cell a b)]) :
    c.Finds (.call "tail" σ) [(· = b)] :=
  h.finds_primitive (q := .tail) (by decide) hArg (answers_tail cell a b)

/-- A pair of each value of the one and each value of the other expression. -/
theorem finds_pair (hHead : c.Finds σ ps) (hTail : c.Finds τ qs) :
    c.Finds (.call₂ "pair" σ τ)
      ((ps ×ˢ qs).map fun x v => ∃ cell a b, v = .pair cell a b ∧ x.1 a ∧ x.2 b) := by
  have hRows : c.Finds (.call₂ "pair" σ τ) ((ps ×ˢ qs).map fun x =>
      [fun v => ∃ cell a b, v = .pair cell a b ∧ x.1 a ∧ x.2 b]).flatten := by
    refine finds_call₂ h.unbounded (by decide) (by decide) (h.provides .pair (by decide)) hHead
      hTail (List.forall₂_map_right_iff.mpr (List.forall₂_same.mpr fun x _ a b ha hb => ?_))
    exact (answers_pair a b).imp (.cons (fun v ⟨cell, hv⟩ => ⟨cell, a, b, hv, ha, hb⟩) .nil)
  rw [← List.flatMap_def] at hRows
  exact (List.flatMap_pure_eq_map _ (ps ×ˢ qs)) ▸ hRows

end Equipped

-- ---------------------------------------------------------------------------
-- Functions of the library
-- ---------------------------------------------------------------------------

/-- The context is not stopped, and has the library's functions on lists. -/
structure Stocked (c : Context) : Prop where
  unbounded : c.Unbounded
  offers : c.store.Offers

/-- A call of the library's function of that name enumerates. -/
def Supplies (c : Context) (n : String) (args : List Value) (ps : List (Value → Prop)) : Prop :=
  ∀ f, c.store.binding? 1 n = some (.ofValue f true) → c.Answers f args ps

/-- Less may be said of the results. -/
theorem Supplies.imp {n : String} {ps qs : List (Value → Prop)} (h : c.Supplies n args ps)
    (hImp : List.Forall₂ (fun p q => ∀ v, p v → q v) ps qs) : c.Supplies n args qs :=
  fun f hBinding => (h f hBinding).imp hImp

/-- In the context, a call of the library's function of that name has results as the list says, one
for each entry and in that order, and then no more, in whatever later contexts it is asked for them.
If nothing else is done in between, all bindings are there in the end. -/
def Yields (c : Context) (n : String) (args : List Value) (ps : List (Value → Prop)) : Prop :=
  ∃ f, c.store.binding? 1 n = some (.ofValue f true) ∧ ∀ span,
    Machine.Enumerates c (k := .value) ps (launch (startCall f args span)) c ∧
    ∃ vs d, Machine.RunsThrough (k := .value) vs (launch (startCall f args span)) c d ∧
      List.Forall₂ (fun p v => p v) ps vs ∧ c.Keeps d

/-- `d` is inside a call, from `c`, of a function of the library that reads as `o` says. -/
structure Visits (c : Context) (o : Outline) (args : List Value) (d : Context) : Prop
    extends Within c o 1 args d, Equipped d, Stocked d where
  seen {n : String} {f : Value} (hOther : n ∉ o.names)
    (h : d.store.binding? 1 n = some (.ofValue f true)) : d.Sees n f

namespace Stocked

variable {n : String} {σ : Sketch} {ps : List (Value → Prop)} (h : c.Stocked)

include h

/-- A call from a context with the library ends up in a context where all of this is at hand. -/
theorem visits (hMem : (n, o) ∈ Prelude.outlines) (hWithin : c.Within o 1 args d) :
    c.Visits o args d where
  toWithin := hWithin
  toEquipped := by
    -- No parameter or inner function of the library has the name of a primitive.
    have hApart : ∀ x ∈ Prelude.outlines, ∀ q ∈ Prelude.listPrimitives, q.name ∉ x.2.names := by
      decide
    exact hWithin.equipped h.unbounded h.offers.primitives (hApart _ hMem)
  offers := h.offers.retains hWithin.upholds.retains
  seen hOther hBinding := by
    rw [hWithin.upholds.retains.bindings h.offers.made] at hBinding
    exact hWithin.outside hOther (.here hBinding)

/-- The function of that name reads as its outline says. -/
theorem supplies_of (hMem : (n, o) ∈ Prelude.outlines)
    (hAnswers : ∀ cell g, o.Of g → o.names.Nodup → c.Answers (.closure cell g 1) args ps) :
    c.Supplies n args ps := by
  intro f hBinding
  have hDistinct : ∀ x ∈ Prelude.outlines, x.2.names.Nodup := by decide
  obtain ⟨cell, g, hOf, hHeld⟩ := h.offers.functions hMem
  rw [hBinding] at hHeld
  cases hHeld
  exact hAnswers cell g hOf (hDistinct _ hMem)

/-- A function of the library that returns the value of an expression. -/
theorem supplies (hMem : (n, o) ∈ Prelude.outlines) (hLine : o.lines = [.returns σ])
    (hLength : o.params.length = args.length)
    (hResult : ∀ d, c.Visits o args d → d.Finds σ ps) : c.Supplies n args ps := by
  refine h.supplies_of hMem fun _ _ hOf hDistinct => ?_
  refine answers_returns hOf hLine hDistinct hLength h.offers.made h.unbounded fun d hWithin =>
    ?_
  exact hResult d (h.visits hMem hWithin)

/-- What a function of the library enumerates is what its calls yield. -/
theorem yields (hMem : (n, o) ∈ Prelude.outlines) (hSupplies : c.Supplies n args ps) :
    c.Yields n args ps := by
  obtain ⟨cell, f, -, hBinding⟩ := h.offers.functions hMem
  refine ⟨_, hBinding, fun span => ?_⟩
  have hEnumerates := hSupplies _ hBinding span c (Keeps.refl c).upholds
  exact ⟨hEnumerates, hEnumerates.exists_runsThrough (.refl c)⟩

end Stocked

namespace Visits

variable {n : String} {σ τ : Sketch} {ps : List (Value → Prop)} {p q : Value → Prop}
  (h : c.Visits o args d)

include h

/-- A call of another function of the library. -/
theorem finds_call {o' : Outline} (hMem : (n, o') ∈ Prelude.outlines) (hOther : n ∉ o.names)
    (hArg : d.Finds σ [p]) (hCall : ∀ v, p v → d.Supplies n [v] ps) : d.Finds (.call n σ) ps := by
  obtain ⟨cell, f, -, hBinding⟩ := h.offers.functions hMem
  obtain ⟨hAmb, hRequire⟩ := Prelude.names_apart hMem
  exact finds_call_single h.unbounded hAmb hRequire (h.seen hOther hBinding) hArg
    fun v hv => hCall v hv _ hBinding

theorem finds_call₂ {o' : Outline} (hMem : (n, o') ∈ Prelude.outlines) (hOther : n ∉ o.names)
    (hFirst : d.Finds σ [p]) (hSecond : d.Finds τ [q])
    (hCall : ∀ v w, p v → q w → d.Supplies n [v, w] ps) : d.Finds (.call₂ n σ τ) ps := by
  obtain ⟨cell, f, -, hBinding⟩ := h.offers.functions hMem
  obtain ⟨hAmb, hRequire⟩ := Prelude.names_apart hMem
  exact finds_call₂_single h.unbounded hAmb hRequire (h.seen hOther hBinding) hFirst hSecond
    fun v w hv hw => hCall v w hv hw _ hBinding

end Visits

end Context

/-- After the library was loaded, a context that is not stopped has all it takes. -/
theorem Stage.Session.stocked {st : Stage} (h : Session retire chapter st)
    (hLoaded : st.context.preludePending = false) (hUnbounded : st.context.Unbounded) :
    st.context.Stocked := ⟨hUnbounded, h.offers hLoaded⟩

end AmbScript
