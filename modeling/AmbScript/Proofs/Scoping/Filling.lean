import AmbScript.Proofs.Machine.Conserved
import AmbScript.Proofs.Scoping.Layout

/-!
# Filling the frame of a scope

A frame is made, gets its names one by one, and is complete. Until then the chart says nothing of
it, and nothing else of the store is changed. Once it is complete it has just the names of its
scope, and can be added to the chart.

* `Chart.Fits.write_turn`, `Chart.Fits.unwindTo` — bindings that turn, and that turn back.
* `Chart.Fits.add` — a frame that is complete is added to the chart.
* `Eval.Furnishes`, `Eval.Adds` — what an action does to a frame that is being filled.
* `Eval.adds_hoist`, `Eval.adds_bindParams`, `Eval.adds_copyVariables` — the names that it gets.
* `Eval.hoist_eq_ok`, `Eval.bindParams_eq_ok` — that names which are distinct can be added, and what
  they are bound to then.

A frame under construction is kept out of the chart on purpose: a filling that fails half-way leaves
a frame with some of its names, and no statement about whole scopes is true of it. It does no harm,
as nothing refers to it.
-/

namespace AmbScript

variable {α β : Type} {ch : Chart} {outer : List FrameId}

open Store Eval

-- ---------------------------------------------------------------------------
-- Stores
-- ---------------------------------------------------------------------------

namespace Chart

/-- What matters of a frame is its scope. -/
theorem Shaped.congr {s t : Store} {f : FrameId} {layout : Layout} (h : ch.Shaped s f layout)
    (hScope : t.scope? f = s.scope? f) : ch.Shaped t f layout := by
  cases h with
  | mk hs hName hNames hAround => exact .mk (hScope.trans hs) hName hNames hAround

namespace Fits

variable {s t : Store}

/-- Frames that the chart says nothing of are changed, and no change is logged. -/
theorem congr (h : ch.Fits s) (hRegular : t.Regular)
    (hScopes : ∀ f < s.nextFrame, t.scope? f = s.scope? f)
    (hTrail : ∀ u ∈ t.trail.toList, u ∈ s.trail.toList) : ch.Fits t where
  regular := hRegular
  shaped f layout hLayout :=
    (h.shaped f layout hLayout).congr (hScopes f (h.lt_nextFrame hLayout))
  bound f layout name b hLayout hb := by
    rw [binding?_eq, hScopes f (h.lt_nextFrame hLayout), ← binding?_eq] at hb
    exact h.bound f layout name b hLayout hb
  logged u hu := h.logged u (hTrail u hu)
  code := h.code

/-- To mark the store changes no frame. -/
theorem mark (h : ch.Fits s) : ch.Fits s.mark := by
  refine h.congr h.regular.mark ?_ ?_
  · intro _ _
    exact rfl
  · intro _ hu
    exact hu

theorem forget (h : ch.Fits s) : ch.Fits s.forget := by
  refine h.congr (.forget s) ?_ ?_
  · intro _ _
    exact rfl
  · intro _ hu
    exact absurd hu List.not_mem_nil

/-- A binding turns. -/
theorem write_turn (h : ch.Fits s) {f : FrameId} {layout : Layout}
    (hLayout : ch.layout f = some layout) {name : String} {b b' : Binding}
    (hBinding : s.binding? f name = some b) (hTurns : b.Turns b') (hPlaced : b'.Placed ch) :
    ch.Fits (s.write f name b') where
  regular := h.regular.write_turn hBinding hTurns
  shaped g layout hLayout := by
    have hCarries : s.Carries (s.write f name b') :=
      Builds.carries ⟨h.regular.write_turn hBinding hTurns, watermark_write _ _ _ _,
        conserves_write_turn hBinding hTurns _,
        fun _ _ _ _ hFixed => hFixed.write_turn hBinding hTurns⟩
    exact (h.shaped g layout hLayout).carries hCarries
  bound g layout n c hLayout hc := by
    -- only the one binding changes, to one that is placed as well
    by_cases hSame : g = f ∧ n = name
    · obtain ⟨rfl, rfl⟩ := hSame
      rw [binding?_write_self (lt_nextFrame_of_binding? hBinding), if_pos rfl] at hc
      cases hc
      exact hPlaced
    · rw [binding?_write_of_ne hSame] at hc
      exact h.bound g layout n c hLayout hc
  logged u hu c hc := by
    rcases mem_trail_write hu with hOld | rfl
    · exact h.logged u hOld c hc
    · exact h.bound f layout name c hLayout hc
  code := h.code

/-- Undoing changes puts back what was logged. -/
theorem bound_undo (hBound : ∀ f layout name b, ch.layout f = some layout →
      s.binding? f name = some b → b.Placed ch)
    (hLogged : ∀ u ∈ s.trail.toList, ∀ b, u.previous = some b → b.Placed ch) (n : Nat)
    {f : FrameId} {layout : Layout} (hLayout : ch.layout f = some layout) {name : String}
    {b : Binding} (hb : (undo n s).binding? f name = some b) : b.Placed ch := by
  -- by induction on the entries undone: each puts back a binding that was logged, and logged
  -- bindings are placed
  induction n generalizing s with
  | zero => exact hBound f layout name b hLayout hb
  | succ n ih =>
    refine ih (s := s.undoLast) ?_ ?_ hb
    · intro g layout name b hLayout hb
      unfold undoLast at hb
      split at hb
      · exact hBound g layout name b hLayout hb
      · rename_i u hBack
        have hu : u ∈ s.trail.toList := Array.mem_toList_iff.mpr (Array.mem_of_back? hBack)
        by_cases hSame : g = u.frame ∧ name = u.name
        · obtain ⟨rfl, rfl⟩ := hSame
          rw [binding?_eq, scope?_put, if_pos rfl] at hb
          obtain ⟨sc, hsc, hb⟩ := Option.bind_eq_some_iff.mp hb
          obtain ⟨sc', -, rfl⟩ := Option.map_eq_some_iff.mp hsc
          have hb : (if u.name = u.name then u.previous else sc'.binding? u.name) = some b := hb
          rw [if_pos rfl] at hb
          exact hLogged u hu b hb
        · rw [binding?_put_of_ne hSame] at hb
          exact hBound g layout name b hLayout hb
    · intro u hu
      rw [trail_undoLast, Array.toList_pop] at hu
      exact hLogged u ((List.dropLast_sublist _).subset hu)

/-- Going back turns bindings back, and names stay. -/
theorem unwindTo (h : ch.Fits s) (n : Nat) : ch.Fits (s.unwindTo n) where
  regular := h.regular.unwindTo n
  shaped f layout hLayout := (h.shaped f layout hLayout).carries (.unwindTo h.regular n)
  bound f layout name b hLayout hb := bound_undo h.bound h.logged _ hLayout hb
  logged u hu := by
    rw [trail_unwindTo] at hu
    exact h.logged u (List.mem_of_mem_take hu)
  code := h.code

/-- A frame that is complete is added to the chart. -/
theorem add (h : ch.Fits s) {f : FrameId} (hNew : ch.layout f = none) {site : Site}
    {outside : Layout} {code : Option (List Stmt)}
    (hShaped : ch.Shaped s f (site :: outside))
    (hBound : ∀ name b, s.binding? f name = some b → b.Placed (ch.add f (site :: outside) code))
    (hCode : ∀ statements, code = some statements → site = ⟨f, [], .program statements⟩) :
    (ch.add f (site :: outside) code).Fits s := by
  have hle : ch ≤ ch.add f (site :: outside) code := le_add hNew _ _
  -- a layout of the larger chart is the new frame's or an old one
  have hOf {g : FrameId} {layout : Layout}
      (hLayout : (ch.add f (site :: outside) code).layout g = some layout) :
      (g = f ∧ layout = site :: outside) ∨ ch.layout g = some layout := by
    unfold Chart.add at hLayout
    dsimp only at hLayout
    split at hLayout
    · rename_i hSame
      cases hLayout
      exact .inl ⟨hSame, rfl⟩
    · exact .inr hLayout
  refine ⟨h.regular, fun g layout hLayout => ?_, fun g layout name b hLayout hb => ?_,
    fun u hu b hb => (h.logged u hu b hb).mono hle, fun g statements hStatements => ?_⟩
  · rcases hOf hLayout with ⟨rfl, rfl⟩ | hOld
    · exact hShaped.mono hle
    · exact (h.shaped g layout hOld).mono hle
  · rcases hOf hLayout with ⟨rfl, rfl⟩ | hOld
    · exact hBound name b hb
    · exact (h.bound g layout name b hOld hb).mono hle
  · unfold Chart.add at hStatements ⊢
    dsimp only at hStatements ⊢
    split at hStatements
    · rename_i hSame
      rw [if_pos hSame, hCode statements hStatements, hSame]
      exact ⟨outside, rfl⟩
    · rename_i hOther
      rw [if_neg hOther]
      exact h.code g statements hStatements

end Fits

end Chart

-- ---------------------------------------------------------------------------
-- Frames that are being filled
-- ---------------------------------------------------------------------------

/-- `d` comes from `c` by changes in the frame `f`, which are not logged if the frame is young. -/
structure Context.FillsFrame (f : FrameId) (c d : Context) : Prop where
  others : ∀ g, g ≠ f → d.store.scope? g = c.store.scope? g
  frame : ∀ sc, c.store.scope? f = some sc →
    ∃ sc', d.store.scope? f = some sc' ∧ sc'.name = sc.name ∧ sc'.parent = sc.parent
  trail : c.store.watermark ≤ f → d.store.trail = c.store.trail
  watermark : d.store.watermark = c.store.watermark
  nextFrame : d.store.nextFrame = c.store.nextFrame
  inner : d.inner = c.inner
  outer : d.outer = c.outer

/-- All that `x` changes is the frame `f`. -/
def Eval.Furnishes (f : FrameId) (x : Eval α) : Prop :=
  ∀ c : Context, c.FillsFrame f (x.after c)

/-- Where it has a result from `c`, `x` adds names to the frame `f`, and the bindings that it makes
there are as `Q` says. -/
def Eval.Adds (c : Context) (f : FrameId) (names : List String) (Q : Binding → Prop)
    (x : Eval α) : Prop :=
  ∀ (a : α) (d : Context), f < c.store.nextFrame → x c = .ok a d →
    d.store.nextFrame = c.store.nextFrame ∧
    (∀ n, (d.store.binding? f n).isSome ↔ (c.store.binding? f n).isSome ∨ n ∈ names) ∧
    ∀ n b, d.store.binding? f n = some b → c.store.binding? f n = some b ∨ Q b

namespace Context.FillsFrame

variable {f : FrameId} {c d e : Context}

/-- Nothing is changed at all. -/
theorem of_same (hStore : d.store = c.store) (hInner : d.inner = c.inner)
    (hOuter : d.outer = c.outer) : c.FillsFrame f d where
  others _ _ := by rw [hStore]
  frame sc hsc := ⟨sc, hStore ▸ hsc, rfl, rfl⟩
  trail _ := by rw [hStore]
  watermark := by rw [hStore]
  nextFrame := by rw [hStore]
  inner := hInner
  outer := hOuter

/-- One filling after the other. -/
theorem trans (h : c.FillsFrame f d) (h' : d.FillsFrame f e) : c.FillsFrame f e where
  others g hg := (h'.others g hg).trans (h.others g hg)
  frame sc hsc := by
    obtain ⟨sc', hsc', hName, hParent⟩ := h.frame sc hsc
    obtain ⟨sc'', hsc'', hName', hParent'⟩ := h'.frame sc' hsc'
    exact ⟨sc'', hsc'', hName'.trans hName, hParent'.trans hParent⟩
  trail hYoung := (h'.trail (h.watermark ▸ hYoung)).trans (h.trail hYoung)
  watermark := h'.watermark.trans h.watermark
  nextFrame := h'.nextFrame.trans h.nextFrame
  inner := h'.inner.trans h.inner
  outer := h'.outer.trans h.outer

/-- What is logged is not changed. -/
theorem regular (h : c.FillsFrame f d) (hRegular : c.store.Regular)
    (hYoung : c.store.watermark ≤ f) : d.store.Regular where
  watermark := by
    rw [h.watermark, h.nextFrame]
    exact hRegular.watermark
  marked u hu := by
    rw [h.watermark]
    rw [h.trail hYoung] at hu
    exact hRegular.marked u hu
  logged := by
    rw [h.trail hYoung]
    exact hRegular.logged.congr (h.trail hYoung).symm hRegular.marked fun g hg =>
      (h.others g (Nat.ne_of_lt (Nat.lt_of_lt_of_le hg hYoung))).symm

end Context.FillsFrame

namespace Eval

variable {f : FrameId} {Q : Binding → Prop} {c : Context}

-- ---------------------------------------------------------------------------
-- Nothing else is changed
-- ---------------------------------------------------------------------------

/-- A name is bound in the frame. -/
theorem furnishes_bindName (name : String) (b : Binding) : Furnishes f (bindName f name b) := by
  intro c
  refine ⟨fun g hg => ?_, fun sc hsc => ⟨sc.set name (some b), ?_, rfl, rfl⟩, fun hYoung => ?_,
    watermark_write _ _ _ _, nextFrame_write _ _ _ _, rfl, rfl⟩
  · exact (scope?_write _ _ _ _ _).trans (if_neg hg)
  · refine (scope?_write _ _ _ _ _).trans ?_
    rw [if_pos rfl, hsc]
    rfl
  · show (c.store.write f name b).trail = c.store.trail
    unfold write
    dsimp only
    rw [if_neg (show ¬ f < (c.store.put f name (some b)).watermark from Nat.not_lt.mpr hYoung)]
    rfl

/-- What fills a frame changes no other one. -/
theorem Filling.furnishes {x : Eval α} (h : Filling f x) : Furnishes f x :=
  have hSame (c d : Context) (hStore : d.store = c.store) (hInner : d.inner = c.inner)
      (hOuter : d.outer = c.outer) : c.FillsFrame f d := .of_same hStore hInner hOuter
  h.leads (R := Context.FillsFrame f) (fun _ => hSame _ _ rfl rfl rfl) Context.FillsFrame.trans
    (fun _ => hSame _ _ rfl rfl rfl) (fun _ _ => hSame _ _ rfl rfl rfl)
    fun c name b => furnishes_bindName name b c

-- ---------------------------------------------------------------------------
-- Names that are added
-- ---------------------------------------------------------------------------

theorem adds_pure (a : α) : Adds c f [] Q (pure a) := by
  intro b d _ h
  cases h
  exact ⟨rfl, fun n => by simp, fun n b hb => .inl hb⟩

/-- There is no result to speak of. -/
theorem adds_throw (t : Fault) (names : List String) : Adds c f names Q (throw t : Eval α) := by
  intro b d _ h
  cases h

/-- Names of the first action, and those of the second. -/
theorem adds_bind {names names' : List String} {x : Eval α} {y : α → Eval β}
    (hx : Adds c f names Q x) (hy : ∀ a d, x c = .ok a d → Adds d f names' Q (y a)) :
    Adds c f (names ++ names') Q (x >>= y) := by
  intro b e hMade h
  obtain ⟨a, d, hFirst, hSecond⟩ := bind_eq_ok.mp h
  obtain ⟨hFrames, hNames, hBindings⟩ := hx a d hMade hFirst
  obtain ⟨hFrames', hNames', hBindings'⟩ := hy a d hFirst b e (hFrames ▸ hMade) hSecond
  refine ⟨hFrames'.trans hFrames, fun n => ?_, fun n b hb => ?_⟩
  · rw [hNames', hNames, List.mem_append, or_assoc]
  · rcases hBindings' n b hb with hOld | hNew
    · exact hBindings n b hOld
    · exact .inr hNew

/-- One name is added. -/
theorem adds_bindName {b : Binding} (h : Q b) (name : String) :
    Adds c f [name] Q (bindName f name b) := by
  intro u d hMade hEq
  cases hEq
  have hBinding (n : String) : (c.store.write f name b).binding? f n =
      if n = name then some b else c.store.binding? f n := binding?_write_self hMade name b n
  refine ⟨nextFrame_write _ _ _ _, fun n => ?_, fun n b' hb => ?_⟩
  · show ((c.store.write f name b).binding? f n).isSome ↔ _
    rw [hBinding, List.mem_singleton]
    by_cases hName : n = name <;> simp [hName]
  · have hb : (c.store.write f name b).binding? f n = some b' := hb
    rw [hBinding] at hb
    split at hb
    · cases hb
      exact .inr h
    · exact .inl hb

/-- An action that looks at its context first. -/
theorem adds_get_bind {names : List String} {y : Context → Eval β} (h : Adds c f names Q (y c)) :
    Adds c f names Q (get >>= y) := h

/-- A name that is there already is not added. -/
theorem adds_bindName_again {b : Binding} (h : Q b) {name : String} {old : Binding}
    (hOld : c.store.binding? f name = some old) : Adds c f [] Q (bindName f name b) := by
  intro u d hMade hEq
  obtain ⟨hFrames, hNames, hBindings⟩ := adds_bindName h name u d hMade hEq
  refine ⟨hFrames, fun n => ?_, hBindings⟩
  rw [hNames, List.mem_singleton]
  refine ⟨fun hName => .inl ?_, fun hName => .inl (hName.resolve_right List.not_mem_nil)⟩
  rcases hName with hThere | rfl
  · exact hThere
  · rw [hOld]
    rfl

/-- A placeholder is added. -/
theorem adds_declare (h : Q .placeholder) (name : Ident) :
    Adds c f [name.name] Q (declare f name) := by
  refine adds_get_bind ?_
  split
  · exact adds_throw _ _
  · exact adds_bindName h name.name

/-- Only a name that is there gets a value. -/
theorem adds_defineIn {v : Value} {isConst : Bool} (h : Q (.ofValue v isConst)) (name : Ident) :
    Adds c f [] Q (defineIn f name v isConst) := by
  refine adds_get_bind ?_
  split
  · rename_i hOld
    exact adds_bindName_again h hOld
  · exact adds_throw _ _

theorem adds_declareAll (h : Q .placeholder) (names : List Ident) :
    Adds c f (names.map Ident.name) Q (declareAll f names) := by
  induction names generalizing c with
  | nil => exact adds_pure _
  | cons name names ih => exact adds_bind (adds_declare h name) fun _ _ _ => ih

/-- Functions get their closures. The names are not new, so nothing is added to them. -/
theorem adds_defineFunctions {stmts : List Stmt}
    (h : ∀ g, .function g ∈ stmts → ∀ cell, Q (.ofValue (.closure cell g f) true)) :
    Adds c f [] Q (defineFunctions f stmts) := by
  induction stmts generalizing c with
  | nil => exact adds_pure _
  | cons s rest ih =>
    have ih {c : Context} : Adds c f [] Q (defineFunctions f rest) :=
      ih fun g hg => h g (List.mem_cons_of_mem _ hg)
    unfold defineFunctions
    split
    · exact adds_pure _
    · rename_i g rest' hEq
      cases hEq
      dsimp only
      split
      -- only a function with a name is defined, as a closure over the frame being filled
      · rename_i name _
        intro u d hMade hEq
        obtain ⟨v, e, hClosure, hEq⟩ := bind_eq_ok.mp hEq
        cases hClosure
        have hDefine : Adds { c with nextCell := c.nextCell + 1 } f [] Q
            (defineIn f name (.closure c.nextCell g f) true) :=
          adds_defineIn (h g List.mem_cons_self c.nextCell) name
        exact adds_bind hDefine (fun _ _ _ => ih) u d hMade hEq
      · exact ih
    · rename_i hEq
      cases hEq
      exact ih

/-- The names that are declared in a block. -/
theorem adds_hoist {b : Block} (hPlaceholder : Q .placeholder)
    (h : ∀ g, .function g ∈ b.statements → ∀ cell, Q (.ofValue (.closure cell g f) true)) :
    Adds c f (b.declarations.map Ident.name) Q (hoist f b) := by
  have hBoth := adds_bind (c := c) (adds_declareAll hPlaceholder b.declarations)
    fun _ _ _ => adds_defineFunctions h
  rw [List.append_nil] at hBoth
  exact hBoth

/-- The parameters of a function. -/
theorem adds_bindParams {params : List Ident} {args : List Value}
    (hLength : params.length = args.length) (h : ∀ v ∈ args, Q (.ofValue v false)) :
    Adds c f (params.map Ident.name) Q (bindParams f params args) := by
  induction params generalizing args c with
  | nil =>
    cases args with
    | nil => exact adds_pure _
    | cons v vs => cases hLength
  | cons p ps ih =>
    cases args with
    | nil => cases hLength
    | cons v vs =>
      obtain ⟨hv, hvs⟩ := List.forall_mem_cons.mp h
      exact adds_bind (adds_bindName hv p.name) fun _ _ _ => ih (Nat.succ.inj hLength) hvs

/-- The copies have the values that the variables have. -/
theorem adds_copyVariables {source : FrameId} (hOther : source ≠ f) {names : List Ident}
    (hUndefined : Q (.ofValue .undefined true))
    (h : ∀ name b v, c.store.binding? source name = some b → b.value? = some v →
      Q (.ofValue v true)) :
    Adds c f (names.map Ident.name) Q (copyVariables source f names) := by
  induction names generalizing c with
  | nil => exact adds_pure _
  | cons name names ih =>
    -- a variable without a value is copied as undefined
    have hCopy : Q (.ofValue (((c.store.binding? source name.name) >>= Binding.value?).getD
        .undefined) true) := by
      cases hv : (c.store.binding? source name.name) >>= Binding.value? with
      | none => exact hUndefined
      | some v =>
        obtain ⟨b, hb, hv⟩ := Option.bind_eq_some_iff.mp hv
        exact h name.name b v hb hv
    refine adds_get_bind (adds_bind (adds_bindName hCopy name.name) fun _ d hBind =>
      ih fun n b v hb hv => ?_)
    cases hBind
    rw [binding?_write_of_ne fun hSame => hOther hSame.1] at hb
    exact h n b v hb hv

end Eval

-- ---------------------------------------------------------------------------
-- Names that can be added
-- ---------------------------------------------------------------------------

/-- The function that a statement declares, with its name. -/
def Stmt.declaredFunction? : Stmt → Option (Ident × Function)
  | .function f => f.name?.map fun name => (name, f)
  | _ => none

/-- Only the declaration of a function declares one. -/
theorem Stmt.of_declaredFunction? {s : Stmt} {x : Ident × Function}
    (h : s.declaredFunction? = some x) : s = .function x.2 ∧ x.2.name? = some x.1 := by
  cases s with
  | function f =>
    obtain ⟨name, hName, rfl⟩ := Option.map_eq_some_iff.mp h
    exact ⟨rfl, hName⟩
  | _ => cases h

/-- The functions that a block declares, with their names. -/
def Block.functions (b : Block) : List (Ident × Function) :=
  b.statements.filterMap Stmt.declaredFunction?

namespace Eval

variable {f : FrameId} {c : Context}

/-- Names that are not there yet can be declared. -/
theorem declareAll_eq_ok {names : List Ident} (hDistinct : (names.map Ident.name).Nodup)
    (hMade : f < c.store.nextFrame)
    (hNew : ∀ name ∈ names, c.store.binding? f name.name = none) :
    ∃ d, declareAll f names c = .ok () d ∧ ∀ n, d.store.binding? f n =
      if n ∈ names.map Ident.name then some .placeholder else c.store.binding? f n := by
  induction names generalizing c with
  | nil => exact ⟨c, rfl, fun n => rfl⟩
  | cons name names ih =>
    obtain ⟨hOther, hDistinct⟩ := List.nodup_cons.mp hDistinct
    obtain ⟨hNone, hNew⟩ := List.forall_mem_cons.mp hNew
    -- the context once the first name is declared; the others are still new in it, being distinct
    let c₁ : Context := { c with store := c.store.write f name.name .placeholder }
    have hDeclare : declare f name c = .ok () c₁ := by
      refine bind_eq_ok.mpr ⟨c, c, rfl, ?_⟩
      rw [hNone]
      rfl
    have hBindings (n : String) : c₁.store.binding? f n =
        if n = name.name then some .placeholder else c.store.binding? f n :=
      binding?_write_self hMade _ _ n
    obtain ⟨d, hRest, hNames⟩ := ih (c := c₁) hDistinct ((nextFrame_write _ _ _ _).symm ▸ hMade)
      fun other hMem => by
        rw [hBindings, if_neg]
        · exact hNew other hMem
        · exact fun hSame => hOther (hSame ▸ List.mem_map_of_mem hMem)
    refine ⟨d, bind_eq_ok.mpr ⟨(), c₁, hDeclare, hRest⟩, fun n => ?_⟩
    rw [hNames, hBindings, List.map_cons]
    by_cases hHead : n = name.name
    · simp [hHead]
    · simp [hHead]

/-- Functions whose names are placeholders get their closures; other statements are passed over. -/
theorem defineFunctions_eq_ok {stmts : List Stmt}
    (hDistinct : ((stmts.filterMap Stmt.declaredName?).map Ident.name).Nodup)
    (hMade : f < c.store.nextFrame)
    (hDeclared : ∀ name ∈ stmts.filterMap Stmt.declaredName?,
      c.store.binding? f name.name = some .placeholder) :
    ∃ d, defineFunctions f stmts c = .ok () d ∧
      (∀ x ∈ stmts.filterMap Stmt.declaredFunction?,
        ∃ cell, d.store.binding? f x.1.name = some (.ofValue (.closure cell x.2 f) true)) ∧
      ∀ n, n ∉ (stmts.filterMap Stmt.declaredName?).map Ident.name →
        d.store.binding? f n = c.store.binding? f n := by
  induction stmts generalizing c with
  | nil => exact ⟨c, rfl, fun x hx => absurd hx List.not_mem_nil, fun n _ => rfl⟩
  | cons s rest ih =>
    have hSublist : (rest.filterMap Stmt.declaredName?).Sublist
        ((s :: rest).filterMap Stmt.declaredName?) := (List.sublist_cons_self s rest).filterMap _
    have hRestDistinct := hDistinct.sublist (hSublist.map Ident.name)
    -- statements that declare no function
    have hPassed (hNone : s.declaredFunction? = none)
        (hEq : defineFunctions f (s :: rest) c = defineFunctions f rest c) :
        ∃ d, defineFunctions f (s :: rest) c = .ok () d ∧
          (∀ x ∈ (s :: rest).filterMap Stmt.declaredFunction?,
            ∃ cell, d.store.binding? f x.1.name = some (.ofValue (.closure cell x.2 f) true)) ∧
          ∀ n, n ∉ ((s :: rest).filterMap Stmt.declaredName?).map Ident.name →
            d.store.binding? f n = c.store.binding? f n := by
      obtain ⟨d, hRest, hBound, hSame⟩ := ih hRestDistinct hMade
        fun name hMem => hDeclared name (hSublist.subset hMem)
      rw [List.filterMap_cons_none hNone, hEq]
      exact ⟨d, hRest, hBound, fun n hn => hSame n fun hMem =>
        hn ((hSublist.map Ident.name).subset hMem)⟩
    cases s with
    | function g =>
      cases hName : g.name? with
      | none =>
        refine hPassed ?_ ?_
        · rw [Stmt.declaredFunction?, hName]
          rfl
        · rw [defineFunctions, hName]
      | some name =>
        have hNames : (Stmt.function g :: rest).filterMap Stmt.declaredName? =
            name :: rest.filterMap Stmt.declaredName? := List.filterMap_cons_some hName
        have hFunctions : (Stmt.function g :: rest).filterMap Stmt.declaredFunction? =
            (name, g) :: rest.filterMap Stmt.declaredFunction? :=
          List.filterMap_cons_some (congrArg (Option.map (·, g)) hName)
        rw [hNames] at hDistinct hDeclared ⊢
        rw [hFunctions]
        obtain ⟨hOther, hDistinct⟩ := List.nodup_cons.mp hDistinct
        obtain ⟨hPlaceholder, hDeclared⟩ := List.forall_mem_cons.mp hDeclared
        let v : Value := .closure c.nextCell g f
        let c₁ : Context := { c with nextCell := c.nextCell + 1 }
        let c₂ : Context := { c₁ with store := c.store.write f name.name (.ofValue v true) }
        have hDefine : defineIn f name v true c₁ = .ok () c₂ := by
          refine bind_eq_ok.mpr ⟨c₁, c₁, rfl, ?_⟩
          rw [show c₁.store.binding? f name.name = some .placeholder from hPlaceholder]
          rfl
        have hBindings (n : String) : c₂.store.binding? f n =
            if n = name.name then some (.ofValue v true) else c.store.binding? f n :=
          binding?_write_self hMade _ _ n
        obtain ⟨d, hRest, hBound, hSame⟩ := ih (c := c₂) hDistinct
          ((nextFrame_write _ _ _ _).symm ▸ hMade) fun other hMem => by
            -- the other names are still placeholders
            rw [hBindings, if_neg]
            · exact hDeclared other hMem
            · exact fun hSame => hOther (hSame ▸ List.mem_map_of_mem hMem)
        refine ⟨d, ?_, List.forall_mem_cons.mpr ⟨⟨c.nextCell, ?_⟩, hBound⟩, fun n hn => ?_⟩
        · unfold defineFunctions
          rw [hName]
          exact bind_eq_ok.mpr ⟨v, c₁, rfl, bind_eq_ok.mpr ⟨(), c₂, hDefine, hRest⟩⟩
        · rw [hSame _ hOther, hBindings, if_pos rfl]
        · rw [List.map_cons, List.mem_cons, not_or] at hn
          rw [hSame n hn.2, hBindings, if_neg hn.1]
    | _ => exact hPassed rfl rfl

/-- The names of a block can be added if they are distinct and not there yet; its functions have
their closures then. -/
theorem hoist_eq_ok {b : Block} (hDistinct : (b.declarations.map Ident.name).Nodup)
    (hMade : f < c.store.nextFrame)
    (hNew : ∀ name ∈ b.declarations, c.store.binding? f name.name = none) :
    ∃ d, hoist f b c = .ok () d ∧
      (∀ x ∈ b.functions,
        ∃ cell, d.store.binding? f x.1.name = some (.ofValue (.closure cell x.2 f) true)) ∧
      ∀ n, n ∉ b.declarations.map Ident.name → d.store.binding? f n = c.store.binding? f n := by
  obtain ⟨d, hDeclare, hNames⟩ := declareAll_eq_ok hDistinct hMade hNew
  have hFills := (filling_declareAll b.declarations).furnishes (f := f) c
  rw [after_ok hDeclare] at hFills
  obtain ⟨e, hDefine, hBound, hSame⟩ := defineFunctions_eq_ok (c := d) hDistinct
    (hFills.nextFrame ▸ hMade) fun name hMem =>
      (hNames name.name).trans (if_pos (List.mem_map_of_mem hMem))
  refine ⟨e, bind_eq_ok.mpr ⟨(), d, hDeclare, hDefine⟩, hBound, fun n hn => ?_⟩
  rw [hSame n hn, hNames, if_neg hn]

/-- Parameters are bound to the arguments. -/
theorem bindParams_eq_ok {params : List Ident} {args : List Value}
    (hLength : params.length = args.length) (hDistinct : (params.map Ident.name).Nodup)
    (hMade : f < c.store.nextFrame) :
    ∃ d, bindParams f params args c = .ok () d ∧
      (∀ x ∈ params.zip args, d.store.binding? f x.1.name = some (.ofValue x.2 false)) ∧
      ∀ n, n ∉ params.map Ident.name → d.store.binding? f n = c.store.binding? f n := by
  induction params generalizing args c with
  | nil =>
    cases args with
    | nil => exact ⟨c, rfl, fun x hx => absurd hx List.not_mem_nil, fun n _ => rfl⟩
    | cons v vs => cases hLength
  | cons p ps ih =>
    cases args with
    | nil => cases hLength
    | cons v vs =>
      obtain ⟨hOther, hDistinct⟩ := List.nodup_cons.mp hDistinct
      -- the context once the first parameter is bound; no later one has its name
      let c₁ : Context := { c with store := c.store.write f p.name (.ofValue v false) }
      have hBindings (n : String) : c₁.store.binding? f n =
          if n = p.name then some (.ofValue v false) else c.store.binding? f n :=
        binding?_write_self hMade _ _ n
      obtain ⟨d, hRest, hBound, hSame⟩ := ih (c := c₁) (Nat.succ.inj hLength) hDistinct
        ((nextFrame_write _ _ _ _).symm ▸ hMade)
      refine ⟨d, bind_eq_ok.mpr ⟨(), c₁, rfl, hRest⟩, ?_, fun n hn => ?_⟩
      · rw [List.zip_cons_cons]
        refine List.forall_mem_cons.mpr ⟨?_, hBound⟩
        rw [hSame _ hOther, hBindings, if_pos rfl]
      · rw [List.map_cons, List.mem_cons, not_or] at hn
        rw [hSame n hn.2, hBindings, if_neg hn.1]

/-- The frame of a call can be filled if its names are distinct. -/
theorem fillCall_eq_ok {g : Function} {args : List Value}
    (hLength : g.params.length = args.length)
    (hDistinct : ((g.params ++ g.body.declarations).map Ident.name).Nodup)
    (hMade : f < c.store.nextFrame) (hEmpty : ∀ n, c.store.binding? f n = none) :
    ∃ d, (bindParams f g.params args >>= fun _ => hoist f g.body) c = .ok () d ∧
      (∀ x ∈ g.params.zip args, d.store.binding? f x.1.name = some (.ofValue x.2 false)) ∧
      (∀ x ∈ g.body.functions,
        ∃ cell, d.store.binding? f x.1.name = some (.ofValue (.closure cell x.2 f) true)) ∧
      ∀ n, n ∉ (g.params ++ g.body.declarations).map Ident.name → d.store.binding? f n = none := by
  rw [List.map_append] at hDistinct ⊢
  obtain ⟨hParams, hDeclared, hDisjoint⟩ := List.nodup_append.mp hDistinct
  -- a parameter and a declaration of the body never share a name, so hoisting leaves the parameters
  -- alone
  have hApart {p name : Ident} (hp : p ∈ g.params) (hName : name ∈ g.body.declarations) :
      p.name ≠ name.name :=
    hDisjoint _ (List.mem_map_of_mem hp) _ (List.mem_map_of_mem hName)
  obtain ⟨d, hBind, hBound, hSame⟩ := bindParams_eq_ok hLength hParams hMade
  have hFills := (@filling_bindParams f g.params args).furnishes c
  rw [after_ok hBind] at hFills
  obtain ⟨e, hHoist, hFunctions, hSame'⟩ := hoist_eq_ok (c := d) hDeclared (hFills.nextFrame ▸ hMade)
    fun name hMem => (hSame _ fun hParam => by
      obtain ⟨p, hp, hSameName⟩ := List.mem_map.mp hParam
      exact hApart hp hMem hSameName).trans (hEmpty _)
  refine ⟨e, bind_eq_ok.mpr ⟨(), d, hBind, hHoist⟩, fun x hx => ?_, hFunctions, fun n hn => ?_⟩
  · have hp := (List.of_mem_zip hx).1
    refine (hSame' _ fun hMem => ?_).trans (hBound x hx)
    obtain ⟨name, hName, hSameName⟩ := List.mem_map.mp hMem
    exact hApart hp hName hSameName.symm
  · rw [List.mem_append, not_or] at hn
    rw [hSame' n hn.2, hSame n hn.1, hEmpty]

end Eval

end AmbScript
