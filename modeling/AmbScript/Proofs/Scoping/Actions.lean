import AmbScript.Proofs.Machine.Settings
import AmbScript.Proofs.Scoping.Filling

/-!
# Frames that are made for scopes

What evaluation does to a store that fits a chart leaves a store that fits a chart, which says more
if a frame was made. A frame is added to the chart once it is complete; what a fault leaves behind
is not in the chart, and cannot be got at.

* `Eval.Charts` — from contexts that fit a chart an action leads to such contexts.
* `Eval.charts_lookup`, `Eval.charts_define`, `Eval.charts_assign` — names that are in place.
* `Eval.charts_openBlock`, `Eval.charts_openLoop`, `Eval.charts_openCall`, `Eval.charts_openRound`,
  `Program.charts_enter` — frames that are made.

All four kinds of scopes are cases of `Eval.charts_newFrame`: a frame is made, filled, and given.
What has to be known of the filling is that it changes no other frame, and which names it adds.
-/

namespace AmbScript

variable {α β : Type} {ch ch' : Chart} {outer fs : List FrameId}

open Store Eval

-- ---------------------------------------------------------------------------
-- Contexts
-- ---------------------------------------------------------------------------

/-- The frame that names are looked up from, once the frames `fs` have been entered. -/
def innermost (outer fs : List FrameId) : FrameId :=
  match fs with
  | f :: _ => f
  | [] => outer.headD 0

/-- The store fits the chart, and these frames are in force. -/
structure Context.Stands (ch : Chart) (outer fs : List FrameId) (c : Context) : Prop where
  fits : ch.Fits c.store
  inner : c.inner = fs
  outer : c.outer = outer

/-- Names are looked up from the frame that was entered last. -/
theorem Context.Stands.current {c : Context} (h : c.Stands ch outer fs) :
    c.current = innermost outer fs := by
  obtain ⟨-, rfl, rfl⟩ := h
  rfl

/-- Where an action ends, in a result or a fault, the store fits a chart that says no less. -/
inductive Charted (ch : Chart) (outer : List FrameId) (P : Chart → List FrameId → α → Prop) :
    EStateM.Result Fault Context α → Prop
  | ok {ch' : Chart} {fs' : List FrameId} {a : α} {d : Context} (hle : ch ≤ ch')
      (hStands : d.Stands ch' outer fs') (h : P ch' fs' a) : Charted ch outer P (.ok a d)
  | error {ch' : Chart} {t : Fault} {d : Context} (hle : ch ≤ ch') (hFits : ch'.Fits d.store)
      (hOuter : d.outer = outer) : Charted ch outer P (.error t d)

/-- From the context `c`, where `x` ends, the store fits a chart that says no less. -/
def Eval.ChartsFrom (c : Context) (ch : Chart) (outer : List FrameId)
    (P : Chart → List FrameId → α → Prop) (x : Eval α) : Prop := Charted ch outer P (x c)

/-- From contexts that fit the chart, with the frames `fs` entered, `x` leads to contexts that fit a
chart, and its results have the property there. -/
def Eval.Charts (ch : Chart) (outer fs : List FrameId) (P : Chart → List FrameId → α → Prop)
    (x : Eval α) : Prop :=
  ∀ c : Context, c.Stands ch outer fs → ChartsFrom c ch outer P x

/-- The frames that have been entered are still the same. -/
abbrev Stay (fs : List FrameId) (P : Chart → α → Prop) : Chart → List FrameId → α → Prop :=
  fun ch fs' a => fs' = fs ∧ P ch a

/-- Nothing is said. -/
def AnyResult (_ : Chart) (_ : α) : Prop := True

namespace Eval

variable {P : Chart → List FrameId → α → Prop} {Q : Chart → List FrameId → β → Prop}

/-- A sequence ends in a fault of its first action, or of its second one. -/
theorem bind_eq_error {x : Eval α} {f : α → Eval β} {c d : Context} {t : Fault}
    (h : (x >>= f) c = .error t d) :
    x c = .error t d ∨ ∃ a e, x c = .ok a e ∧ f a e = .error t d := by
  have h : EStateM.bind x f c = .error t d := h
  unfold EStateM.bind at h
  cases hFirst : x c with
  | ok a e =>
    rw [hFirst] at h
    exact .inr ⟨a, e, rfl, h⟩
  | error t' d' =>
    rw [hFirst] at h
    cases h
    exact .inl rfl

/-- A result for which the property holds already. -/
theorem charts_pure {a : α} (h : P ch fs a) : Charts ch outer fs P (pure a) :=
  fun _ hStands => .ok le_rfl hStands h

/-- A fault, which leaves the store as it was. -/
theorem charts_throw (t : Fault) : Charts ch outer fs P (throw t : Eval α) := by
  intro _ hStands
  exact .error le_rfl hStands.fits hStands.outer

/-- One action after the other. The second one may use what the chart of the first one says. -/
theorem charts_bind {x : Eval α} {f : α → Eval β} (hx : Charts ch outer fs P x)
    (hf : ∀ ch', ch ≤ ch' → ∀ fs' a, P ch' fs' a → Charts ch' outer fs' Q (f a)) :
    Charts ch outer fs Q (x >>= f) := by
  intro c hStands
  have hFirst : Charted ch outer P (x c) := hx c hStands
  show Charted ch outer Q (EStateM.bind x f c)
  unfold EStateM.bind
  revert hFirst
  generalize x c = y
  rintro (⟨hle, hStands', h⟩ | ⟨hle, hFits, hOuter⟩)
  -- the chart may grow in both actions
  · dsimp only
    have hSecond : Charted _ outer Q (f _ _) := hf _ hle _ _ h _ hStands'
    revert hSecond
    generalize f _ _ = y
    rintro (⟨hle', hStands'', h'⟩ | ⟨hle', hFits, hOuter⟩)
    · exact .ok (hle.trans hle') hStands'' h'
    · exact .error (hle.trans hle') hFits hOuter
  · exact .error hle hFits hOuter

/-- The first action does not enter or leave a frame. -/
theorem charts_stay_bind {P : Chart → α → Prop} {x : Eval α} {f : α → Eval β}
    (hx : Charts ch outer fs (Stay fs P) x)
    (hf : ∀ ch', ch ≤ ch' → ∀ a, P ch' a → Charts ch' outer fs Q (f a)) :
    Charts ch outer fs Q (x >>= f) := by
  refine charts_bind hx fun ch' hle fs' a h => ?_
  obtain ⟨rfl, h⟩ := h
  exact hf ch' hle a h

/-- A weaker property of the results. -/
theorem Charts.mono {P' : Chart → List FrameId → α → Prop} {x : Eval α}
    (h : Charts ch outer fs P x)
    (hP : ∀ ch', ch ≤ ch' → ∀ fs' a, P ch' fs' a → P' ch' fs' a) : Charts ch outer fs P' x := by
  intro c hStands
  have hHere : Charted ch outer P (x c) := h c hStands
  show Charted ch outer P' (x c)
  revert hHere
  generalize x c = y
  rintro (⟨hle, hStands', h⟩ | ⟨hle, hFits, hOuter⟩)
  · exact .ok hle hStands' (hP _ hle _ _ h)
  · exact .error hle hFits hOuter

/-- An action after which the store and the frames in force are the same. -/
theorem charts_same {P : Chart → α → Prop} {x : Eval α}
    (hStore : ∀ c, (x.after c).store = c.store) (hInner : ∀ c, (x.after c).inner = c.inner)
    (hOuter : ∀ c, (x.after c).outer = c.outer)
    (h : ∀ c a d, c.Stands ch outer fs → x c = .ok a d → P ch a) :
    Charts ch outer fs (Stay fs P) x := by
  intro c hStands
  have hFits : ch.Fits (x.after c).store := hStore c ▸ hStands.fits
  have hStands' : (x.after c).Stands ch outer fs :=
    ⟨hFits, (hInner c).trans hStands.inner, (hOuter c).trans hStands.outer⟩
  show Charted ch outer (Stay fs P) (x c)
  cases hEq : x c with
  | ok a d =>
    rw [after_ok hEq] at hStands'
    exact .ok le_rfl hStands' ⟨rfl, h c a d hStands hEq⟩
  | error t d =>
    rw [after_error hEq] at hStands'
    exact .error le_rfl hStands'.fits hStands'.outer

/-- An action that looks at its context first. -/
theorem charts_get_bind {f : Context → Eval β}
    (hf : ∀ c, c.Stands ch outer fs → ChartsFrom c ch outer Q (f c)) :
    Charts ch outer fs Q (get >>= f) := hf

/-- A node that is counted first. -/
theorem charts_counted {span : Span} {x : Eval β} (hx : Charts ch outer fs Q x) :
    Charts ch outer fs Q (tick span >>= fun _ => x) := by
  intro c hStands
  have hCounted : c.counted.Stands ch outer fs := ⟨hStands.fits, hStands.inner, hStands.outer⟩
  show Charted ch outer Q (EStateM.bind (tick span) (fun _ => x) c)
  unfold EStateM.bind
  rw [tick_apply]
  split <;> rename_i hTick <;> split at hTick <;> cases hTick
  · exact hx _ hCounted
  · exact .error le_rfl hCounted.fits hCounted.outer

/-- A new cell is none of the store's business. -/
theorem charts_newCell : Charts ch outer fs (Stay fs AnyResult) newCell := by
  refine charts_same ?_ ?_ ?_ ?_
  · intro _
    exact rfl
  · intro _
    exact rfl
  · intro _
    exact rfl
  · intro _ _ _ _ _
    exact trivial

/-- A line is displayed, and its value given back. -/
theorem charts_showLine {v : Value} (h : v.Placed ch) (heading : Option Value) :
    Charts ch outer fs (Stay fs fun ch' w => w.Placed ch') (Primitive.showLine v heading) := by
  refine charts_same (fun _ => rfl) (fun _ => rfl) (fun _ => rfl) fun c w d _ hEq => ?_
  cases hEq
  exact h

/-- A frame is entered. -/
theorem charts_enter (f : FrameId) :
    Charts ch outer fs (fun _ fs' _ => fs' = f :: fs) (enter f) := by
  intro _ hStands
  exact .ok le_rfl ⟨hStands.fits, congrArg (f :: ·) hStands.inner, hStands.outer⟩ rfl

/-- The innermost frame is left. -/
theorem charts_leave (f : FrameId) :
    Charts ch outer (f :: fs) (fun _ fs' _ => fs' = fs) leave := by
  intro _ hStands
  exact .ok le_rfl ⟨hStands.fits, congrArg List.tail hStands.inner, hStands.outer⟩ rfl

/-- A moment is noted, which marks the store. -/
theorem charts_checkpoint : Charts ch outer fs (Stay fs AnyResult) checkpoint := by
  intro _ hStands
  exact .ok le_rfl ⟨hStands.fits.mark, hStands.inner, hStands.outer⟩ ⟨rfl, trivial⟩

/-- A value that is found is in its place, since it was bound in a frame of the chart. -/
theorem charts_lookup {layout : Layout} (hLayout : ch.layout (innermost outer fs) = some layout)
    (name : Ident) : Charts ch outer fs (Stay fs fun ch' v => v.Placed ch') (lookup name) := by
  refine charts_get_bind fun c hStands => ?_
  rw [hStands.current]
  split
  · rename_i g v isConst hResolved
    have hPlaced := (hStands.fits.placed_resolve? hLayout hResolved).1 v rfl
    exact charts_pure ⟨rfl, hPlaced⟩ c hStands
  · exact charts_throw _ c hStands
  · exact charts_throw _ c hStands

/-- A binding of a frame of the chart turns. -/
theorem charts_turn {c : Context} (hStands : c.Stands ch outer fs) {f : FrameId}
    {layout : Layout} (hLayout : ch.layout f = some layout) {name : String} {b b' : Binding}
    (hBinding : c.store.binding? f name = some b) (hTurns : b.Turns b') (hPlaced : b'.Placed ch) :
    ChartsFrom c ch outer (Stay fs AnyResult) (bindName f name b') :=
  .ok le_rfl ⟨hStands.fits.write_turn hLayout hBinding hTurns hPlaced, hStands.inner,
    hStands.outer⟩ ⟨rfl, trivial⟩

/-- A name of the current frame gets its value. -/
theorem charts_define {layout : Layout} (hLayout : ch.layout (innermost outer fs) = some layout)
    (name : Ident) {v : Value} (h : v.Placed ch) (isConst : Bool) :
    Charts ch outer fs (Stay fs AnyResult) (define name v isConst) := by
  refine charts_get_bind fun c hStands => ?_
  rw [hStands.current]
  show ChartsFrom c ch outer _ (get >>= _)
  revert c
  refine charts_get_bind fun c hStands => ?_
  split
  · rename_i hBinding
    exact charts_turn hStands hLayout hBinding (.defined rfl v isConst)
      (Binding.placed_ofValue h isConst)
  · exact charts_throw _ c hStands

/-- A variable gets another value, in whatever frame around it is. -/
theorem charts_assign {layout : Layout} (hLayout : ch.layout (innermost outer fs) = some layout)
    (name : Ident) {v : Value} (h : v.Placed ch) :
    Charts ch outer fs (Stay fs AnyResult) (assign name v) := by
  refine charts_get_bind fun c hStands => ?_
  rw [hStands.current]
  split
  · exact charts_throw _ c hStands
  · rename_i g b hResolved
    split
    · exact charts_throw _ c hStands
    · rename_i hVariable
      split
      · exact charts_throw _ c hStands
      · rename_i old hSlot
        -- a variable's binding with a value is assigned in the frame where its name was resolved
        have hOld : b = .ofValue old false := by
          cases b
          simp_all [Binding.ofValue]
        obtain ⟨-, outside, hg⟩ := hStands.fits.placed_resolve? hLayout hResolved
        have hBinding := binding?_of_resolve? hResolved
        rw [hOld] at hBinding
        exact charts_turn hStands hg hBinding (.assigned old v) (Binding.placed_ofValue h false)

/-- A closure is in its place if its function is, in the frame that it is made in. -/
theorem charts_newClosure {f : Function} {env : FrameId} (h : ch.Places env (.function f)) :
    Charts ch outer fs (Stay fs fun ch' v => v.Placed ch') (newClosure f env) := by
  refine charts_same (fun _ => rfl) (fun _ => rfl) (fun _ => rfl) fun c v d _ hEq => ?_
  cases hEq
  exact .closure _ h

-- ---------------------------------------------------------------------------
-- Frames that are made
-- ---------------------------------------------------------------------------

/-- A new frame is made inside one of the chart, is filled, and is then in the chart itself. -/
theorem charts_newFrame (name : String) {parent : FrameId} (callSite : Option Span)
    (fill : FrameId → Eval Unit) (site : FrameId → Site) (code : Option (List Stmt))
    {outside : Layout} (hParent : ch.layout parent = some outside)
    (hName : ∀ g, name = (site g).construct.frameName)
    (hFill : ∀ g, Furnishes g (fill g))
    (hAdds : ∀ c : Context, c.Stands ch outer fs →
      Adds (c.newFrame name parent callSite) c.store.nextFrame
        (site c.store.nextFrame).construct.names
        (Binding.Placed (ch.add c.store.nextFrame (site c.store.nextFrame :: outside) code))
        (fill c.store.nextFrame))
    (hCode : ∀ g statements, code = some statements → site g = ⟨g, [], .program statements⟩) :
    Charts ch outer fs
      (Stay fs fun ch' g => ch'.layout g = some (site g :: outside) ∧ ch'.code g = code) (do
        let frame ← newFrame name parent callSite
        fill frame
        return frame) := by
  intro c hStands
  let g := c.store.nextFrame
  let c₁ := c.newFrame name parent callSite
  have hNew : ch.layout g = none := hStands.fits.layout_nextFrame
  have hScope : c₁.store.scope? g = some ⟨name, some parent, callSite, fun _ => none⟩ :=
    (scope?_newFrame _ _ _ _ _).trans (if_pos rfl)
  have hFills : c₁.FillsFrame g ((fill g).after c₁) := hFill g c₁
  -- while the frame is being filled the old chart still fits, since it says nothing of the frame
  have hFits {d : Context} (h : c₁.FillsFrame g d) : ch.Fits d.store := by
    refine hStands.fits.congr (h.regular (hStands.fits.regular.newFrame _ _ _)
      hStands.fits.regular.watermark) (fun f hf => ?_) fun u hu => ?_
    · have hOther : f ≠ g := Nat.ne_of_lt hf
      exact (h.others f hOther).trans ((scope?_newFrame _ _ _ _ _).trans (if_neg hOther))
    · rw [h.trail hStands.fits.regular.watermark] at hu
      exact hu
  show Charted ch outer _ (EStateM.bind (fill g) (fun _ => pure g) c₁)
  unfold EStateM.bind
  cases hEq : fill g c₁ with
  | error t d =>
    rw [after_error hEq] at hFills
    exact .error le_rfl (hFits hFills) (hFills.outer.trans hStands.outer)
  | ok u d =>
    rw [after_ok hEq] at hFills
    have hMade : g < c₁.store.nextFrame := by
      show c.store.nextFrame < (c.store.newFrame name (some parent) callSite).nextFrame
      rw [nextFrame_newFrame]
      exact Nat.lt_succ_self _
    obtain ⟨-, hNames, hBindings⟩ := hAdds c hStands u d hMade hEq
    -- so that the names after the filling are just those that were added
    have hEmpty (n : String) : c₁.store.binding? g n = none := by
      rw [binding?_eq, hScope]
      rfl
    obtain ⟨sc, hsc, hScName, hScParent⟩ := hFills.frame _ hScope
    have hShaped : ch.Shaped d.store g (site g :: outside) := by
      refine .mk hsc (hScName.trans (hName g)) (fun n => ?_)
        (.inr ⟨parent, hScParent, hStands.fits.lt_nextFrame hParent, hParent⟩)
      have hIsSome := hNames n
      rw [hEmpty, binding?_eq, hsc] at hIsSome
      exact hIsSome.trans ⟨fun h => h.resolve_left Bool.false_ne_true, .inr⟩
    refine .ok (Chart.le_add hNew (site g :: outside) code)
      ⟨(hFits hFills).add hNew hShaped (fun n b hb => ?_) (hCode g), hFills.inner.trans hStands.inner,
        hFills.outer.trans hStands.outer⟩
      ⟨rfl, Chart.layout_add_self _ _ _ _, Chart.code_add_self _ _ _ _⟩
    rcases hBindings n b hb with hOld | hPlaced
    · rw [hEmpty] at hOld
      cases hOld
    · exact hPlaced

theorem charts_childFrame (name : String) (fill : FrameId → Eval Unit) (site : FrameId → Site)
    (code : Option (List Stmt)) {outside : Layout}
    (hCurrent : ch.layout (innermost outer fs) = some outside)
    (hName : ∀ g, name = (site g).construct.frameName)
    (hFill : ∀ g, Furnishes g (fill g))
    (hAdds : ∀ c : Context, c.Stands ch outer fs →
      Adds (c.newFrame name (innermost outer fs) none) c.store.nextFrame
        (site c.store.nextFrame).construct.names
        (Binding.Placed (ch.add c.store.nextFrame (site c.store.nextFrame :: outside) code))
        (fill c.store.nextFrame))
    (hCode : ∀ g statements, code = some statements → site g = ⟨g, [], .program statements⟩) :
    Charts ch outer fs
      (Stay fs fun ch' g => ch'.layout g = some (site g :: outside) ∧ ch'.code g = code) (do
        let frame ← childFrame name
        fill frame
        return frame) := by
  intro c hStands
  have hHere := charts_newFrame name none fill site code hCurrent hName hFill hAdds hCode c hStands
  rw [← hStands.current] at hHere
  exact hHere

/-- A function that is declared in a scope gets its closure when the frame of the scope is made. -/
theorem placed_declared {f g : FrameId} {path : List Nat} {layout : Layout} {n : Node}
    {constructs : List Construct} {statements : List Stmt} (hAt : ch.at? g path = some (layout, n))
    (hParts : ∀ s ∈ statements, (constructs, .stmt s) ∈ n.parts)
    (hLayout : ch.layout f = some (constructs.map (⟨g, path, ·⟩) ++ layout)) (h : Function)
    (hDeclared : .function h ∈ statements) (cell : CellId) :
    Binding.Placed ch (.ofValue (.closure cell h f) true) := by
  have hStmt : ch.Places f (.stmt (.function h)) := Chart.places_part _ hAt (hParts _ hDeclared) hLayout
  have hFunction : ch.Places f (.function h) := hStmt.part _ (List.mem_singleton_self _)
  exact Binding.placed_ofValue (.closure cell hFunction) true

/-- The statements of a block are parts of it, inside its scope. -/
theorem mem_parts_block (b : Block) :
    ∀ s ∈ b.statements, ([Construct.block b], Node.stmt s) ∈ (Node.block b).parts :=
  fun _ hs => List.mem_map_of_mem hs

/-- The statements of a function are parts of it, inside the scope of a call. -/
theorem mem_parts_function (f : Function) :
    ∀ s ∈ f.body.statements, ([Construct.call f], Node.stmt s) ∈ (Node.function f).parts :=
  fun _ hs => List.mem_map_of_mem hs

/-- The statements of a program are parts of it, inside its scope. -/
theorem mem_parts_program (statements : List Stmt) : ∀ s ∈ statements,
    ([Construct.program statements], Node.stmt s) ∈ (Node.program statements).parts :=
  fun _ hs => List.mem_map_of_mem hs

/-- The statements of a block are in their place in its frame. -/
theorem charts_openBlock {b : Block} (h : ch.Places (innermost outer fs) (.block b)) :
    Charts ch outer fs
      (Stay fs fun ch' f => (∃ layout, ch'.layout f = some layout) ∧ ch'.code f = none ∧
        ∀ s ∈ b.statements, ch'.Places f (.stmt s))
      (openBlock b) := by
  obtain ⟨layout, g, path, hCurrent, hAt⟩ := h
  have hMade : Charts ch outer fs
      (Stay fs fun ch' f => ch'.layout f = some (⟨g, path, .block b⟩ :: layout) ∧
        ch'.code f = none) (openBlock b) := by
    refine charts_childFrame _ (hoist · b) (fun _ => ⟨g, path, .block b⟩) none hCurrent
      (fun _ => rfl) (fun _ => (filling_hoist b).furnishes) (fun c hStands => ?_)
      (fun _ _ hNone => by cases hNone)
    refine adds_hoist Binding.placed_placeholder (placed_declared ?_ (mem_parts_block b)
      (Chart.layout_add_self _ _ _ _))
    exact Chart.at?_mono (Chart.le_add hStands.fits.layout_nextFrame _ _) hAt
  refine hMade.mono fun ch' hle fs' f h => ⟨h.1, ⟨_, h.2.1⟩, h.2.2, fun s hs => ?_⟩
  exact Chart.places_part _ (Chart.at?_mono hle hAt) (mem_parts_block b s hs) h.2.1

/-- The frame of the variables of a loop. -/
theorem charts_openLoop {init : Option LoopInit} {layout : Layout} (g : FrameId)
    (path : List Nat) (hCurrent : ch.layout (innermost outer fs) = some layout) :
    Charts ch outer fs
      (Stay fs fun ch' f => ch'.layout f = some (⟨g, path, .loop init⟩ :: layout))
      (openLoop init) := by
  have hMade := charts_childFrame "forLoopEnvironment"
    (declareAll · (Construct.loopVariables init)) (fun _ => ⟨g, path, .loop init⟩) none hCurrent
    (fun _ => rfl)
    (fun _ => (filling_declareAll _).furnishes)
    (fun _ _ => adds_declareAll Binding.placed_placeholder _) (fun _ _ hNone => by cases hNone)
  exact hMade.mono fun ch' hle fs' f h => ⟨h.1, h.2.1⟩

/-- The frame of a round. -/
theorem charts_openRound {init : Option LoopInit} {layout : Layout} (g : FrameId)
    (path : List Nat) (hCurrent : ch.layout (innermost outer fs) = some layout) :
    Charts ch outer fs
      (Stay fs fun ch' f => ch'.layout f = some (⟨g, path, .round init⟩ :: layout))
      (openRound init (innermost outer fs)) := by
  have hMade := charts_childFrame "forBlockEnvironment"
    (copyVariables (innermost outer fs) · (Construct.loopVariables init))
    (fun _ => ⟨g, path, .round init⟩) none hCurrent (fun _ => rfl)
    (fun _ => (filling_copyVariables _ _).furnishes) (fun c hStands => ?_)
    (fun _ _ hNone => by cases hNone)
  · exact hMade.mono fun ch' hle fs' f h => ⟨h.1, h.2.1⟩
  -- the copies come from the loop's frame, which making the round's leaves alone
  · have hOlder : innermost outer fs < c.store.nextFrame := hStands.fits.lt_nextFrame hCurrent
    refine adds_copyVariables (Nat.ne_of_lt hOlder) (Binding.placed_ofValue .undefined true)
      fun name b v hb hv => Binding.placed_ofValue ?_ true
    have hScope : (c.newFrame "forBlockEnvironment" (innermost outer fs) none).store.scope?
        (innermost outer fs) = c.store.scope? (innermost outer fs) :=
      (scope?_newFrame _ _ _ _ _).trans (if_neg (Nat.ne_of_lt hOlder))
    have hOld : c.store.binding? (innermost outer fs) name = some b := by
      rw [binding?_eq, hScope, ← binding?_eq] at hb
      exact hb
    exact (hStands.fits.bound _ _ _ _ hCurrent hOld v hv).mono
      (Chart.le_add hStands.fits.layout_nextFrame _ _)

/-- The statements of a function are in their place in the frame of a call. -/
theorem charts_openCall {f : Function} {env : FrameId} (h : ch.Places env (.function f))
    {args : List Value} (hArgs : ∀ v ∈ args, v.Placed ch) (span : Span) :
    Charts ch outer fs
      (Stay fs fun ch' g => (∃ layout, ch'.layout g = some layout) ∧ ch'.code g = none ∧
        ∀ s ∈ f.body.statements, ch'.Places g (.stmt s))
      (openCall f env args span) := by
  obtain ⟨layout, g, path, hEnv, hAt⟩ := h
  unfold openCall
  split
  · exact charts_throw _
  · rename_i hCount
    have hLength : f.params.length = args.length := Decidable.not_not.mp hCount
    -- the call's frame is made inside the closure's, and holds the parameters and the hoisted
    -- declarations of the body
    have hMade := @charts_newFrame _ outer fs f.displayName _ (some span)
      (fun frame => do bindParams frame f.params args; hoist frame f.body)
      (fun _ => ⟨g, path, .call f⟩) none _ hEnv (fun _ => rfl)
      (fun _ => ((filling_bindParams _ _).bind fun _ => filling_hoist _).furnishes)
      (fun c hStands => ?_) (fun _ _ hNone => by cases hNone)
    · have hSame : Charts ch outer fs (Stay fs fun ch' g =>
          (∃ layout, ch'.layout g = some layout) ∧ ch'.code g = none ∧
            ∀ s ∈ f.body.statements, ch'.Places g (.stmt s)) _ :=
        hMade.mono fun ch' hle fs' frame h => ⟨h.1, ⟨_, h.2.1⟩, h.2.2, fun s hs =>
          Chart.places_part _ (Chart.at?_mono hle hAt) (mem_parts_function f s hs) h.2.1⟩
      simpa only [bind_assoc] using hSame
    -- the arguments come from outside, so they are placed in the chart before the new frame
    · have hle := Chart.le_add hStands.fits.layout_nextFrame (⟨g, path, .call f⟩ :: layout) none
      refine adds_bind (adds_bindParams hLength fun v hv =>
        Binding.placed_ofValue ((hArgs v hv).mono hle) false) fun _ _ _ => ?_
      exact adds_hoist Binding.placed_placeholder (placed_declared (Chart.at?_mono hle hAt)
        (mem_parts_function f) (Chart.layout_add_self _ _ _ _))

end Eval

/-- A program whose frame is in the chart is at the root of its places. -/
theorem Chart.at?_program {g : FrameId} {site : Site} {layout : Layout} {statements : List Stmt}
    (hLayout : ch.layout g = some (site :: layout)) (hCode : ch.code g = some statements) :
    ch.at? g [] = some (layout, .program statements) :=
  Option.bind_eq_some_iff.mpr ⟨_, hLayout, Option.bind_eq_some_iff.mpr ⟨_, hCode, rfl⟩⟩

/-- The statements of a program are in their place in the frame that is entered for it, and the
chart tells that it is theirs. -/
theorem Program.charts_enter (p : Program) {layout : Layout}
    (hCurrent : ch.layout (innermost outer fs) = some layout) {c : Context}
    (hStands : c.Stands ch outer fs) :
    (∀ d, p.enter c = .ok () d → ∃ ch' g, ch ≤ ch' ∧ d.Stands ch' (g :: outer) [] ∧
      ch'.code g = some p.body.statements ∧ (∃ layout, ch'.layout g = some layout) ∧
        ∀ s ∈ p.body.statements, ch'.Places g (.stmt s)) ∧
    ∀ t d, p.enter c = .error t d → ∃ ch', ch ≤ ch' ∧ ch'.Fits d.store ∧ d.outer = outer := by
  -- the program's frame is the one whose code the chart records
  have hMade := charts_childFrame "programEnvironment" (hoist · p.body)
    (fun g => ⟨g, [], .program p.body.statements⟩) (some p.body.statements) hCurrent
    (fun _ => rfl) (fun _ => (filling_hoist p.body).furnishes)
    (fun c hStands => adds_hoist Binding.placed_placeholder (placed_declared
      (Chart.at?_program (Chart.layout_add_self _ _ _ _) (Chart.code_add_self _ _ _ _))
      (mem_parts_program p.body.statements) (Chart.layout_add_self _ _ _ _)))
    (fun g statements hStatements => by cases hStatements; rfl)
  have hEnter : p.enter = (do
      let frame ← childFrame "programEnvironment"
      hoist frame p.body
      return frame) >>= fun frame => modify (·.enterOuter frame) := by
    simp only [bind_assoc, pure_bind]
    rfl
  have hFrame : Charted ch outer _ _ := hMade c hStands
  rw [hEnter]
  -- entering fails only while the frame is being made
  refine ⟨fun d hEq => ?_, fun t d hEq => ?_⟩
  · obtain ⟨g, e, hOpened, hEntered⟩ := bind_eq_ok.mp hEq
    rw [hOpened] at hFrame
    cases hEntered
    cases hFrame with
    | @ok ch' fs' _ _ hle hStands' h =>
      obtain ⟨-, hLayout, hCode⟩ := h
      refine ⟨ch', g, hle, ⟨hStands'.fits, rfl, congrArg (g :: ·) hStands'.outer⟩, hCode,
        ⟨_, hLayout⟩, fun s hs => ?_⟩
      exact Chart.places_part _ (Chart.at?_program hLayout hCode)
        (mem_parts_program p.body.statements s hs) hLayout
  · rcases bind_eq_error hEq with hFault | ⟨g, e, -, hEntered⟩
    · rw [hFault] at hFrame
      cases hFrame with
      | @error ch' _ _ hle hFits hOuter => exact ⟨ch', hle, hFits, hOuter⟩
    · cases hEntered

end AmbScript
