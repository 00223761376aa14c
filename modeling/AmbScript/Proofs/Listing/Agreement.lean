import AmbScript.Proofs.Listing.Renaming
import AmbScript.Proofs.Machine.Effect
import Mathlib.Data.Option.Basic

/-!
# Contexts that agree

Two contexts agree up to a renaming if the frames that correspond have the same names bound to
values that are alike. What else there is in the two stores does not matter, nor do the trails. No
action can tell such contexts apart.

* `Agree` — the relation; `Agree.ofStore` says that only bindings, cells and frames in force count.
* `Agree.restore` — a moment that is gone back to agrees with what it agreed with.
* `Eval.Matches` — two actions do the same in contexts that agree.
* `Eval.matches_lookup`, `Eval.matches_openCall` and so on — every action matches itself.

A renaming is not fixed once and for all: new frames and cells correspond from the moment that they
are made on. So every statement is about all renamings that go beyond the one at hand, and an action
may leave contexts that agree up to a larger one.
-/

namespace AmbScript

variable {α β γ δ : Type} {w w' : Renaming}

-- ---------------------------------------------------------------------------
-- Bindings and scopes
-- ---------------------------------------------------------------------------

/-- The same binding, up to names of frames and cells in its value. -/
inductive Binding.Alike (w : Renaming) : Binding → Binding → Prop
  | placeholder (isConst : Bool) :
      Binding.Alike w ⟨.placeholder, isConst⟩ ⟨.placeholder, isConst⟩
  | value {v v' : Value} (h : v.Alike w v') (isConst : Bool) :
      Binding.Alike w ⟨.value v, isConst⟩ ⟨.value v', isConst⟩

/-- Bindings that are alike stay so when more frames and cells correspond. -/
theorem Binding.Alike.mono {b b' : Binding} (h : b.Alike w b') (hle : w ≤ w') : b.Alike w' b' := by
  cases h with
  | placeholder isConst => exact .placeholder isConst
  | value h isConst => exact .value (h.mono hle) isConst

/-- The scopes of the frames `f` and `g`: the frames around them correspond and are older, and the
same names are bound. -/
structure Scope.Alike (w : Renaming) (f g : FrameId) (s s' : Scope) : Prop where
  parent : Option.Rel (fun p q => w.frames.Pairs p q ∧ p < f ∧ q < g) s.parent s'.parent
  binding (name : String) : Option.Rel (Binding.Alike w) (s.binding? name) (s'.binding? name)

/-- A weaker relation between what two options hold. -/
theorem optionRel_imp {R S : α → β → Prop} (h : ∀ a b, R a b → S a b) {x : Option α}
    {y : Option β} (hRel : Option.Rel R x y) : Option.Rel S x y := by
  cases hRel with
  | some hRel => exact .some (h _ _ hRel)
  | none => exact .none

/-- Scopes that are alike stay so. -/
theorem Scope.Alike.mono {f g : FrameId} {s s' : Scope} (h : s.Alike w f g s') (hle : w ≤ w') :
    s.Alike w' f g s' where
  parent := optionRel_imp (fun _ _ hPair => ⟨Renaming.frames_of_le hle hPair.1, hPair.2⟩) h.parent
  binding name := optionRel_imp (fun _ _ hAlike => hAlike.mono hle) (h.binding name)

/-- A name is bound in both scopes. -/
theorem Scope.Alike.set {f g : FrameId} {s s' : Scope} (h : s.Alike w f g s') (name : String)
    {b b' : Binding} (hb : b.Alike w b') :
    (s.set name (some b)).Alike w f g (s'.set name (some b')) where
  parent := h.parent
  binding n := by
    unfold Scope.set
    dsimp only
    split
    · exact .some hb
    · exact h.binding n

-- ---------------------------------------------------------------------------
-- Agreement
-- ---------------------------------------------------------------------------

/-- The same context, up to the names of frames and cells, as far as they correspond. -/
structure Agree (w : Renaming) (c d : Context) : Prop where
  scopes {f g : FrameId} (h : w.frames.Pairs f g) :
    ∃ s s', c.store.scope? f = some s ∧ d.store.scope? g = some s' ∧ s.Alike w f g s'
  cells {i j : CellId} (h : w.cells.Pairs i j) : i < c.nextCell ∧ j < d.nextCell
  inner : List.Forall₂ w.frames.Pairs c.inner d.inner
  outer : List.Forall₂ w.frames.Pairs c.outer d.outer
  rooted : c.outer ≠ []
  /-- What may be put back is nothing else either. -/
  logged {u : Undo} (h : u ∈ c.store.trail.toList) {b : Binding} (hb : u.previous = some b) :
    ∃ b', b.Alike w b'

namespace Agree

variable {c d : Context}

/-- Only frames that there are correspond. -/
theorem lt_nextFrame (h : Agree w c d) {f g : FrameId} (hPair : w.frames.Pairs f g) :
    f < c.store.nextFrame ∧ g < d.store.nextFrame := by
  obtain ⟨s, s', hs, hs', -⟩ := h.scopes hPair
  rw [← Store.scope?_isSome_iff, ← Store.scope?_isSome_iff, hs, hs']
  exact ⟨rfl, rfl⟩

/-- What matters of a context are the scopes of its frames, its cells and the frames in force. -/
theorem ofStore (h : Agree w c d) {c' d' : Context}
    (hScopes : ∀ f, f < c.store.nextFrame → c'.store.scope? f = c.store.scope? f)
    (hScopes' : ∀ g, g < d.store.nextFrame → d'.store.scope? g = d.store.scope? g)
    (hCells : c.nextCell ≤ c'.nextCell) (hCells' : d.nextCell ≤ d'.nextCell)
    (hInner : c'.inner = c.inner) (hInner' : d'.inner = d.inner)
    (hOuter : c'.outer = c.outer) (hOuter' : d'.outer = d.outer)
    (hTrail : c'.store.trail = c.store.trail) : Agree w c' d' where
  scopes hPair := by
    obtain ⟨hLt, hLt'⟩ := h.lt_nextFrame hPair
    rw [hScopes _ hLt, hScopes' _ hLt']
    exact h.scopes hPair
  cells hPair := by
    obtain ⟨hLt, hLt'⟩ := h.cells hPair
    exact ⟨Nat.lt_of_lt_of_le hLt hCells, Nat.lt_of_lt_of_le hLt' hCells'⟩
  inner := by
    rw [hInner, hInner']
    exact h.inner
  outer := by
    rw [hOuter, hOuter']
    exact h.outer
  rooted := by
    rw [hOuter]
    exact h.rooted
  logged hu := h.logged (hTrail ▸ hu)

/-- A change of the left context that does not touch what matters. -/
theorem left (h : Agree w c d) {c' : Context}
    (hScopes : ∀ f, f < c.store.nextFrame → c'.store.scope? f = c.store.scope? f)
    (hCells : c.nextCell ≤ c'.nextCell) (hInner : c'.inner = c.inner)
    (hOuter : c'.outer = c.outer) (hTrail : c'.store.trail = c.store.trail) : Agree w c' d :=
  h.ofStore hScopes (fun _ _ => rfl) hCells (Nat.le_refl _) hInner rfl hOuter rfl hTrail

/-- The counted steps do not matter. -/
theorem counted (h : Agree w c d) : Agree w c.counted d :=
  h.left (fun _ _ => rfl) (Nat.le_refl _) rfl rfl rfl

/-- Noted moments do not matter. -/
theorem checkpoint (h : Agree w c d) : Agree w c.checkpoint d :=
  h.left (fun _ _ => rfl) (Nat.le_refl _) rfl rfl rfl

/-- Frames that correspond are entered. -/
theorem enter (h : Agree w c d) {f g : FrameId} (hPair : w.frames.Pairs f g) :
    Agree w (c.enter f) (d.enter g) where
  scopes := h.scopes
  cells := h.cells
  inner := .cons hPair h.inner
  outer := h.outer
  rooted := h.rooted
  logged := h.logged

/-- The innermost frames are left. -/
theorem leave (h : Agree w c d) : Agree w c.leave d.leave where
  scopes := h.scopes
  cells := h.cells
  inner := by
    have hInner := h.inner
    show List.Forall₂ _ c.inner.tail d.inner.tail
    revert hInner
    generalize c.inner = fs
    generalize d.inner = gs
    rintro (_ | ⟨_, hTail⟩)
    · exact .nil
    · exact hTail
  outer := h.outer
  rooted := h.rooted
  logged := h.logged

/-- The frames that names are looked up in correspond. -/
theorem current (h : Agree w c d) : w.frames.Pairs c.current d.current := by
  have hInner := h.inner
  have hOuter := h.outer
  have hRooted := h.rooted
  unfold Context.current
  revert hInner hOuter hRooted
  generalize c.inner = fs
  generalize d.inner = gs
  generalize c.outer = fs'
  generalize d.outer = gs'
  rintro (_ | ⟨hPair, _⟩) (_ | ⟨hPair', _⟩) hRooted
  · exact absurd rfl hRooted
  · exact hPair'
  · exact hPair
  · exact hPair

/-- A name has bindings that are alike in frames that correspond, or none in both. -/
theorem binding? (h : Agree w c d) {f g : FrameId} (hPair : w.frames.Pairs f g) (name : String) :
    Option.Rel (Binding.Alike w) (c.store.binding? f name) (d.store.binding? g name) := by
  obtain ⟨s, s', hs, hs', hAlike⟩ := h.scopes hPair
  rw [Store.binding?_eq, Store.binding?_eq, hs, hs']
  exact hAlike.binding name

/-- A name is found in frames that correspond. The numbers of the frames bound the search, and
frames that correspond have different numbers, so the bounds are kept apart. -/
theorem resolveLoop (h : Agree w c d) (name : String) {m n : Nat} {f g : FrameId}
    (hPair : w.frames.Pairs f g) (hm : f < m) (hn : g < n) :
    Option.Rel (fun x y => w.frames.Pairs x.1 y.1 ∧ x.2.Alike w y.2)
      (c.store.resolveLoop name m f) (d.store.resolveLoop name n g) := by
  induction m generalizing n f g with
  | zero => exact absurd hm (Nat.not_lt_zero _)
  | succ m ih =>
    cases n with
    | zero => exact absurd hn (Nat.not_lt_zero _)
    | succ n =>
      -- the two frames bind the name both or neither, and have frames around them both or neither,
      -- so that all other cases are ruled out
      obtain ⟨s, s', hs, hs', hAlike⟩ := h.scopes hPair
      unfold Store.scope? at hs hs'
      obtain ⟨F, hF, rfl⟩ := Option.map_eq_some_iff.mp hs
      obtain ⟨G, hG, rfl⟩ := Option.map_eq_some_iff.mp hs'
      have hBinding : Option.Rel (Binding.Alike w) (F.binding? name) (G.binding? name) :=
        hAlike.binding name
      have hParent := hAlike.parent
      simp only [Store.resolveLoop, hF, hG]
      cases hb : F.binding? name with
      | some b =>
        cases hb' : G.binding? name with
        | some b' =>
          rw [hb, hb'] at hBinding
          cases hBinding with
          | some hBinding => exact .some ⟨hPair, hBinding⟩
        | none =>
          rw [hb, hb'] at hBinding
          cases hBinding
      | none =>
        cases hb' : G.binding? name with
        | some b' =>
          rw [hb, hb'] at hBinding
          cases hBinding
        | none =>
          simp only [Frame.scope] at hParent
          cases hp : F.parent with
          | none =>
            rw [hp] at hParent
            cases hq : G.parent with
            | none => exact .none
            | some q =>
              rw [hq] at hParent
              cases hParent
          | some p =>
            rw [hp] at hParent
            cases hq : G.parent with
            | none =>
              rw [hq] at hParent
              cases hParent
            | some q =>
              rw [hq] at hParent
              cases hParent with
              | some hOuter =>
                obtain ⟨hPair', hp', hq'⟩ := hOuter
                exact ih hPair' (Nat.lt_of_lt_of_le hp' (Nat.le_of_lt_succ hm))
                  (Nat.lt_of_lt_of_le hq' (Nat.le_of_lt_succ hn))

/-- A name is found in frames that correspond, or in neither context. -/
theorem resolve? (h : Agree w c d) (name : String) {f g : FrameId}
    (hPair : w.frames.Pairs f g) :
    Option.Rel (fun x y => w.frames.Pairs x.1 y.1 ∧ x.2.Alike w y.2)
      (c.store.resolve? f name) (d.store.resolve? g name) :=
  h.resolveLoop name hPair (Nat.lt_succ_self _) (Nat.lt_succ_self _)

/-- A name is bound anew in two frames that correspond. No other two frames do so with only one of
them. -/
theorem write (h : Agree w c d) {f g : FrameId} (hPair : w.frames.Pairs f g) (name : String)
    {b b' : Binding} (hb : b.Alike w b') :
    Agree w { c with store := c.store.write f name b } { d with store := d.store.write g name b' }
    where
  scopes {f' g'} hPair' := by
    obtain ⟨s, s', hs, hs', hAlike⟩ := h.scopes hPair'
    -- a pairing is one to one, so the write hits the same frame on both sides
    have hSame : f' = f ↔ g' = g := Pairing.eq_iff hPair' hPair
    dsimp only
    rw [Store.scope?_write, Store.scope?_write, hs, hs']
    by_cases hf : f' = f
    · rw [if_pos hf, if_pos (hSame.mp hf)]
      exact ⟨_, _, rfl, rfl, hAlike.set name hb⟩
    · rw [if_neg hf, if_neg (fun hg => hf (hSame.mpr hg))]
      exact ⟨_, _, rfl, rfl, hAlike⟩
  cells := h.cells
  inner := h.inner
  outer := h.outer
  rooted := h.rooted
  logged {u} hu b₀ hb₀ := by
    rcases Store.mem_trail_write hu with hOld | rfl
    · exact h.logged hOld hb₀
    · have hBinding := h.binding? hPair name
      have hPrevious : c.store.binding? f name = some b₀ := hb₀
      rw [hPrevious] at hBinding
      revert hBinding
      generalize d.store.binding? g name = b₁
      rintro (hAlike | _)
      exact ⟨_, hAlike⟩

/-- Frames made on both sides correspond. -/
theorem newFrame (h : Agree w c d) (name name' : String) {p q : FrameId}
    (hPair : w.frames.Pairs p q) (callSite : Option Span) :
    ∃ w', w ≤ w' ∧ w'.frames.Pairs c.store.nextFrame d.store.nextFrame ∧
      Agree w' (c.newFrame name p callSite) (d.newFrame name' q callSite) := by
  -- the frames about to be made are paired with none yet
  have hLeft : ∀ j, ¬ w.frames.Pairs c.store.nextFrame j := fun j hNew =>
    Nat.lt_irrefl _ (h.lt_nextFrame hNew).1
  have hRight : ∀ i, ¬ w.frames.Pairs i d.store.nextFrame := fun i hNew =>
    Nat.lt_irrefl _ (h.lt_nextFrame hNew).2
  let w' : Renaming := ⟨w.frames.insert _ _ hLeft hRight, w.cells⟩
  have hle : w ≤ w' := ⟨fun _ _ hOld => .inl hOld, fun _ _ hOld => hOld⟩
  have hFrames : ∀ f g, w.frames.Pairs f g → w'.frames.Pairs f g := hle.1
  obtain ⟨hp, hq⟩ := h.lt_nextFrame hPair
  refine ⟨w', hle, .inr ⟨rfl, rfl⟩, ?_, h.cells, h.inner.imp hFrames, h.outer.imp hFrames, h.rooted,
    fun hu _ hb => (h.logged hu hb).imp fun _ hAlike => hAlike.mono hle⟩
  intro f g hNew
  show ∃ s s', (c.store.newFrame _ _ _).scope? f = some s ∧
    (d.store.newFrame _ _ _).scope? g = some s' ∧ _
  rw [Store.scope?_newFrame, Store.scope?_newFrame]
  rcases hNew with hOld | ⟨rfl, rfl⟩
  · obtain ⟨hf, hg⟩ := h.lt_nextFrame hOld
    rw [if_neg (Nat.ne_of_lt hf), if_neg (Nat.ne_of_lt hg)]
    obtain ⟨s, s', hs, hs', hAlike⟩ := h.scopes hOld
    exact ⟨s, s', hs, hs', hAlike.mono hle⟩
  · rw [if_pos rfl, if_pos rfl]
    exact ⟨_, _, rfl, rfl, .some ⟨.inl hPair, hp, hq⟩, fun _ => .none⟩

/-- Cells made on both sides correspond. -/
theorem newCell (h : Agree w c d) :
    ∃ w', w ≤ w' ∧ w'.cells.Pairs c.nextCell d.nextCell ∧
      Agree w' { c with nextCell := c.nextCell + 1 } { d with nextCell := d.nextCell + 1 } := by
  have hLeft : ∀ j, ¬ w.cells.Pairs c.nextCell j := fun j hNew => Nat.lt_irrefl _ (h.cells hNew).1
  have hRight : ∀ i, ¬ w.cells.Pairs i d.nextCell := fun i hNew => Nat.lt_irrefl _ (h.cells hNew).2
  let w' : Renaming := ⟨w.frames, w.cells.insert _ _ hLeft hRight⟩
  have hle : w ≤ w' := ⟨fun _ _ hOld => hOld, fun _ _ hOld => .inl hOld⟩
  refine ⟨w', hle, .inr ⟨rfl, rfl⟩, fun hPair => ?_, ?_, h.inner, h.outer, h.rooted,
    fun hu _ hb => (h.logged hu hb).imp fun _ hAlike => hAlike.mono hle⟩
  · obtain ⟨s, s', hs, hs', hAlike⟩ := h.scopes hPair
    exact ⟨s, s', hs, hs', hAlike.mono hle⟩
  · rintro i j (hOld | ⟨rfl, rfl⟩)
    · obtain ⟨hi, hj⟩ := h.cells hOld
      exact ⟨Nat.lt_succ_of_lt hi, Nat.lt_succ_of_lt hj⟩
    · exact ⟨Nat.lt_succ_self _, Nat.lt_succ_self _⟩

end Agree

-- ---------------------------------------------------------------------------
-- Going back
-- ---------------------------------------------------------------------------

/-- `d` is a later context of the same run, in which the frames in force are the same. Driver steps
may have begun in between. -/
structure Context.Precedes (c d : Context) : Prop where
  store : c.store.Descends d.store
  cells : c.nextCell ≤ d.nextCell
  rest : d = { c with
    store := d.store, nextCell := d.nextCell, output := d.output, steps := d.steps,
    expired := d.expired }

namespace Context

variable {c d e : Context}

/-- What follows in a driver step is later. -/
theorem Follows.precedes (h : c.Follows d) : c.Precedes d where
  store := h.store
  cells := h.cells
  rest := by
    have hRest := h.rest
    have hInner := h.inner
    rw [hRest] at hInner ⊢
    simp only at hInner
    rw [hInner]

namespace Precedes

/-- A context is as late as itself. -/
@[refl] theorem refl (c : Context) : Precedes c c := ⟨.refl _, Nat.le_refl _, rfl⟩

/-- What is later than a later context is later. -/
theorem trans (h₁ : Precedes c d) (h₂ : Precedes d e) : Precedes c e where
  store := h₁.store.trans h₂.store
  cells := Nat.le_trans h₁.cells h₂.cells
  rest := by
    have hRest := h₂.rest
    rw [h₁.rest] at hRest
    exact hRest

/-- The frames entered in the run are the same. -/
theorem inner_eq (h : Precedes c d) : d.inner = c.inner := by rw [h.rest]

theorem outer_eq (h : Precedes c d) : d.outer = c.outer := by rw [h.rest]

theorem errors_eq (h : Precedes c d) : d.errors = c.errors := by rw [h.rest]

theorem source_eq (h : Precedes c d) : d.source = c.source := by rw [h.rest]

theorem limits_eq (h : Precedes c d) : d.limits = c.limits := by rw [h.rest]

theorem interrupted_eq (h : Precedes c d) : d.interrupted = c.interrupted := by rw [h.rest]

theorem aborted_eq (h : Precedes c d) : d.aborted = c.aborted := by rw [h.rest]

/-- A frame is entered in both. -/
theorem enter (h : Precedes c d) (frame : FrameId) : Precedes (c.enter frame) (d.enter frame) where
  store := h.store
  cells := h.cells
  rest := by
    have hRest := h.rest
    rw [hRest]
    rfl

/-- The innermost frame is left in both. -/
theorem leave (h : Precedes c d) : Precedes c.leave d.leave where
  store := h.store
  cells := h.cells
  rest := by
    have hRest := h.rest
    rw [hRest]
    rfl

/-- Driver steps that begin later change nothing that matters. -/
theorem beginStep (c : Context) : Precedes c c.beginStep := ⟨.refl _, Nat.le_refl _, rfl⟩

/-- To note a moment is to go on. -/
theorem checkpoint (c : Context) : Precedes c c.checkpoint :=
  ⟨Store.descends_mark _, Nat.le_refl _, rfl⟩

/-- Going back to the moment of `c` changes the store alone. -/
theorem restore_eq (h : Precedes c d) :
    d.restore c.moment = { d with store := d.store.unwindTo c.store.trail.size } := by
  have hErrors : d.errors.take c.errors.length = d.errors := by
    rw [h.errors_eq, List.take_length]
  have hInner : d.inner.drop (d.inner.length - c.inner.length) = d.inner := by
    rw [h.inner_eq, Nat.sub_self, List.drop_zero]
  unfold Context.restore moment
  dsimp only
  rw [hErrors, hInner]

/-- After going back the context is still later than the moment itself, in that it has used up
frames and cells. -/
theorem restore (h : Precedes c.checkpoint d) :
    Precedes c.checkpoint (d.restore c.moment) := by
  have hBack : d.restore c.moment = { d with store := d.store.unwindTo c.store.trail.size } :=
    ((checkpoint c).trans h).restore_eq
  rw [hBack]
  refine ⟨h.store.unwindTo (Nat.le_refl _), h.cells, ?_⟩
  have hRest := h.rest
  rw [hRest]

end Precedes

end Context

/-- After going back to a noted moment the context agrees with what it agreed with then. -/
theorem Agree.restore {c d e : Context} (h : Agree w c d) (hLater : c.checkpoint.Precedes e) :
    Agree w (e.restore c.moment) d := by
  have hBack := ((Context.Precedes.checkpoint c).trans hLater).restore_eq
  rw [hBack]
  exact h.left (fun f hf => hLater.store.scope?_unwindTo_mark hf) hLater.cells hLater.inner_eq
    hLater.outer_eq hLater.store.trail_unwindTo

-- ---------------------------------------------------------------------------
-- Actions
-- ---------------------------------------------------------------------------

/-- Faults of both contexts are reported alike. -/
def Context.Reports (c d : Context) : Prop := d.errors = c.errors ∧ d.source = c.source

/-- Faults are reported alike all the way. -/
theorem Context.Reports.trans {c d e : Context} (h₁ : c.Reports d) (h₂ : d.Reports e) :
    c.Reports e := ⟨h₂.1.trans h₁.1, h₂.2.trans h₁.2⟩

/-- Two actions that began in `c` and `d` have ended in the same way, with results that stand in the
relation `R`, and have displayed the same lines. -/
inductive Meets (w : Renaming) (R : Renaming → α → β → Prop) (c d : Context) :
    EStateM.Result Fault Context α → EStateM.Result Fault Context β → Prop
  | ok {w' : Renaming} {a : α} {b : β} {c' d' : Context} (lines : List String) (hle : w ≤ w')
      (hAgree : Agree w' c' d') (h : R w' a b) (hReports : c.Reports c')
      (hOutput : c'.output.toList = c.output.toList ++ lines)
      (hOutput' : d'.output.toList = d.output.toList ++ lines) : Meets w R c d (.ok a c') (.ok b d')
  | error {w' : Renaming} {t : Fault} {c' d' : Context} (lines : List String) (hle : w ≤ w')
      (hAgree : Agree w' c' d') (hReports : c.Reports c')
      (hOutput : c'.output.toList = c.output.toList ++ lines)
      (hOutput' : d'.output.toList = d.output.toList ++ lines) :
      Meets w R c d (.error t c') (.error t d')

/-- In contexts that agree the two actions do the same. -/
def Eval.Matches (w : Renaming) (R : Renaming → α → β → Prop) (x : Eval α) (y : Eval β) : Prop :=
  ∀ w', w ≤ w' → ∀ c d, Agree w' c d → Meets w' R c d (x c) (y d)

/-- Values that are alike. -/
def AlikeValues (w : Renaming) (v v' : Value) : Prop := v.Alike w v'

/-- Frames that correspond. -/
def SameFrames (w : Renaming) (f g : FrameId) : Prop := w.frames.Pairs f g

/-- Cells that correspond. -/
def SameCells (w : Renaming) (i j : CellId) : Prop := w.cells.Pairs i j

/-- Nothing is said. -/
def NoResult (_ : Renaming) (_ _ : Unit) : Prop := True

namespace Eval

variable {R : Renaming → α → β → Prop} {S : Renaming → γ → δ → Prop}

/-- Actions that do the same go on doing so when more frames and cells correspond. -/
theorem Matches.mono {x : Eval α} {y : Eval β} (h : Matches w R x y) (hle : w ≤ w') :
    Matches w' R x y := fun w'' hle' => h w'' (hle.trans hle')

/-- Actions that display nothing. -/
theorem meets_self {c d : Context} {a : α} {b : β} {c' d' : Context} (hle : w ≤ w')
    (hAgree : Agree w' c' d') (h : R w' a b) (hReports : c.Reports c')
    (hOutput : c'.output = c.output) (hOutput' : d'.output = d.output) :
    Meets w R c d (.ok a c') (.ok b d') :=
  .ok [] hle hAgree h hReports (by rw [hOutput, List.append_nil])
    (by rw [hOutput', List.append_nil])

/-- Results that stand in the relation. -/
theorem matches_pure {a : α} {b : β} (h : ∀ w', w ≤ w' → R w' a b) :
    Matches w R (pure a) (pure b) := by
  intro w' hle _ _ hAgree
  exact meets_self le_rfl hAgree (h w' hle) ⟨rfl, rfl⟩ rfl rfl

theorem matches_throw (t : Fault) : Matches w R (throw t) (throw t) := by
  intro _ _ _ _ hAgree
  exact .error [] le_rfl hAgree ⟨rfl, rfl⟩ (List.append_nil _).symm (List.append_nil _).symm

/-- Two actions on either side, one after the other. What corresponds after the first ones is what
the second ones may use. -/
theorem matches_bind {x : Eval α} {y : Eval β} {f : α → Eval γ} {g : β → Eval δ}
    (hx : Matches w R x y) (hf : ∀ w', w ≤ w' → ∀ a b, R w' a b → Matches w' S (f a) (g b)) :
    Matches w S (x >>= f) (y >>= g) := by
  intro w' hle c d hAgree
  have hFirst := hx w' hle c d hAgree
  show Meets w' S c d (EStateM.bind x f c) (EStateM.bind y g d)
  unfold EStateM.bind
  revert hFirst
  generalize x c = r
  generalize y d = r'
  rintro (⟨lines₁, hle₁, hAgree₁, h, hReports₁, hOutput₁, hOutput₁'⟩ |
    ⟨lines₁, hle₁, hAgree₁, hReports₁, hOutput₁, hOutput₁'⟩)
  · dsimp only
    -- both first actions had a result, since one ends in a fault only if the other does
    have hSecond := hf _ (hle.trans hle₁) _ _ h _ le_rfl _ _ hAgree₁
    revert hSecond
    generalize f _ _ = r
    generalize g _ _ = r'
    rintro (⟨lines₂, hle₂, hAgree₂, h₂, hReports₂, hOutput₂, hOutput₂'⟩ |
      ⟨lines₂, hle₂, hAgree₂, hReports₂, hOutput₂, hOutput₂'⟩)
    · refine .ok (lines₁ ++ lines₂) (hle₁.trans hle₂) hAgree₂ h₂ (hReports₁.trans hReports₂) ?_ ?_
      · rw [hOutput₂, hOutput₁, List.append_assoc]
      · rw [hOutput₂', hOutput₁', List.append_assoc]
    · refine .error (lines₁ ++ lines₂) (hle₁.trans hle₂) hAgree₂ (hReports₁.trans hReports₂) ?_ ?_
      · rw [hOutput₂, hOutput₁, List.append_assoc]
      · rw [hOutput₂', hOutput₁', List.append_assoc]
  · exact .error lines₁ hle₁ hAgree₁ hReports₁ hOutput₁ hOutput₁'

/-- Two actions that look at their contexts first. -/
theorem matches_get_bind {f : Context → Eval γ} {g : Context → Eval δ}
    (h : ∀ w', w ≤ w' → ∀ c d, Agree w' c d → Meets w' S c d (f c c) (g d d)) :
    Matches w S (get >>= f) (get >>= g) := h

/-- A change of contexts that says nothing. -/
theorem matches_modify {f g : Context → Context}
    (h : ∀ w', w ≤ w' → ∀ c d, Agree w' c d → Agree w' (f c) (g d))
    (hReports : ∀ c : Context, c.Reports (f c)) (hOutput : ∀ c, (f c).output = c.output)
    (hOutput' : ∀ d, (g d).output = d.output) :
    Matches w NoResult (modify f) (modify g) := by
  intro w' hle c d hAgree
  exact meets_self le_rfl (h w' hle c d hAgree) trivial (hReports c) (hOutput c) (hOutput' d)

end Eval

end AmbScript
