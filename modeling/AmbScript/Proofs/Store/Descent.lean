import AmbScript.Store.Basic

/-!
# What the trail can take back

A store *descends* from an earlier one if undoing its trail down to the earlier length gives the
earlier bindings back, in all frames that were logged at that time. Every change of a store keeps
this, except for going back further than to the earlier moment.

* `Store.Descends` — the relation; it is reflexive and transitive.
* `Store.descends_write`, `Store.descends_newFrame`, `Store.descends_markBelow` — changes keep it.
* `Store.Descends.unwindTo` — so does going back to a later moment.
* `Store.Descends.scope?_unwindTo` — going back further than to the earlier moment leads to the same
  bindings from both stores.
* `Store.Descends.scope?_unwindTo_mark` — going back to a noted moment gives every frame of that
  moment its bindings back.

Frames list their bindings in some order, which going back does not restore. So stores are compared
by `Scope`, which says what each name is bound to and leaves the order out.
-/

namespace AmbScript

-- ---------------------------------------------------------------------------
-- Scopes
-- ---------------------------------------------------------------------------

/-- What can be told of a frame: everything but the order of its bindings. -/
structure Scope where
  name : String
  parent : Option FrameId
  callSite : Option Span
  binding? : String → Option Binding

namespace Scope

/-- Binds a name, or unbinds it. -/
def set (s : Scope) (name : String) (b : Option Binding) : Scope :=
  { s with binding? := fun n => if n = name then b else s.binding? n }

/-- To bind a name anew and then as before changes nothing. -/
theorem set_set_self (s : Scope) (name : String) (b : Option Binding) :
    (s.set name b).set name (s.binding? name) = s := by
  cases s with
  | mk _ _ _ binding? =>
    simp only [set, Scope.mk.injEq, true_and]
    funext n
    by_cases h : n = name
    · rw [if_pos h, h]
    · rw [if_neg h, if_neg h]

end Scope

/-- The scope that a frame makes. -/
def Frame.scope (f : Frame) : Scope := ⟨f.name, f.parent, f.callSite, f.binding?⟩

/-- To bind a name in a frame is to set it in its scope. -/
theorem Frame.scope_put (f : Frame) (name : String) (b : Option Binding) :
    (f.put name b).scope = f.scope.set name b := by
  have hBindings : (f.put name b).binding? = fun n => if n = name then b else f.binding? n :=
    funext (f.binding?_put name b)
  cases b <;> simp [Frame.scope, Scope.set, hBindings] <;> simp [Frame.put]

namespace Store

/-- The scope that a frame of the store makes. -/
def scope? (s : Store) (f : FrameId) : Option Scope := s.frames[f]?.map Frame.scope

/-- A binding is that of the scope. -/
theorem binding?_eq (s : Store) (f : FrameId) (name : String) :
    s.binding? f name = (s.scope? f).bind (·.binding? name) := by
  unfold binding? scope?
  cases s.frames[f]? <;> rfl

/-- The scopes are those of the frames that there are. -/
theorem scope?_isSome_iff (s : Store) (f : FrameId) : (s.scope? f).isSome ↔ f < s.nextFrame := by
  simp [scope?, nextFrame]

/-- Only the frame that is changed has another scope. -/
theorem scope?_put (s : Store) (f g : FrameId) (name : String) (b : Option Binding) :
    (s.put f name b).scope? g = if g = f then (s.scope? g).map (·.set name b) else s.scope? g := by
  unfold scope? put
  rw [Array.getElem?_modify]
  by_cases h : g = f
  · rw [if_pos h, if_pos h.symm]
    cases s.frames[g]? with
    | none => rfl
    | some frame => simp [Frame.scope_put]
  · rw [if_neg h, if_neg (Ne.symm h)]

/-- Whether the change is logged makes no difference to scopes. -/
theorem scope?_write (s : Store) (f g : FrameId) (name : String) (b : Binding) :
    (s.write f name b).scope? g =
      if g = f then (s.scope? g).map (·.set name (some b)) else s.scope? g := by
  rw [← scope?_put]
  unfold write
  dsimp only
  split <;> rfl

/-- The new frame has no bindings yet. -/
theorem scope?_newFrame (s : Store) (name : String) (parent : Option FrameId)
    (callSite : Option Span) (g : FrameId) :
    (s.newFrame name parent callSite).scope? g =
      if g = s.nextFrame then some ⟨name, parent, callSite, fun _ => none⟩ else s.scope? g := by
  unfold scope? newFrame nextFrame
  rw [Array.getElem?_push]
  split
  · rfl
  · rfl

/-- A change in a frame that is logged. -/
theorem write_of_lt {s : Store} {f : FrameId} (hf : f < s.watermark) (name : String)
    (b : Binding) :
    s.write f name b =
      { s.put f name (some b) with trail := s.trail.push ⟨f, name, s.binding? f name⟩ } := by
  unfold write
  dsimp only
  rw [if_pos (show f < (s.put f name (some b)).watermark from hf)]
  rfl

/-- A change of a binding is logged with the binding that it replaces, if it is logged. -/
theorem trail_write (s : Store) (f : FrameId) (name : String) (b : Binding) :
    (s.write f name b).trail.toList =
      s.trail.toList ++ if f < s.watermark then [⟨f, name, s.binding? f name⟩] else [] := by
  unfold write
  dsimp only
  by_cases hLogged : f < s.watermark
  · rw [if_pos (show f < (s.put f name (some b)).watermark from hLogged), if_pos hLogged,
      Array.toList_push]
    rfl
  · rw [if_neg (show ¬ f < (s.put f name (some b)).watermark from hLogged), if_neg hLogged,
      List.append_nil]
    rfl

/-- What is logged after a change was logged before it, or is what the change replaced. -/
theorem mem_trail_write {s : Store} {f : FrameId} {name : String} {b : Binding} {u : Undo}
    (h : u ∈ (s.write f name b).trail.toList) :
    u ∈ s.trail.toList ∨ u = ⟨f, name, s.binding? f name⟩ := by
  rw [trail_write, List.mem_append] at h
  rcases h with hEarlier | hNew
  · exact .inl hEarlier
  · split at hNew
    · exact .inr (List.mem_singleton.mp hNew)
    · cases hNew

@[simp] theorem scope?_mark (s : Store) (f : FrameId) : s.mark.scope? f = s.scope? f := rfl

@[simp] theorem scope?_forget (s : Store) (f : FrameId) : s.forget.scope? f = s.scope? f := rfl

@[simp] theorem nextFrame_put (s : Store) (f : FrameId) (name : String) (b : Option Binding) :
    (s.put f name b).nextFrame = s.nextFrame := by
  simp [put, nextFrame]

/-- A change makes no frame. -/
@[simp] theorem nextFrame_write (s : Store) (f : FrameId) (name : String) (b : Binding) :
    (s.write f name b).nextFrame = s.nextFrame := by
  rw [← nextFrame_put s f name (some b)]
  unfold write
  dsimp only
  split <;> rfl

@[simp] theorem nextFrame_newFrame (s : Store) (name : String) (parent : Option FrameId)
    (callSite : Option Span) :
    (s.newFrame name parent callSite).nextFrame = s.nextFrame + 1 := by
  simp [newFrame, nextFrame]

@[simp] theorem nextFrame_mark (s : Store) : s.mark.nextFrame = s.nextFrame := rfl

@[simp] theorem nextFrame_forget (s : Store) : s.forget.nextFrame = s.nextFrame := rfl

-- ---------------------------------------------------------------------------
-- Undoing
-- ---------------------------------------------------------------------------

@[simp] theorem trail_put (s : Store) (f : FrameId) (name : String) (b : Option Binding) :
    (s.put f name b).trail = s.trail := rfl

@[simp] theorem nextFrame_undoLast (s : Store) : s.undoLast.nextFrame = s.nextFrame := by
  unfold undoLast
  split
  · rfl
  · rw [nextFrame_put]
    rfl

@[simp] theorem watermark_undoLast (s : Store) : s.undoLast.watermark = s.watermark := by
  unfold undoLast
  split <;> rfl

/-- The last entry is taken from the trail. -/
theorem trail_undoLast (s : Store) : s.undoLast.trail = s.trail.pop := by
  unfold undoLast
  split
  · rename_i h
    have hEmpty : s.trail = #[] := by simpa using h
    rw [hEmpty]
    rfl
  · rfl

/-- Undoing a change that was just logged puts the binding back that it replaced. -/
theorem scope?_undoLast_write {s : Store} {f : FrameId} (hf : f < s.watermark) (name : String)
    (b : Binding) (g : FrameId) : (s.write f name b).undoLast.scope? g = s.scope? g := by
  have hUndo : (s.write f name b).undoLast =
      { (s.put f name (some b)).put f name (s.binding? f name) with trail := s.trail } := by
    rw [write_of_lt hf]
    simp [undoLast, put]
  have hScope : (s.write f name b).undoLast.scope? g =
      ((s.put f name (some b)).put f name (s.binding? f name)).scope? g := by
    rw [hUndo]
    rfl
  rw [hScope, scope?_put, scope?_put, binding?_eq]
  split
  · rename_i hgf
    subst hgf
    cases s.scope? g with
    | none => rfl
    | some sc => simp [Scope.set_set_self]
  · rfl

@[simp] theorem nextFrame_undo (n : Nat) (s : Store) : (undo n s).nextFrame = s.nextFrame := by
  induction n generalizing s with
  | zero => rfl
  | succ n ih => rw [undo, ih, nextFrame_undoLast]

@[simp] theorem watermark_undo (n : Nat) (s : Store) : (undo n s).watermark = s.watermark := by
  induction n generalizing s with
  | zero => rfl
  | succ n ih => rw [undo, ih, watermark_undoLast]

/-- As many entries are taken from the trail. -/
theorem trail_undo (n : Nat) (s : Store) :
    (undo n s).trail.toList = s.trail.toList.take (s.trail.size - n) := by
  induction n generalizing s with
  | zero => rw [undo, Nat.sub_zero, ← Array.length_toList, List.take_length]
  | succ n ih =>
    rw [undo, ih, trail_undoLast, Array.toList_pop, List.dropLast_eq_take, List.take_take,
      Array.size_pop, Array.length_toList]
    congr 1
    omega

/-- First some changes are undone, then the others. -/
theorem undo_add (m n : Nat) (s : Store) : undo (m + n) s = undo n (undo m s) := by
  induction m generalizing s with
  | zero => simp [undo]
  | succ m ih => rw [Nat.succ_add, undo, undo, ih]

theorem size_trail_undo (n : Nat) (s : Store) : (undo n s).trail.size = s.trail.size - n := by
  rw [← Array.length_toList, trail_undo, List.length_take, Array.length_toList]
  omega

@[simp] theorem nextFrame_unwindTo (s : Store) (n : Nat) :
    (s.unwindTo n).nextFrame = s.nextFrame := nextFrame_undo _ _

@[simp] theorem watermark_unwindTo (s : Store) (n : Nat) :
    (s.unwindTo n).watermark = s.watermark := watermark_undo _ _

/-- The trail has the length that it is unwound to, if it was longer. -/
theorem trail_unwindTo (s : Store) (n : Nat) :
    (s.unwindTo n).trail.toList = s.trail.toList.take n := by
  rw [unwindTo, trail_undo]
  by_cases h : n ≤ s.trail.size
  · rw [Nat.sub_sub_self h]
  · have hAll : s.trail.size - (s.trail.size - n) = s.trail.size := by omega
    rw [hAll, List.take_of_length_le (by simp), List.take_of_length_le (by simp; omega)]

/-- To go back in two steps is to go back in one. -/
theorem unwindTo_unwindTo (s : Store) {m n : Nat} (h : n ≤ m) :
    (s.unwindTo m).unwindTo n = s.unwindTo n := by
  unfold unwindTo
  rw [← undo_add, size_trail_undo]
  congr 1
  omega

theorem unwindTo_size (s : Store) : s.unwindTo s.trail.size = s := by
  simp [unwindTo, undo]

/-- Two stores with one trail that agree on some frames still do so after the same undoing. -/
theorem scope?_undo_congr {P : FrameId → Prop} (n : Nat) {s t : Store} (hTrail : s.trail = t.trail)
    (hScopes : ∀ f, P f → s.scope? f = t.scope? f) {f : FrameId} (hf : P f) :
    (undo n s).scope? f = (undo n t).scope? f := by
  induction n generalizing s t with
  | zero => exact hScopes f hf
  | succ n ih =>
    rw [undo, undo]
    apply ih
    · rw [trail_undoLast, trail_undoLast, hTrail]
    · intro g hg
      unfold undoLast
      rw [hTrail]
      cases t.trail.back? with
      | none => exact hScopes g hg
      | some u =>
        dsimp only
        -- The same entry is undone in both, whatever frame it names.
        rw [scope?_put, scope?_put]
        split
        · exact congrArg _ (hScopes g hg)
        · exact hScopes g hg

/-- Two stores with one trail that agree on some frames still do so after going back equally far. -/
theorem scope?_unwindTo_congr {P : FrameId → Prop} (n : Nat) {s t : Store}
    (hTrail : s.trail = t.trail) (hScopes : ∀ f, P f → s.scope? f = t.scope? f) {f : FrameId}
    (hf : P f) : (s.unwindTo n).scope? f = (t.unwindTo n).scope? f := by
  unfold unwindTo
  rw [hTrail]
  exact scope?_undo_congr _ hTrail hScopes hf

-- ---------------------------------------------------------------------------
-- Descent
-- ---------------------------------------------------------------------------

/-- `s` has come from `s₀` by changes that its trail can take back: undoing them gives the frames
that were logged at `s₀` their bindings back. -/
structure Descends (s₀ s : Store) : Prop where
  trail : s₀.trail.toList <+: s.trail.toList
  watermark : s₀.watermark ≤ s.watermark
  frames : s₀.nextFrame ≤ s.nextFrame
  undone : ∀ f, f < s₀.watermark ∧ f < s₀.nextFrame →
    (s.unwindTo s₀.trail.size).scope? f = s₀.scope? f

namespace Descends

@[refl] theorem refl (s : Store) : Descends s s where
  trail := List.prefix_rfl
  watermark := Nat.le_refl _
  frames := Nat.le_refl _
  undone f _ := by rw [unwindTo_size]

/-- The trail has not become shorter than it was. -/
theorem size_le {s₀ s : Store} (h : Descends s₀ s) : s₀.trail.size ≤ s.trail.size := by
  simpa using h.trail.length_le

/-- The trail is back where it was. -/
theorem trail_unwindTo {s₀ s : Store} (h : Descends s₀ s) :
    (s.unwindTo s₀.trail.size).trail = s₀.trail := by
  rw [← Array.toList_inj, Store.trail_unwindTo, ← Array.length_toList,
    ← List.prefix_iff_eq_take.mp h.trail]

/-- Going back further than to `s₀` gives the frames that were logged at `s₀` the same bindings as
going back from `s₀` itself. -/
theorem scope?_unwindTo {s₀ s : Store} (h : Descends s₀ s) {n : Nat} (hn : n ≤ s₀.trail.size)
    {f : FrameId} (hf : f < s₀.watermark ∧ f < s₀.nextFrame) :
    (s.unwindTo n).scope? f = (s₀.unwindTo n).scope? f := by
  -- undo down to `s₀` first, where the trails are the same
  rw [← unwindTo_unwindTo s hn]
  exact scope?_unwindTo_congr n h.trail_unwindTo h.undone hf

/-- The trail of the third store can take back both stretches, one after the other. -/
theorem trans {s₀ s₁ s₂ : Store} (h₁ : Descends s₀ s₁) (h₂ : Descends s₁ s₂) :
    Descends s₀ s₂ where
  trail := h₁.trail.trans h₂.trail
  watermark := Nat.le_trans h₁.watermark h₂.watermark
  frames := Nat.le_trans h₁.frames h₂.frames
  undone f hf := by
    have hf₁ : f < s₁.watermark ∧ f < s₁.nextFrame :=
      ⟨Nat.lt_of_lt_of_le hf.1 h₁.watermark, Nat.lt_of_lt_of_le hf.2 h₁.frames⟩
    calc (s₂.unwindTo s₀.trail.size).scope? f
        = (s₁.unwindTo s₀.trail.size).scope? f := h₂.scope?_unwindTo h₁.size_le hf₁
      _ = s₀.scope? f := h₁.undone f hf

/-- Going back to a moment after `s₀`. -/
theorem unwindTo {s₀ s : Store} (h : Descends s₀ s) {n : Nat} (hn : s₀.trail.size ≤ n) :
    Descends s₀ (s.unwindTo n) where
  trail := by
    rw [Store.trail_unwindTo]
    exact List.prefix_take_iff.mpr ⟨h.trail, by simpa using hn⟩
  watermark := by
    rw [watermark_unwindTo]
    exact h.watermark
  frames := by
    rw [nextFrame_unwindTo]
    exact h.frames
  undone f hf := by
    rw [unwindTo_unwindTo _ hn]
    exact h.undone f hf

end Descends

theorem descends_write (s : Store) (f : FrameId) (name : String) (b : Binding) :
    Descends s (s.write f name b) := by
  by_cases hf : f < s.watermark
  · have hWrite := write_of_lt hf name b
    have hSize : (s.write f name b).trail.size = s.trail.size + 1 := by
      rw [hWrite]
      exact Array.size_push _
    refine ⟨?_, ?_, ?_, ?_⟩
    · rw [hWrite]
      simp
    · rw [hWrite]
      exact Nat.le_refl _
    · simp
    · intro g _
      -- one entry has been added to the trail, so one is undone
      have hUndo : (s.write f name b).unwindTo s.trail.size = (s.write f name b).undoLast := by
        rw [Store.unwindTo, hSize, Nat.add_sub_cancel_left]
        rfl
      rw [hUndo]
      exact scope?_undoLast_write hf name b g
  · have hWrite : s.write f name b = s.put f name (some b) := by
      unfold write
      dsimp only
      rw [if_neg (show ¬ f < (s.put f name (some b)).watermark from hf)]
    refine ⟨?_, ?_, ?_, ?_⟩
    · rw [hWrite]
      exact List.prefix_rfl
    · rw [hWrite]
      exact Nat.le_refl _
    · simp
    · intro g hg
      have hTrail : (s.write f name b).trail = s.trail := by
        rw [hWrite]
        rfl
      rw [← hTrail, unwindTo_size, scope?_write, if_neg]
      -- the changed frame is not one of those that have to be given back
      rintro rfl
      exact hf hg.1

/-- A new frame is none of those that were logged. -/
theorem descends_newFrame (s : Store) (name : String) (parent : Option FrameId)
    (callSite : Option Span) : Descends s (s.newFrame name parent callSite) where
  trail := List.prefix_rfl
  watermark := Nat.le_refl _
  frames := by simp
  undone f hf := by
    have hTrail : (s.newFrame name parent callSite).trail = s.trail := rfl
    rw [← hTrail, unwindTo_size, scope?_newFrame, if_neg (Nat.ne_of_lt hf.2)]

/-- Logs changes in the frames below `next`, also in those that are yet to be made. -/
def markBelow (s : Store) (next : FrameId) : Store := { s with watermark := max s.watermark next }

theorem mark_eq_markBelow (s : Store) : s.mark = s.markBelow s.nextFrame := rfl

/-- To log more frames changes no binding. -/
theorem descends_markBelow (s : Store) (next : FrameId) : Descends s (s.markBelow next) where
  trail := List.prefix_rfl
  watermark := Nat.le_max_left _ _
  frames := Nat.le_refl _
  undone f _ := by
    have hTrail : (s.markBelow next).trail = s.trail := rfl
    rw [← hTrail, unwindTo_size]
    rfl

/-- A mark logs the frames that there are. -/
theorem descends_mark (s : Store) : Descends s s.mark := by
  rw [mark_eq_markBelow]
  exact descends_markBelow s s.nextFrame

/-- A noted moment is given back: after going back to it every frame that was there has its
bindings as they were. -/
theorem Descends.scope?_unwindTo_mark {s₀ s : Store} (h : Descends s₀.mark s) {f : FrameId}
    (hf : f < s₀.nextFrame) : (s.unwindTo s₀.trail.size).scope? f = s₀.scope? f :=
  h.undone f ⟨Nat.lt_of_lt_of_le hf (Nat.le_max_right _ _), hf⟩

end Store

end AmbScript
