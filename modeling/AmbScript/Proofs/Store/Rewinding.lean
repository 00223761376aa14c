import AmbScript.Proofs.Store.Descent

/-!
# Going back to a mark

Any operations may follow one another on a store: frames are made, bindings are written, moments
are marked and gone back to. A mark is known by the length that the trail had there. As long as the
trail is not undone below that length, going back to it gives every frame below the mark the
bindings that it had there, no matter how many moments were marked since, which of them were gone
back to and how often, and which were given up.

* `Store.Operation`, `Store.undergo` — the operations, and the store after some of them.
* `Store.Bare` — a frame that binds nothing, or is yet to be made.
* `Store.Rewinds` — a store descends from an earlier one, and the frames made since get bare again.
* `Store.Rewinds.apply`, `Store.Rewinds.undergo` — one operation keeps this, and so do all.
* `Store.unwinding_restores_mark` — what is found after going back to a mark.

`Descends` speaks of the frames that were there at the mark. A mark may also be set for frames that
are made later; these have to come out bare. What is delicate about them is a change that was logged
for a frame before it was made: it replaced no binding, so undoing it binds nothing (`unmade`).
-/

namespace AmbScript

namespace Store

-- ---------------------------------------------------------------------------
-- Operations
-- ---------------------------------------------------------------------------

/-- What can be done with a store. -/
inductive Operation
  /-- Makes the next frame. -/
  | newFrame (name : String) (parent : Option FrameId) (callSite : Option Span)
  /-- Binds a name in a frame. -/
  | write (frame : FrameId) (name : String) (b : Binding)
  /-- Marks the present moment for the frames below `next`, which is the frame that is made next
  wherever a program marks a moment. -/
  | mark (next : FrameId)
  /-- Goes back to the moment when the trail had this length. -/
  | unwindTo (length : Nat)

/-- The store after an operation. -/
def Operation.apply (s : Store) : Operation → Store
  | .newFrame name parent callSite => s.newFrame name parent callSite
  | .write frame name b => s.write frame name b
  | .mark next => s.markBelow next
  | .unwindTo length => s.unwindTo length

/-- The store after operations, the first one first. -/
def undergo (s : Store) (ops : List Operation) : Store := ops.foldl Operation.apply s

@[simp] theorem undergo_nil (s : Store) : s.undergo [] = s := rfl

@[simp] theorem undergo_cons (s : Store) (op : Operation) (ops : List Operation) :
    s.undergo (op :: ops) = (op.apply s).undergo ops := rfl

/-- First some operations, then the others. -/
theorem undergo_append (s : Store) (ops ops' : List Operation) :
    s.undergo (ops ++ ops') = (s.undergo ops).undergo ops' := List.foldl_append

-- ---------------------------------------------------------------------------
-- Bare frames
-- ---------------------------------------------------------------------------

/-- The frame binds nothing; it may also be yet to be made. -/
def Bare (s : Store) (f : FrameId) : Prop := ∀ name, s.binding? f name = none

/-- A frame that is yet to be made binds nothing. -/
theorem bare_of_nextFrame_le {s : Store} {f : FrameId} (h : s.nextFrame ≤ f) : s.Bare f := by
  intro name
  have hNone : s.frames[f]? = none := Array.getElem?_eq_none h
  simp [binding?, hNone]

theorem bare_newFrame (s : Store) (name : String) (parent : Option FrameId)
    (callSite : Option Span) : (s.newFrame name parent callSite).Bare s.nextFrame := by
  intro other
  rw [binding?_eq, scope?_newFrame, if_pos rfl]
  rfl

namespace Bare

variable {s t : Store} {f : FrameId}

/-- A frame with the same scope. -/
theorem of_scope?_eq (h : s.Bare f) (hScope : t.scope? f = s.scope? f) : t.Bare f := by
  intro name
  rw [binding?_eq, hScope, ← binding?_eq]
  exact h name

/-- Unbinding a name leaves a bare frame bare. -/
theorem put_none (h : s.Bare f) (g : FrameId) (name : String) : (s.put g name none).Bare f := by
  intro other
  have hOther := h other
  rw [binding?_eq] at hOther ⊢
  rw [scope?_put]
  by_cases hFrame : f = g
  · rw [if_pos hFrame]
    cases hScope : s.scope? f with
    | none => rfl
    | some sc =>
      rw [hScope] at hOther
      have hBinding : sc.binding? other = none := hOther
      by_cases hName : other = name <;> simp [Scope.set, hName, hBinding]
  · rw [if_neg hFrame]
    exact hOther

/-- Undoing a change leaves a bare frame bare if the change bound a name that was not bound. -/
theorem undoLast (h : s.Bare f)
    (hLogged : ∀ u, s.trail.back? = some u → u.frame = f → u.previous = none) :
    s.undoLast.Bare f := by
  unfold Store.undoLast
  split
  · exact h
  · rename_i u hBack
    by_cases hFrame : u.frame = f
    · rw [hLogged u hBack hFrame]
      exact put_none (s := { s with trail := s.trail.pop }) h u.frame u.name
    · apply h.of_scope?_eq
      rw [scope?_put, if_neg (Ne.symm hFrame)]
      rfl

/-- Undoing several changes leaves a bare frame bare if none of them had replaced a binding of
it. -/
theorem undo (n : Nat) (h : s.Bare f)
    (hLogged : ∀ u ∈ s.trail.toList.drop (s.trail.size - n), u.frame = f → u.previous = none) :
    (Store.undo n s).Bare f := by
  induction n generalizing s with
  | zero => exact h
  | succ n ih =>
    -- the last entry is one of those that are undone, so it leaves nothing in the frame
    have hLast : s.undoLast.Bare f := by
      apply h.undoLast
      intro u hBack
      obtain ⟨earlier, hTrail⟩ := Array.back?_eq_some_iff.mp hBack
      apply hLogged u
      have hShort : earlier.size - n ≤ earlier.toList.length := Nat.sub_le _ _
      rw [hTrail, Array.toList_push, Array.size_push, Nat.add_sub_add_right,
        List.drop_append_of_le_length hShort]
      exact List.mem_append_right _ (List.mem_singleton_self u)
    apply ih hLast
    intro u hu
    rw [trail_undoLast, Array.toList_pop, Array.size_pop, Nat.sub_sub, Nat.add_comm 1 n] at hu
    exact hLogged u (((List.dropLast_sublist _).drop _).mem hu)

theorem unwindTo {n : Nat} (h : s.Bare f) (hn : n ≤ s.trail.size)
    (hLogged : ∀ u ∈ s.trail.toList.drop n, u.frame = f → u.previous = none) :
    (s.unwindTo n).Bare f := by
  apply h.undo
  rw [Nat.sub_sub_self hn]
  exact hLogged

end Bare

-- ---------------------------------------------------------------------------
-- Rewinding
-- ---------------------------------------------------------------------------

/-- `s` has come from `s₀` by operations that its trail can take back: undoing them gives the frames
that were there at `s₀` their bindings back, and leaves those bare that were made since. -/
structure Rewinds (s₀ s : Store) : Prop extends Descends s₀ s where
  /-- A frame that is yet to be made has no bindings that a logged change could have replaced. -/
  unmade : ∀ u ∈ s.trail.toList.drop s₀.trail.size, s.nextFrame ≤ u.frame → u.previous = none
  bare : ∀ f, s₀.nextFrame ≤ f → f < s₀.watermark → (s.unwindTo s₀.trail.size).Bare f

namespace Rewinds

variable {s₀ s t : Store}

/-- Where nothing was done nothing has to be taken back. -/
@[refl] theorem refl (s : Store) : Rewinds s s where
  toDescends := .refl s
  unmade u hu _ := by
    rw [← Array.length_toList, List.drop_length] at hu
    cases hu
  bare f hf _ := by
    rw [unwindTo_size]
    exact bare_of_nextFrame_le hf

/-- What comes after `s` leaves those frames bare that were there at `s`, and those that are still
to be made. -/
theorem bare_descends (h : Rewinds s₀ s) (hNext : Descends s t) {f : FrameId}
    (hf : s₀.nextFrame ≤ f) (hLogged : f < s₀.watermark)
    (hMade : f < s.nextFrame ∨ t.nextFrame ≤ f) : (t.unwindTo s₀.trail.size).Bare f := by
  rcases hMade with hMade | hLater
  · have hStill : f < s.watermark := Nat.lt_of_lt_of_le hLogged h.watermark
    exact (h.bare f hf hLogged).of_scope?_eq (hNext.scope?_unwindTo h.size_le ⟨hStill, hMade⟩)
  · apply bare_of_nextFrame_le
    rw [nextFrame_unwindTo]
    exact hLater

/-- A frame is made. -/
theorem newFrame (h : Rewinds s₀ s) (name : String) (parent : Option FrameId)
    (callSite : Option Span) : Rewinds s₀ (s.newFrame name parent callSite) where
  toDescends := h.toDescends.trans (descends_newFrame s name parent callSite)
  unmade u hu hFrame := by
    rw [nextFrame_newFrame] at hFrame
    exact h.unmade u hu (Nat.le_of_succ_le hFrame)
  bare f hf hLogged := by
    by_cases hNew : f = s.nextFrame
    · -- what was logged for the new frame before it was made unbinds names that it does not bind
      subst hNew
      apply (bare_newFrame s name parent callSite).unwindTo h.size_le
      intro u hu hFrame
      exact h.unmade u hu (Nat.le_of_eq hFrame.symm)
    · apply h.bare_descends (descends_newFrame s name parent callSite) hf hLogged
      rw [nextFrame_newFrame]
      exact Nat.lt_or_gt_of_ne hNew

/-- A binding is written. -/
theorem write (h : Rewinds s₀ s) (frame : FrameId) (name : String) (b : Binding) :
    Rewinds s₀ (s.write frame name b) where
  toDescends := h.toDescends.trans (descends_write s frame name b)
  unmade u hu hFrame := by
    rw [nextFrame_write] at hFrame
    have hSize : s₀.trail.size ≤ s.trail.toList.length := h.size_le
    rw [trail_write, List.drop_append_of_le_length hSize, List.mem_append] at hu
    rcases hu with hEarlier | hNew
    · exact h.unmade u hEarlier hFrame
    · split at hNew
      -- The new entry notes what was replaced, which is nothing in a frame that is yet to be made.
      · rw [List.mem_singleton.mp hNew] at hFrame ⊢
        exact bare_of_nextFrame_le hFrame name
      · cases hNew
  bare f hf hLogged := by
    apply h.bare_descends (descends_write s frame name b) hf hLogged
    rw [nextFrame_write]
    exact Nat.lt_or_ge f s.nextFrame

/-- A moment is marked. -/
theorem markBelow (h : Rewinds s₀ s) (next : FrameId) : Rewinds s₀ (s.markBelow next) where
  toDescends := h.toDescends.trans (descends_markBelow s next)
  unmade := h.unmade
  bare _ hf hLogged :=
    h.bare_descends (descends_markBelow s next) hf hLogged (Nat.lt_or_ge _ s.nextFrame)

/-- Going back to a moment since `s₀`. -/
theorem unwindTo (h : Rewinds s₀ s) {n : Nat} (hn : s₀.trail.size ≤ n) :
    Rewinds s₀ (s.unwindTo n) where
  toDescends := h.toDescends.unwindTo hn
  unmade u hu hFrame := by
    rw [Store.trail_unwindTo] at hu
    rw [nextFrame_unwindTo] at hFrame
    have hSince : u ∈ s.trail.toList.drop s₀.trail.size :=
      ((List.take_sublist n s.trail.toList).drop s₀.trail.size).mem hu
    exact h.unmade u hSince hFrame
  bare f hf hLogged := by
    rw [unwindTo_unwindTo s hn]
    exact h.bare f hf hLogged

/-- One operation, if it does not go back too far. -/
theorem apply (h : Rewinds s₀ s) (op : Operation)
    (hAbove : ∀ n, op = .unwindTo n → s₀.trail.size ≤ n) : Rewinds s₀ (op.apply s) := by
  cases op with
  | newFrame name parent callSite => exact h.newFrame name parent callSite
  | write frame name b => exact h.write frame name b
  | mark next => exact h.markBelow next
  | unwindTo n => exact h.unwindTo (hAbove n rfl)

/-- All operations, by induction on them. -/
theorem undergo (h : Rewinds s₀ s) (ops : List Operation)
    (hAbove : ∀ n, .unwindTo n ∈ ops → s₀.trail.size ≤ n) : Rewinds s₀ (s.undergo ops) := by
  induction ops generalizing s with
  | nil => exact h
  | cons op ops ih =>
    have hNext : Rewinds s₀ (op.apply s) := by
      apply h.apply op
      intro n hn
      exact hAbove n (hn ▸ List.mem_cons_self)
    exact ih hNext fun n hn => hAbove n (List.mem_cons_of_mem op hn)

/-- All frames that were logged at `s₀` have their bindings back, those made since have none. -/
theorem binding?_unwindTo (h : Rewinds s₀ s) {f : FrameId} (hf : f < s₀.watermark)
    (name : String) : (s.unwindTo s₀.trail.size).binding? f name = s₀.binding? f name := by
  rcases Nat.lt_or_ge f s₀.nextFrame with hMade | hLater
  · rw [binding?_eq, binding?_eq, h.undone f ⟨hf, hMade⟩]
  · rw [h.bare f hLater hf name, bare_of_nextFrame_le hLater name]

end Rewinds

/-- Let a moment be marked for the frames below `next`, after any operations, and be followed by any
others of which none goes back further than to the mark. Going back to the mark then gives every
frame below `next` exactly the bindings that it had there, and the trail is again that of the
mark. -/
theorem unwinding_restores_mark (s : Store) (before since : List Operation) (next : FrameId)
    (hAbove : ∀ n, .unwindTo n ∈ since → (s.undergo before).trail.size ≤ n) :
    let marked := s.undergo before
    let back := s.undergo (before ++ .mark next :: since ++ [.unwindTo marked.trail.size])
    (∀ f < next, ∀ name, back.binding? f name = marked.binding? f name) ∧
      back.trail = marked.trail := by
  intro marked back
  have hRewinds : Rewinds (marked.markBelow next) ((marked.markBelow next).undergo since) :=
    (Rewinds.refl _).undergo since hAbove
  have hBack : back = ((marked.markBelow next).undergo since).unwindTo marked.trail.size := by
    show s.undergo (before ++ .mark next :: since ++ [.unwindTo marked.trail.size]) = _
    rw [undergo_append, undergo_append]
    rfl
  rw [hBack]
  refine ⟨?_, hRewinds.trail_unwindTo⟩
  intro f hf name
  exact hRewinds.binding?_unwindTo (Nat.lt_of_lt_of_le hf (Nat.le_max_right _ _)) name

/-- A frame with one name, which is logged. -/
def oneName : List Operation :=
  [.newFrame "programEnvironment" none none, .mark 1, .write 0 "x" .placeholder]

/-- The name is written to again and again. Of two more marks the first is given up and the second
is gone back to; after that all is undone, and the name is written to twice. -/
def rewrites : List Operation :=
  let value (v : Value) : Binding := .ofValue v false
  [.write 0 "x" (value (.bool true)), .mark 1, .newFrame "blockEnvironment" (some 0) none,
    .write 1 "y" (value .null), .mark 2, .write 1 "y" (value (.bool true)),
    .write 0 "x" (value .null), .unwindTo 2, .write 0 "z" (value .null), .unwindTo 1,
    .write 0 "x" (value (.bool false)), .write 0 "x" (value .null)]

/-- Before the mark is gone back to once more the name has a value, and two changes are logged. -/
theorem rewrites_restored :
    let marked := Store.empty.undergo oneName
    let later := marked.mark.undergo rewrites
    let back := later.unwindTo marked.trail.size
    (∀ n, .unwindTo n ∈ rewrites → marked.trail.size ≤ n) ∧
      later.binding? 0 "x" = some (.ofValue .null false) ∧ later.trail.size = 3 ∧
      back.binding? 0 "x" = some .placeholder ∧ back.trail.size = 1 := by
  have hAbove : ∀ n, .unwindTo n ∈ rewrites → (Store.empty.undergo oneName).trail.size ≤ n := by
    intro n hn
    have hSize : (Store.empty.undergo oneName).trail.size = 1 := rfl
    have hLength : n = 2 ∨ n = 1 := by simpa [rewrites] using hn
    omega
  obtain ⟨hBindings, hTrail⟩ :=
    unwinding_restores_mark Store.empty oneName rewrites (Store.empty.undergo oneName).nextFrame
      hAbove
  simp only [undergo_append, undergo_cons, undergo_nil, Operation.apply, ← mark_eq_markBelow]
    at hBindings hTrail
  refine ⟨hAbove, rfl, rfl, ?_, ?_⟩
  · rw [hBindings 0 Nat.zero_lt_one "x"]
    rfl
  · rw [hTrail]
    rfl

end Store

end AmbScript
