import AmbScript.Proofs.Store.Descent

/-!
# What may become of a binding

A frame gets its names when it is made. From then on a placeholder may get a value and a variable
another value; names are neither added nor removed, and what is constant stays as it is. Undoing the
trail goes the same way backwards, because nothing else was logged.

* `Binding.Turns`, `Binding.Evolves` — what may become of a binding.
* `Store.Conserves` — what may become of the first frames of a store.
* `Store.Regular` — only such changes were logged, in frames that are logged.
* `Store.Regular.write`, `Store.Regular.newFrame`, `Store.Regular.unwindTo` — stores stay regular.
* `Store.Regular.conserves_unwindTo` — what is undone had come about by such changes.
* `Store.Fixed` — a constant that cannot even be undone.
* `Store.Carries` — what lasts however often a store goes forwards and back: names, and fixed
  constants.

Going forwards, bindings evolve; going back, they return to what they had evolved from. `Logged`
makes the second half follow from the first: it says of each entry of the trail, counted from the
last one, that undoing it reverses a turn. So `Conserves` holds between the store after going back
and the one before it, and not the other way round.
-/

namespace AmbScript

-- ---------------------------------------------------------------------------
-- Bindings
-- ---------------------------------------------------------------------------

namespace Binding

/-- A change of a binding in a frame that is complete: a placeholder gets its value, or a variable
another one. -/
inductive Turns : Binding → Binding → Prop
  | defined {b : Binding} (h : b.slot = .placeholder) (v : Value) (isConst : Bool) :
      Turns b (.ofValue v isConst)
  | assigned (v w : Value) : Turns (.ofValue v false) (.ofValue w false)

/-- What may become of a name in a frame that is complete. -/
inductive Evolves : Option Binding → Option Binding → Prop
  | same (b : Option Binding) : Evolves b b
  | turned {b b' : Binding} (h : b.Turns b') : Evolves (some b) (some b')

/-- Two turns are one, or the second starts where the first one ended. -/
theorem Turns.trans {b b' b'' : Binding} (h : b.Turns b') (h' : b'.Turns b'') : b.Turns b'' := by
  cases h' with
  | defined hSlot v isConst => cases h <;> cases hSlot
  | assigned v w =>
    cases h with
    | defined hSlot => exact .defined hSlot w false
    | assigned u => exact .assigned u w

namespace Evolves

variable {b b' b'' : Option Binding}

/-- What a name becomes in the end. -/
theorem trans (h : Evolves b b') (h' : Evolves b' b'') : Evolves b b'' := by
  cases h with
  | same => exact h'
  | turned hTurns =>
    cases h' with
    | same => exact .turned hTurns
    | turned hTurns' => exact .turned (hTurns.trans hTurns')

/-- No name comes or goes. -/
theorem isSome_eq (h : Evolves b b') : b'.isSome = b.isSome := by
  cases h <;> rfl

/-- What is constant stays as it is. -/
theorem const {v : Value} (h : Evolves (some (.ofValue v true)) b) : b = some (.ofValue v true) := by
  cases h with
  | same => rfl
  | turned hTurns =>
    cases hTurns with
    | defined hSlot => cases hSlot

/-- What has become constant was so before, or it was a placeholder. -/
theorem const_or_placeholder {v : Value} (h : Evolves b (some (.ofValue v true))) :
    b = some (.ofValue v true) ∨ ∃ p : Binding, b = some p ∧ p.slot = .placeholder := by
  cases h with
  | same => exact .inl rfl
  | turned hTurns =>
    cases hTurns with
    | defined hSlot => exact .inr ⟨_, rfl, hSlot⟩

end Evolves

end Binding

open Binding

/-- What may become of a frame that is complete. -/
structure Scope.Conserves (s s' : Scope) : Prop where
  name : s'.name = s.name
  parent : s'.parent = s.parent
  callSite : s'.callSite = s.callSite
  evolves : ∀ name, Evolves (s.binding? name) (s'.binding? name)

namespace Scope.Conserves

/-- Nothing happens. -/
@[refl] theorem refl (s : Scope) : s.Conserves s := ⟨rfl, rfl, rfl, fun _ => .same _⟩

theorem trans {s s' s'' : Scope} (h : s.Conserves s') (h' : s'.Conserves s'') : s.Conserves s'' where
  name := h'.name.trans h.name
  parent := h'.parent.trans h.parent
  callSite := h'.callSite.trans h.callSite
  evolves name := (h.evolves name).trans (h'.evolves name)

/-- One binding turns. -/
theorem set {s : Scope} {name : String} {b b' : Binding} (hBinding : s.binding? name = some b)
    (h : b.Turns b') : s.Conserves (s.set name (some b')) := by
  refine ⟨rfl, rfl, rfl, fun n => ?_⟩
  show Evolves (s.binding? n) (if n = name then some b' else s.binding? n)
  split
  · rename_i hName
    rw [hName, hBinding]
    exact .turned h
  · exact .same _

/-- One binding was turned, and is as it was before. -/
theorem unset {s : Scope} {name : String} {b b' : Binding} (hBinding : s.binding? name = some b')
    (h : b.Turns b') : (s.set name (some b)).Conserves s := by
  refine ⟨rfl, rfl, rfl, fun n => ?_⟩
  show Evolves (if n = name then some b else s.binding? n) (s.binding? n)
  split
  · rename_i hName
    rw [hName, hBinding]
    exact .turned h
  · exact .same _

end Scope.Conserves

/-- The frame binds the same names, and everything but the bindings is as it was. -/
structure Scope.SameNames (s s' : Scope) : Prop where
  name : s'.name = s.name
  parent : s'.parent = s.parent
  callSite : s'.callSite = s.callSite
  names : ∀ name, (s'.binding? name).isSome = (s.binding? name).isSome

namespace Scope.SameNames

@[refl] theorem refl (s : Scope) : s.SameNames s := ⟨rfl, rfl, rfl, fun _ => rfl⟩

theorem trans {s s' s'' : Scope} (h : s.SameNames s') (h' : s'.SameNames s'') :
    s.SameNames s'' where
  name := h'.name.trans h.name
  parent := h'.parent.trans h.parent
  callSite := h'.callSite.trans h.callSite
  names name := (h'.names name).trans (h.names name)

theorem symm {s s' : Scope} (h : s.SameNames s') : s'.SameNames s where
  name := h.name.symm
  parent := h.parent.symm
  callSite := h.callSite.symm
  names name := (h.names name).symm

end Scope.SameNames

/-- Names are neither added nor removed. -/
theorem Scope.Conserves.sameNames {s s' : Scope} (h : s.Conserves s') : s.SameNames s' := by
  refine ⟨h.name, h.parent, h.callSite, ?_⟩
  intro name
  exact (h.evolves name).isSome_eq

-- ---------------------------------------------------------------------------
-- Stores
-- ---------------------------------------------------------------------------

namespace Store

/-- The search goes from frame to frame outwards, and stops where the name is bound. -/
theorem binding?_of_resolveLoop {s : Store} {name : String} {fuel : Nat} {frame f : FrameId}
    {b : Binding} (h : s.resolveLoop name fuel frame = some (f, b)) :
    s.binding? f name = some b := by
  induction fuel generalizing frame with
  | zero => cases h
  | succ fuel ih =>
    unfold resolveLoop at h
    split at h
    · cases h
    · rename_i made hMade
      split at h
      · rename_i found hFound
        cases h
        unfold binding?
        rw [hMade]
        exact hFound
      -- Not bound here, so it has been found in a frame further out.
      · obtain ⟨parent, -, hOutward⟩ := Option.bind_eq_some_iff.mp h
        exact ih hOutward

/-- What a name is resolved to is its binding in the frame that it is found in. -/
theorem binding?_of_resolve? {s : Store} {frame f : FrameId} {name : String} {b : Binding}
    (h : s.resolve? frame name = some (f, b)) : s.binding? f name = some b :=
  binding?_of_resolveLoop h

/-- Only frames that are there bind names. -/
theorem lt_nextFrame_of_binding? {s : Store} {f : FrameId} {name : String} {b : Binding}
    (h : s.binding? f name = some b) : f < s.nextFrame := by
  rw [binding?_eq] at h
  obtain ⟨sc, hScope, -⟩ := Option.bind_eq_some_iff.mp h
  exact (s.scope?_isSome_iff f).mp (hScope ▸ rfl)

/-- What may become of the first `n` frames, once they are complete. -/
structure Conserves (n : Nat) (s t : Store) : Prop where
  nextFrame : s.nextFrame ≤ t.nextFrame
  scopes : ∀ f < n, ∀ sc, s.scope? f = some sc → ∃ sc', t.scope? f = some sc' ∧ sc.Conserves sc'

namespace Conserves

variable {n : Nat} {s t u : Store}

@[refl] theorem refl (n : Nat) (s : Store) : Conserves n s s := by
  refine ⟨Nat.le_refl _, ?_⟩
  intro _ _ sc h
  exact ⟨sc, h, .refl sc⟩

theorem trans (h : Conserves n s t) (h' : Conserves n t u) : Conserves n s u where
  nextFrame := Nat.le_trans h.nextFrame h'.nextFrame
  scopes f hf sc hs := by
    obtain ⟨sc', ht, hFirst⟩ := h.scopes f hf sc hs
    obtain ⟨sc'', hu, hSecond⟩ := h'.scopes f hf sc' ht
    exact ⟨sc'', hu, hFirst.trans hSecond⟩

theorem mono {m : Nat} (h : Conserves n s t) (hm : m ≤ n) : Conserves m s t := by
  refine ⟨h.nextFrame, ?_⟩
  intro f hf
  exact h.scopes f (Nat.lt_of_lt_of_le hf hm)

/-- The same frames are there. -/
theorem of_scopes (hFrames : s.nextFrame ≤ t.nextFrame)
    (h : ∀ f < n, t.scope? f = s.scope? f) : Conserves n s t := by
  refine ⟨hFrames, ?_⟩
  intro f hf sc hs
  exact ⟨sc, (h f hf).trans hs, .refl sc⟩

/-- What may become of one name of one frame. -/
theorem evolves (h : Conserves n s t) {f : FrameId} (hf : f < n) (hMade : f < s.nextFrame)
    (name : String) : Evolves (s.binding? f name) (t.binding? f name) := by
  obtain ⟨sc, hs⟩ := Option.isSome_iff_exists.mp ((s.scope?_isSome_iff f).mpr hMade)
  obtain ⟨sc', ht, hScope⟩ := h.scopes f hf sc hs
  rw [binding?_eq, binding?_eq, hs, ht]
  exact hScope.evolves name

end Conserves

/-- The last `n` changes that were logged can be undone, and each of them was a binding that turned
into another one. -/
def Logged : Nat → Store → Prop
  | 0, _ => True
  | n + 1, s =>
    (∃ u b b', s.trail.back? = some u ∧ u.previous = some b ∧
      s.binding? u.frame u.name = some b' ∧ b.Turns b') ∧ Logged n s.undoLast

/-- All that was logged are bindings that turned into others, in frames that are logged. -/
structure Regular (s : Store) : Prop where
  watermark : s.watermark ≤ s.nextFrame
  marked : ∀ u ∈ s.trail.toList, u.frame < s.watermark
  logged : Logged s.trail.size s

/-- What is logged is told by the trail and the frames that are in it. -/
theorem Logged.congr {n w : Nat} {s t : Store} (h : Logged n s) (hTrail : s.trail = t.trail)
    (hMarked : ∀ u ∈ s.trail.toList, u.frame < w) (hScopes : ∀ f < w, s.scope? f = t.scope? f) :
    Logged n t := by
  induction n generalizing s t with
  | zero => trivial
  | succ n ih =>
    obtain ⟨⟨u, b, b', hBack, hPrevious, hBinding, hTurns⟩, hRest⟩ := h
    -- The entry concerns one of the frames on which the two stores agree.
    have hLast : u.frame < w := by
      refine hMarked u (Array.mem_toList_iff.mpr ?_)
      exact Array.mem_of_back? hBack
    refine ⟨⟨u, b, b', hTrail ▸ hBack, hPrevious, ?_, hTurns⟩, ?_⟩
    · rw [binding?_eq, ← hScopes _ hLast, ← binding?_eq]
      exact hBinding
    · refine ih hRest ?_ ?_ ?_
      · rw [trail_undoLast, trail_undoLast, hTrail]
      · intro v hv
        rw [trail_undoLast, Array.toList_pop] at hv
        exact hMarked v ((List.dropLast_sublist _).subset hv)
      · exact fun f hf => scope?_undo_congr (P := (· < w)) 1 hTrail hScopes hf

/-- The later ones of the changes. -/
theorem Logged.of_add {m n : Nat} {s : Store} (h : Logged (m + n) s) : Logged m s := by
  induction m generalizing s with
  | zero => trivial
  | succ m ih =>
    rw [Nat.succ_add] at h
    exact ⟨h.1, ih h.2⟩

/-- The earlier ones of the changes, once the later ones are undone. -/
theorem Logged.undo {m n : Nat} {s : Store} (h : Logged (m + n) s) : Logged n (undo m s) := by
  induction m generalizing s with
  | zero =>
    rw [Nat.zero_add] at h
    exact h
  | succ m ih =>
    rw [Nat.succ_add] at h
    exact ih h.2

/-- The last change that was logged is undone. -/
theorem Logged.conserves_undoLast {n : Nat} {s : Store} (h : Logged (n + 1) s) (m : Nat) :
    Conserves m s.undoLast s := by
  obtain ⟨⟨u, b, b', hBack, hPrevious, hBinding, hTurns⟩, -⟩ := h
  refine ⟨Nat.le_of_eq s.nextFrame_undoLast, fun f _ sc hUndone => ?_⟩
  have hScope : s.undoLast.scope? f =
      if f = u.frame then (s.scope? f).map (·.set u.name u.previous) else s.scope? f := by
    unfold undoLast
    rw [hBack]
    exact scope?_put _ _ _ _ _
  -- Only the frame that the entry names is touched, and there the turn is reversed.
  rw [hScope] at hUndone
  split at hUndone
  · rename_i hFrame
    subst hFrame
    cases hs : s.scope? u.frame with
    | none =>
      rw [hs] at hUndone
      cases hUndone
    | some sc' =>
      rw [hs] at hUndone
      cases hUndone
      rw [binding?_eq, hs] at hBinding
      refine ⟨sc', rfl, ?_⟩
      rw [hPrevious]
      exact .unset hBinding hTurns
  · exact ⟨sc, hUndone, .refl sc⟩

/-- All of them are undone, the last one first. -/
theorem Logged.conserves_undo {n : Nat} {s : Store} (h : Logged n s) (m : Nat) :
    Conserves m (Store.undo n s) s := by
  induction n generalizing s with
  | zero => exact .refl m s
  | succ n ih => exact (ih h.2).trans (h.conserves_undoLast m)

namespace Regular

variable {s : Store}

/-- Going back to an earlier moment goes back to what the bindings have come from. -/
theorem conserves_unwindTo (h : s.Regular) (n m : Nat) : Conserves m (s.unwindTo n) s := by
  have hSplit : (s.trail.size - n) + (s.trail.size - (s.trail.size - n)) = s.trail.size := by omega
  have hLogged : Logged (s.trail.size - n) s := (hSplit ▸ h.logged : Logged _ s).of_add
  exact hLogged.conserves_undo m

theorem unwindTo (h : s.Regular) (n : Nat) : (s.unwindTo n).Regular where
  watermark := by
    rw [watermark_unwindTo, nextFrame_unwindTo]
    exact h.watermark
  marked u hu := by
    rw [watermark_unwindTo]
    rw [trail_unwindTo] at hu
    exact h.marked u (List.mem_of_mem_take hu)
  logged := by
    have hSize : (s.unwindTo n).trail.size = s.trail.size - (s.trail.size - n) :=
      size_trail_undo _ _
    have hSplit : (s.trail.size - n) + (s.trail.size - (s.trail.size - n)) = s.trail.size := by omega
    rw [hSize]
    refine Logged.undo ?_
    rw [hSplit]
    exact h.logged

/-- To mark a moment logs nothing. -/
theorem mark (h : s.Regular) : s.mark.Regular where
  watermark := Nat.max_le.mpr ⟨h.watermark, Nat.le_refl _⟩
  marked u hu := Nat.lt_of_lt_of_le (h.marked u hu) (Nat.le_max_left _ _)
  logged := h.logged.congr rfl h.marked fun _ _ => rfl

/-- Where nothing is logged there is nothing to be said. -/
theorem forget (s : Store) : s.forget.Regular where
  watermark := Nat.zero_le _
  marked _ hu := absurd hu List.not_mem_nil
  logged := trivial

/-- A new frame is not logged yet. -/
theorem newFrame (h : s.Regular) (name : String) (parent : Option FrameId)
    (callSite : Option Span) : (s.newFrame name parent callSite).Regular where
  watermark := by
    rw [nextFrame_newFrame]
    exact Nat.le_succ_of_le h.watermark
  marked := h.marked
  logged := by
    refine h.logged.congr rfl h.marked fun f hf => ?_
    rw [scope?_newFrame, if_neg (Nat.ne_of_lt (Nat.lt_of_lt_of_le hf h.watermark))]

/-- A change in a frame that is not logged. -/
theorem write_young (h : s.Regular) {f : FrameId} (hf : s.watermark ≤ f) (name : String)
    (b : Binding) : (s.write f name b).Regular := by
  have hWrite : s.write f name b = s.put f name (some b) := by
    unfold write
    dsimp only
    rw [if_neg (show ¬ f < (s.put f name (some b)).watermark from Nat.not_lt.mpr hf)]
  rw [hWrite]
  refine ⟨?_, h.marked, h.logged.congr rfl h.marked fun g hg => ?_⟩
  · rw [nextFrame_put]
    exact h.watermark
  · rw [scope?_put, if_neg]
    exact Nat.ne_of_lt (Nat.lt_of_lt_of_le hg hf)

/-- A binding turns. -/
theorem write_turn (h : s.Regular) {f : FrameId} {name : String} {b b' : Binding}
    (hBinding : s.binding? f name = some b) (hTurns : b.Turns b') :
    (s.write f name b').Regular := by
  -- a write below the watermark is logged, and what it undoes is a turn
  rcases Nat.lt_or_ge f s.watermark with hf | hf
  · have hWrite := write_of_lt hf name b'
    rw [hBinding] at hWrite
    have hNew : (s.write f name b').binding? f name = some b' := by
      rw [binding?_eq] at hBinding ⊢
      rw [scope?_write, if_pos rfl]
      cases hScope : s.scope? f with
      | none =>
        rw [hScope] at hBinding
        cases hBinding
      | some sc => exact if_pos rfl
    refine ⟨?_, ?_, ?_⟩
    · rw [nextFrame_write, hWrite]
      exact h.watermark
    · intro u hu
      rw [hWrite] at hu ⊢
      rw [Array.toList_push, List.mem_append, List.mem_singleton] at hu
      rcases hu with hu | rfl
      · exact h.marked u hu
      · exact hf
    · have hSize : (s.write f name b').trail.size = s.trail.size + 1 := by
        rw [hWrite]
        exact Array.size_push _
      rw [hSize]
      refine ⟨⟨⟨f, name, some b⟩, b, b', ?_, rfl, hNew, hTurns⟩, ?_⟩
      · rw [hWrite]
        exact Array.back?_push
      · -- without the new entry the trail is as before, and so is every frame
        refine h.logged.congr ?_ h.marked fun g _ => (scope?_undoLast_write hf name b' g).symm
        rw [trail_undoLast, hWrite]
        exact Array.pop_push.symm
  · exact h.write_young hf name b'

end Regular

-- ---------------------------------------------------------------------------
-- Changes
-- ---------------------------------------------------------------------------

@[simp] theorem watermark_write (s : Store) (f : FrameId) (name : String) (b : Binding) :
    (s.write f name b).watermark = s.watermark := by
  unfold write
  dsimp only
  split <;> rfl

/-- Frames from the `n`-th on are none of the first `n`. -/
theorem conserves_write_young (s : Store) {n : Nat} {f : FrameId} (hf : n ≤ f) (name : String)
    (b : Binding) : Conserves n s (s.write f name b) := by
  refine .of_scopes (Nat.le_of_eq (s.nextFrame_write f name b).symm) fun g hg => ?_
  rw [scope?_write, if_neg (Nat.ne_of_lt (Nat.lt_of_lt_of_le hg hf))]

/-- A binding turns. -/
theorem conserves_write_turn {s : Store} {f : FrameId} {name : String} {b b' : Binding}
    (hBinding : s.binding? f name = some b) (hTurns : b.Turns b') (n : Nat) :
    Conserves n s (s.write f name b') := by
  refine ⟨Nat.le_of_eq (s.nextFrame_write f name b').symm, fun g _ sc hs => ?_⟩
  rw [scope?_write, hs]
  split
  · rename_i hg
    subst hg
    rw [binding?_eq, hs] at hBinding
    exact ⟨_, rfl, .set hBinding hTurns⟩
  · exact ⟨sc, rfl, .refl sc⟩

/-- A new frame is none of those that were there. -/
theorem conserves_newFrame (s : Store) {n : Nat} (hn : n ≤ s.nextFrame) (name : String)
    (parent : Option FrameId) (callSite : Option Span) :
    Conserves n s (s.newFrame name parent callSite) := by
  refine .of_scopes (by rw [nextFrame_newFrame]; exact Nat.le_succ _) fun g hg => ?_
  rw [scope?_newFrame, if_neg (Nat.ne_of_lt (Nat.lt_of_lt_of_le hg hn))]

theorem conserves_mark (s : Store) (n : Nat) : Conserves n s s.mark :=
  .of_scopes (Nat.le_refl _) fun _ _ => rfl

theorem conserves_forget (s : Store) (n : Nat) : Conserves n s s.forget :=
  .of_scopes (Nat.le_refl _) fun _ _ => rfl

-- ---------------------------------------------------------------------------
-- Constants that stay
-- ---------------------------------------------------------------------------

/-- The name is a constant of the frame, and no change of it can be undone. -/
structure Fixed (s : Store) (f : FrameId) (name : String) (v : Value) : Prop where
  binding : s.binding? f name = some (.ofValue v true)
  unlogged : ∀ u ∈ s.trail.toList, ¬ (f = u.frame ∧ name = u.name)

/-- Another binding is as it was. -/
theorem binding?_put_of_ne {s : Store} {f g : FrameId} {name other : String}
    (h : ¬ (f = g ∧ name = other)) (b : Option Binding) :
    (s.put g other b).binding? f name = s.binding? f name := by
  rw [binding?_eq, binding?_eq, scope?_put]
  split
  · rename_i hFrame
    have hName : name ≠ other := fun hName => h ⟨hFrame, hName⟩
    cases s.scope? f with
    | none => rfl
    | some sc => exact if_neg hName
  · rfl

theorem binding?_write_of_ne {s : Store} {f g : FrameId} {name other : String}
    (h : ¬ (f = g ∧ name = other)) (b : Binding) :
    (s.write g other b).binding? f name = s.binding? f name := by
  rw [binding?_eq, scope?_write, ← scope?_put, ← binding?_eq]
  exact binding?_put_of_ne h (some b)

/-- Of the frame that is written to, only the name that is written changes. -/
theorem binding?_write_self {s : Store} {frame : FrameId} (hMade : frame < s.nextFrame)
    (name : String) (b : Binding) (n : String) :
    (s.write frame name b).binding? frame n = if n = name then some b else s.binding? frame n := by
  obtain ⟨sc, hs⟩ := Option.isSome_iff_exists.mp ((s.scope?_isSome_iff frame).mpr hMade)
  rw [binding?_eq, binding?_eq, scope?_write, if_pos rfl, hs]
  rfl

namespace Fixed

variable {s : Store} {f : FrameId} {name : String} {v : Value}

/-- A change of another binding. -/
theorem write (h : s.Fixed f name v) {g : FrameId} {other : String}
    (hOther : ¬ (f = g ∧ name = other)) (b : Binding) : (s.write g other b).Fixed f name v := by
  refine ⟨(binding?_write_of_ne hOther b).trans h.binding, fun u hu => ?_⟩
  rcases mem_trail_write hu with hOld | rfl
  · exact h.unlogged u hOld
  · exact hOther

/-- A binding turns, which cannot be this one. -/
theorem write_turn (h : s.Fixed f name v) {g : FrameId} {other : String} {b b' : Binding}
    (hBinding : s.binding? g other = some b) (hTurns : b.Turns b') :
    (s.write g other b').Fixed f name v := by
  refine h.write ?_ b'
  rintro ⟨rfl, rfl⟩
  rw [h.binding] at hBinding
  cases hBinding
  cases hTurns with
  | defined hSlot => cases hSlot

/-- A frame is made. -/
theorem newFrame (h : s.Fixed f name v) (frameName : String) (parent : Option FrameId)
    (callSite : Option Span) : (s.newFrame frameName parent callSite).Fixed f name v := by
  refine ⟨?_, h.unlogged⟩
  have hMade : f < s.nextFrame := lt_nextFrame_of_binding? h.binding
  rw [binding?_eq, scope?_newFrame, if_neg (Nat.ne_of_lt hMade), ← binding?_eq]
  exact h.binding

/-- The last change is undone, which was not one of this constant. -/
theorem undoLast (h : s.Fixed f name v) : s.undoLast.Fixed f name v := by
  constructor
  · unfold Store.undoLast
    split
    · exact h.binding
    · rename_i u hBack
      have hOther := h.unlogged u (Array.mem_toList_iff.mpr (Array.mem_of_back? hBack))
      exact (binding?_put_of_ne (s := { s with trail := s.trail.pop }) hOther _).trans h.binding
  · intro u hu
    rw [trail_undoLast, Array.toList_pop] at hu
    exact h.unlogged u ((List.dropLast_sublist _).subset hu)

/-- No change that is undone was one of this constant. -/
theorem unwindTo (h : s.Fixed f name v) (n : Nat) : (s.unwindTo n).Fixed f name v := by
  unfold Store.unwindTo
  generalize s.trail.size - n = k
  induction k generalizing s with
  | zero => exact h
  | succ k ih => exact ih h.undoLast

end Fixed

/-- Where no moment can be returned to any more, every constant stays. -/
theorem fixed_forget {s : Store} {f : FrameId} {name : String} {v : Value}
    (h : s.binding? f name = some (.ofValue v true)) : s.forget.Fixed f name v :=
  ⟨h, fun _ hu => absurd hu List.not_mem_nil⟩

-- ---------------------------------------------------------------------------
-- What lasts
-- ---------------------------------------------------------------------------

/-- What holds between the store of a context and any later one: frames are only added, they keep
their names, and what is fixed stays. -/
structure Carries (s t : Store) : Prop where
  regular : t.Regular
  nextFrame : s.nextFrame ≤ t.nextFrame
  names : ∀ f sc, s.scope? f = some sc → ∃ sc', t.scope? f = some sc' ∧ sc.SameNames sc'
  fixed : ∀ f name v, s.Fixed f name v → t.Fixed f name v

namespace Carries

variable {s t u : Store}

/-- A regular store carries over to itself. -/
theorem refl {s : Store} (h : s.Regular) : Carries s s := by
  refine ⟨h, Nat.le_refl _, ?_, ?_⟩
  · intro _ sc hs
    exact ⟨sc, hs, .refl sc⟩
  · intro _ _ _ hFixed
    exact hFixed

/-- What lasts from one store to the next lasts through all of them. -/
theorem trans (h : Carries s t) (h' : Carries t u) : Carries s u where
  regular := h'.regular
  nextFrame := Nat.le_trans h.nextFrame h'.nextFrame
  names f sc hs := by
    obtain ⟨sc', ht, hFirst⟩ := h.names f sc hs
    obtain ⟨sc'', hu, hSecond⟩ := h'.names f sc' ht
    exact ⟨sc'', hu, hFirst.trans hSecond⟩
  fixed f name v hFixed := h'.fixed f name v (h.fixed f name v hFixed)

/-- The store has gone back. -/
theorem unwindTo (h : s.Regular) (n : Nat) : Carries s (s.unwindTo n) where
  regular := h.unwindTo n
  nextFrame := Nat.le_of_eq (s.nextFrame_unwindTo n).symm
  names f sc hs := by
    have hBack : ((s.unwindTo n).scope? f).isSome := by
      rw [scope?_isSome_iff, nextFrame_unwindTo, ← scope?_isSome_iff]
      exact hs ▸ rfl
    obtain ⟨sc', hs'⟩ := Option.isSome_iff_exists.mp hBack
    obtain ⟨sc'', hs'', hConserves⟩ :=
      (h.conserves_unwindTo n (f + 1)).scopes f (Nat.lt_succ_self f) sc' hs'
    rw [hs] at hs''
    cases hs''
    exact ⟨sc', hs', hConserves.sameNames.symm⟩
  fixed _ _ _ hFixed := hFixed.unwindTo n

/-- A moment is marked. -/
theorem mark (h : s.Regular) : Carries s s.mark := by
  refine ⟨h.mark, Nat.le_refl _, ?_, ?_⟩
  · intro _ sc hs
    exact ⟨sc, hs, .refl sc⟩
  · intro _ _ _ hFixed
    exact ⟨hFixed.binding, hFixed.unlogged⟩

/-- The trail is dropped, and with it the way back. -/
theorem forget (s : Store) : Carries s s.forget := by
  refine ⟨.forget s, Nat.le_refl _, ?_, ?_⟩
  · intro _ sc hs
    exact ⟨sc, hs, .refl sc⟩
  · intro _ _ _ hFixed
    exact fixed_forget hFixed.binding

/-- A name is there, or it is not, as before. -/
theorem isSome_binding? (h : Carries s t) {f : FrameId} (hMade : f < s.nextFrame) (name : String) :
    (t.binding? f name).isSome = (s.binding? f name).isSome := by
  obtain ⟨sc, hs⟩ := Option.isSome_iff_exists.mp ((s.scope?_isSome_iff f).mpr hMade)
  obtain ⟨sc', ht, hNames⟩ := h.names f sc hs
  rw [binding?_eq, binding?_eq, hs, ht]
  exact hNames.names name

/-- A frame of fixed constants has the same bindings ever after. -/
theorem binding?_eq_of_fixed (h : Carries s t) {f : FrameId} (hMade : f < s.nextFrame)
    (hFixed : ∀ name b, s.binding? f name = some b → ∃ v, s.Fixed f name v) (name : String) :
    t.binding? f name = s.binding? f name := by
  cases hBefore : s.binding? f name with
  | none =>
    have hNames := h.isSome_binding? hMade name
    rw [hBefore] at hNames
    exact Option.not_isSome_iff_eq_none.mp (by rw [hNames]; exact Bool.false_ne_true)
  | some b =>
    obtain ⟨v, hv⟩ := hFixed name b hBefore
    rw [← hBefore, hv.binding]
    exact (h.fixed f name v hv).binding

end Carries

end Store

end AmbScript
