import AmbScript.Proofs.Orphan.Renumbering
import AmbScript.Proofs.Reach.Frames

/-!
# Contexts with one more frame

Of two contexts one has a frame more, which nothing refers to; else they are the same, but that all
later frames have other numbers. Whatever is done to the one can be done to the other, and they
still are the same in this way.

* `Store.Shifted`, `Context.Shifted` — the relation; `Store.Shifted.write`,
  `Store.Shifted.newFrame`, `Store.Shifted.unwindTo` and so on keep it.
* `Store.Grounded` — frames are younger than the frames around them, so that the search for a name
  looks at all of these; `Store.Shifted.resolve?` is what it comes to.

The store searches a name with as much fuel as the number of the frame it starts from. With one more
frame there is more fuel on one side than on the other, so `resolveLoop` is about any two amounts
that suffice. This is the only thing `Grounded` is for.
-/

namespace AmbScript

variable {k : FrameId} {v : Bool}

-- ---------------------------------------------------------------------------
-- Scopes of older frames
-- ---------------------------------------------------------------------------

section

variable {w : Renaming} (hOld : ∀ f g, w.frames.Pairs f g → f < k)
include hOld

/-- A binding that only refers to older frames keeps all numbers. -/
theorem Binding.Alike.renumber_eq_self {b b' : Binding} (h : b.Alike w b') : b.renumber k = b := by
  cases h with
  | placeholder isConst => rfl
  | value h isConst => exact congrArg (fun u => Binding.mk (.value u) isConst) (h.renumber_eq_self hOld)

/-- Scopes that only refer to older frames keep all numbers. -/
theorem Scope.Alike.renumber_eq_self {f g : FrameId} {s s' : Scope} (h : s.Alike w f g s') :
    s.renumber k = s := by
  -- all frames that the scope refers to are older than the orphan
  have hParent : s.parent.map (past k) = s.parent := by
    have hAround := h.parent
    generalize s.parent = p, s'.parent = q at hAround ⊢
    cases hAround with
    | some hPair => exact congrArg some (past_of_lt (hOld _ _ hPair.1))
    | none => rfl
  have hBinding (name : String) :
      (s.binding? name).map (Binding.renumber k) = s.binding? name := by
    have hBound := h.binding name
    generalize s.binding? name = b, s'.binding? name = b' at hBound ⊢
    cases hBound with
    | some hAlike => exact congrArg some (hAlike.renumber_eq_self hOld)
    | none => rfl
  unfold Scope.renumber
  rw [hParent, funext hBinding]

end

namespace Store

/-- Frames are younger than the frames around them. -/
def Grounded (s : Store) : Prop :=
  ∀ f scope p, s.scope? f = some scope → scope.parent = some p → p < f

/-- `t` is the store `s` with one more frame, the one with the number `k`. -/
structure Shifted (k : FrameId) (s t : Store) : Prop where
  /-- The global frame is older. -/
  positive : 0 < k
  old : k ≤ s.nextFrame
  nextFrame : t.nextFrame = s.nextFrame + 1
  scopes (f : FrameId) : t.scope? (past k f) = (s.scope? f).map (Scope.renumber k)
  trail : t.trail = s.trail.map (Undo.renumber k)
  watermark : t.watermark = past k s.watermark

-- ---------------------------------------------------------------------------
-- Frames that are grounded
-- ---------------------------------------------------------------------------

/-- It is enough that every frame has the surroundings it had before. -/
theorem Grounded.of_scopes {s t : Store} (h : s.Grounded)
    (hScopes : ∀ f scope, t.scope? f = some scope →
      ∃ scope', s.scope? f = some scope' ∧ scope.parent = scope'.parent) : t.Grounded := by
  intro f scope p hScope hParent
  obtain ⟨scope', hScope', hSame⟩ := hScopes f scope hScope
  exact h f scope' p hScope' (hSame ▸ hParent)

/-- A binding does not change what is around a frame. -/
theorem Grounded.put {s : Store} (h : s.Grounded) (f : FrameId) (name : String)
    (b : Option Binding) : (s.put f name b).Grounded := by
  refine h.of_scopes fun g scope hScope => ?_
  rw [scope?_put] at hScope
  split at hScope
  · obtain ⟨scope', hScope', rfl⟩ := Option.map_eq_some_iff.mp hScope
    exact ⟨scope', hScope', rfl⟩
  · exact ⟨scope, hScope, rfl⟩

theorem Grounded.undoLast {s : Store} (h : s.Grounded) : s.undoLast.Grounded := by
  unfold Store.undoLast
  split
  · exact h
  · exact Grounded.put (s := { s with trail := s.trail.pop }) h _ _ _

/-- Going back does not change which frames there are. -/
theorem Grounded.unwindTo {s : Store} (h : s.Grounded) (n : Nat) : (s.unwindTo n).Grounded := by
  have hUndo (m : Nat) : (undo m s).Grounded := by
    induction m generalizing s with
    | zero => exact h
    | succ m ih => exact ih h.undoLast
  exact hUndo _

-- ---------------------------------------------------------------------------
-- Changes of the store
-- ---------------------------------------------------------------------------

namespace Shifted

variable {s t : Store}

/-- Bindings are renumbered. -/
theorem binding? (h : Shifted k s t) (f : FrameId) (name : String) :
    t.binding? (past k f) name = (s.binding? f name).map (Binding.renumber k) := by
  rw [binding?_eq, binding?_eq, h.scopes]
  cases s.scope? f <;> rfl

/-- A binding is put into the frame that corresponds. -/
theorem put (h : Shifted k s t) (f : FrameId) (name : String) (b : Option Binding) :
    Shifted k (s.put f name b) (t.put (past k f) name (b.map (Binding.renumber k))) where
  positive := h.positive
  old := by
    rw [nextFrame_put]
    exact h.old
  nextFrame := by
    rw [nextFrame_put, nextFrame_put]
    exact h.nextFrame
  scopes g := by
    rw [scope?_put, scope?_put, h.scopes]
    by_cases hSame : g = f
    · rw [if_pos hSame, if_pos (past_inj.mpr hSame)]
      cases s.scope? g with
      | none => rfl
      | some scope => exact congrArg some (scope.renumber_set name b).symm
    · rw [if_neg hSame, if_neg (mt past_inj.mp hSame)]
  trail := h.trail
  watermark := h.watermark

/-- A binding is written, and what was there before is noted in both stores or in neither. -/
theorem write (h : Shifted k s t) (f : FrameId) (name : String) (b : Binding) :
    Shifted k (s.write f name b) (t.write (past k f) name (b.renumber k)) := by
  have hPut := h.put f name (some b)
  unfold Store.write
  dsimp only
  -- The frame is older than the watermark in the one store just if it is in the other.
  by_cases hLogged : f < s.watermark
  · rw [if_pos (show f < (s.put f name (some b)).watermark from hLogged), if_pos]
    · refine ⟨hPut.positive, hPut.old, hPut.nextFrame, hPut.scopes, ?_, hPut.watermark⟩
      show t.trail.push _ = (s.trail.push _).map _
      rw [Array.map_push, ← h.trail, h.binding?]
      rfl
    · show past k f < t.watermark
      rw [h.watermark]
      exact past_lt_past.mpr hLogged
  · rw [if_neg (show ¬ f < (s.put f name (some b)).watermark from hLogged), if_neg]
    · exact hPut
    · show ¬ past k f < t.watermark
      rw [h.watermark]
      exact mt past_lt_past.mp hLogged

/-- The new frames correspond, as both come after all others. -/
theorem newFrame (h : Shifted k s t) (name : String) (p : Option FrameId)
    (callSite : Option Span) :
    Shifted k (s.newFrame name p callSite) (t.newFrame name (p.map (past k)) callSite) where
  positive := h.positive
  old := by
    rw [nextFrame_newFrame]
    exact Nat.le_succ_of_le h.old
  nextFrame := by rw [nextFrame_newFrame, nextFrame_newFrame, h.nextFrame]
  scopes f := by
    have hNew : t.nextFrame = past k s.nextFrame := h.nextFrame.trans (past_of_le h.old).symm
    rw [scope?_newFrame, scope?_newFrame, hNew, h.scopes]
    by_cases hSame : f = s.nextFrame
    · rw [if_pos hSame, if_pos (past_inj.mpr hSame)]
      rfl
    · rw [if_neg hSame, if_neg (mt past_inj.mp hSame)]
  trail := h.trail
  watermark := h.watermark

/-- The watermark is set to the next frame. -/
theorem mark (h : Shifted k s t) : Shifted k s.mark t.mark where
  positive := h.positive
  old := h.old
  nextFrame := h.nextFrame
  scopes := h.scopes
  trail := h.trail
  watermark := by
    show max t.watermark t.nextFrame = past k (max s.watermark s.nextFrame)
    rw [past_max, h.watermark, h.nextFrame, past_of_le h.old]

/-- There is nothing to go back to in either of them. -/
theorem forget (h : Shifted k s t) : Shifted k s.forget t.forget where
  positive := h.positive
  old := h.old
  nextFrame := h.nextFrame
  scopes := h.scopes
  trail := Array.map_empty.symm
  watermark := (past_of_lt h.positive).symm

/-- The last entry of the trail is taken back in both. -/
theorem undoLast (h : Shifted k s t) : Shifted k s.undoLast t.undoLast := by
  unfold Store.undoLast
  rw [h.trail, Array.back?_map]
  cases s.trail.back? with
  | none => exact h
  | some u =>
    have hShorter : Shifted k { s with trail := s.trail.pop } { t with trail := t.trail.pop } := by
      refine ⟨h.positive, h.old, h.nextFrame, h.scopes, ?_, h.watermark⟩
      show t.trail.pop = s.trail.pop.map _
      rw [h.trail, Array.map_pop]
    have hPut := hShorter.put u.frame u.name u.previous
    rw [h.trail] at hPut
    exact hPut

/-- Going back to a mark. -/
theorem unwindTo (h : Shifted k s t) (n : Nat) : Shifted k (s.unwindTo n) (t.unwindTo n) := by
  have hUndo (m : Nat) : Shifted k (undo m s) (undo m t) := by
    induction m generalizing s t with
    | zero => exact h
    | succ m ih => exact ih h.undoLast
  have hSize : t.trail.size = s.trail.size := by rw [h.trail, Array.size_map]
  unfold Store.unwindTo
  rw [hSize]
  exact hUndo _

-- ---------------------------------------------------------------------------
-- Names
-- ---------------------------------------------------------------------------

/-- A name is found in the same frame, renumbered, as long as no frame is left out. The induction is
on the fuel, which differs by the frame that is there once more. -/
theorem resolveLoop (h : Shifted k s t) (hGrounded : s.Grounded) (name : String) {m n : Nat}
    {f : FrameId} (hm : f < m) (hn : past k f < n) :
    t.resolveLoop name n (past k f) =
      (s.resolveLoop name m f).map fun x => (past k x.1, x.2.renumber k) := by
  induction m generalizing n f with
  | zero => exact absurd hm (Nat.not_lt_zero _)
  | succ m ih =>
    cases n with
    | zero => exact absurd hn (Nat.not_lt_zero _)
    | succ n =>
      have hScope := h.scopes f
      have hParent := hGrounded f
      unfold Store.scope? at hScope hParent
      rw [Store.resolveLoop, Store.resolveLoop]
      cases hF : s.frames[f]? with
      | none =>
        rw [hF, Option.map_none, Option.map_none, Option.map_eq_none_iff] at hScope
        rw [hScope]
        rfl
      | some F =>
        rw [hF, Option.map_some, Option.map_some] at hScope
        rw [hF] at hParent
        obtain ⟨G, hG, hSame⟩ := Option.map_eq_some_iff.mp hScope
        have hBinding : G.binding? name = (F.binding? name).map (Binding.renumber k) :=
          congrArg (fun scope => Scope.binding? scope name) hSame
        have hAround : G.parent = F.parent.map (past k) := congrArg Scope.parent hSame
        rw [hG]
        dsimp only
        rw [hBinding, hAround]
        cases F.binding? name with
        | some b => rfl
        | none =>
          cases hp : F.parent with
          | none => rfl
          | some p =>
            -- Here the search goes on outwards, and the fuel that is left suffices for the frame
            -- around.
            have hLess : p < f := hParent _ p rfl hp
            exact ih (Nat.lt_of_lt_of_le hLess (Nat.le_of_lt_succ hm))
              (Nat.lt_of_lt_of_le (past_lt_past.mpr hLess) (Nat.le_of_lt_succ hn))

/-- A name is found in the same frame, renumbered. -/
theorem resolve? (h : Shifted k s t) (hGrounded : s.Grounded) (f : FrameId) (name : String) :
    t.resolve? (past k f) name =
      (s.resolve? f name).map fun x => (past k x.1, x.2.renumber k) :=
  h.resolveLoop hGrounded name (Nat.lt_succ_self _) (Nat.lt_succ_self _)

end Shifted

end Store

-- ---------------------------------------------------------------------------
-- Contexts
-- ---------------------------------------------------------------------------

/-- `d` is the context `c` with one more frame, the one with the number `k`. Beyond that, the text
that was run last does not matter, and diagnostics may be listed with their elaborations because of
`v`. -/
structure Context.Shifted (k : FrameId) (v : Bool) (c d : Context) : Prop where
  store : c.store.Shifted k d.store
  rest : d = { c with
    store := d.store, inner := c.inner.map (past k), outer := c.outer.map (past k),
    verbose := c.verbose || v, source := d.source }

namespace Context.Shifted

variable {c d : Context}

theorem inner (h : c.Shifted k v d) : d.inner = c.inner.map (past k) := by rw [h.rest]

theorem outer (h : c.Shifted k v d) : d.outer = c.outer.map (past k) := by rw [h.rest]

theorem nextCell (h : c.Shifted k v d) : d.nextCell = c.nextCell := by rw [h.rest]

theorem errors (h : c.Shifted k v d) : d.errors = c.errors := by rw [h.rest]

theorem aborted (h : c.Shifted k v d) : d.aborted = c.aborted := by rw [h.rest]

theorem preludePending (h : c.Shifted k v d) : d.preludePending = c.preludePending := by
  rw [h.rest]

/-- The frame in force is the one that corresponds. -/
theorem current (h : c.Shifted k v d) : d.current = past k c.current := by
  unfold Context.current
  rw [h.inner, h.outer]
  cases c.inner with
  | cons f fs => rfl
  | nil =>
    cases c.outer with
    | cons f fs => rfl
    | nil => exact (past_of_lt h.store.positive).symm

/-- The same limits are exceeded. -/
theorem exceeded? (h : c.Shifted k v d) (span : Span) : d.exceeded? span = c.exceeded? span := by
  unfold Context.exceeded? exceeded?.overtime
  rw [h.rest]

theorem moment (h : c.Shifted k v d) : d.moment = c.moment := by
  unfold Context.moment
  rw [h.store.trail, Array.size_map, h.errors, h.inner, List.length_map]

/-- A change that neither looks at what differs between the two contexts nor touches it. -/
theorem change (h : c.Shifted k v d) {f : Context → Context}
    (hf : ∀ (e : Context) (store : Store) (inner outer : List FrameId) (verbose : Bool)
      (source : Source), f { e with store, inner, outer, verbose, source } =
        { f e with store, inner, outer, verbose, source }) : (f c).Shifted k v (f d) := by
  have hLeft := hf c c.store c.inner c.outer c.verbose c.source
  have hRight := hf c d.store (c.inner.map (past k)) (c.outer.map (past k)) (c.verbose || v) d.source
  rw [← h.rest] at hRight
  rw [show f c = _ from hLeft, hRight]
  exact ⟨h.store, rfl⟩

/-- A change of the store alone. -/
theorem withStore (h : c.Shifted k v d) {s t : Store} (hStore : s.Shifted k t) :
    Shifted k v { c with store := s } { d with store := t } := by
  refine ⟨hStore, ?_⟩
  have hRest := h.rest
  rw [hRest]

/-- A frame is made in both contexts. -/
theorem newFrame (h : c.Shifted k v d) (name : String) (p : FrameId) (callSite : Option Span) :
    (c.newFrame name p callSite).Shifted k v (d.newFrame name (past k p) callSite) :=
  h.withStore (h.store.newFrame name (some p) callSite)

theorem enter (h : c.Shifted k v d) (f : FrameId) :
    (c.enter f).Shifted k v (d.enter (past k f)) := by
  refine ⟨h.store, ?_⟩
  have hRest := h.rest
  rw [hRest]
  rfl

theorem leave (h : c.Shifted k v d) : c.leave.Shifted k v d.leave := by
  refine ⟨h.store, ?_⟩
  have hRest := h.rest
  rw [hRest]
  simp only [Context.leave, List.map_tail]

theorem checkpoint (h : c.Shifted k v d) : c.checkpoint.Shifted k v d.checkpoint :=
  h.withStore h.store.mark

/-- A context goes back to where a choice began. -/
theorem restore (h : c.Shifted k v d) (start : Checkpoint) :
    (c.restore start).Shifted k v (d.restore start) := by
  refine ⟨h.store.unwindTo _, ?_⟩
  have hRest := h.rest
  rw [hRest]
  simp only [Context.restore, List.length_map, List.map_drop]

/-- What is done before each run. -/
theorem prepare (h : c.Shifted k v d) (limits : Limits) :
    (c.prepare limits).Shifted k v (d.prepare limits) := by
  refine ⟨h.store.forget, ?_⟩
  have hRest := h.rest
  rw [hRest]
  rfl

end Context.Shifted

end AmbScript
