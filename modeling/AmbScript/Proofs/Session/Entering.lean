import AmbScript.Proofs.Scoping.Filling
import AmbScript.Proofs.Session.Library

/-!
# Entering a program

A program is entered if it declares no name twice at its top. Then its frame has just the names that
it declares, and is inside the frame that was the last one before. If the program declares a name
twice, it is not entered: a frame has been made, but nothing is inside it.

* `Program.Distinct` — no name is declared twice at the top of the program.
* `firstAgain?` — the name that cannot be declared again; `Eval.declareAll_eq_error` says so.
* `Program.start_eq_ok`, `Program.start_eq_redeclaration` — when a program is entered.
* `Program.holds_start` — the frame of a program that was entered.

Whether a program can be entered is decided by its text alone, since its names are declared in a
frame that was just made. `firstAgain?` finds the fault in the order in which names are declared,
which is the one that is reported.
-/

namespace AmbScript

open Eval Store

/-- No name is declared twice at the top of the program. -/
def Program.Distinct (p : Program) : Prop := (p.body.declarations.map Ident.name).Nodup

instance (p : Program) : Decidable p.Distinct := inferInstanceAs (Decidable (List.Nodup _))

-- ---------------------------------------------------------------------------
-- Hoisting
-- ---------------------------------------------------------------------------

/-- The first of the names that is there already: it is among the `seen` ones, or comes a second
time. -/
def firstAgain? (seen : List String) : List Ident → Option Ident
  | [] => none
  | name :: names =>
    if name.name ∈ seen then some name else firstAgain? (name.name :: seen) names

/-- There is no such name if all names are different, and none was there before. -/
theorem firstAgain?_eq_none_iff {seen : List String} {names : List Ident} :
    firstAgain? seen names = none ↔
      (names.map Ident.name).Nodup ∧ ∀ name ∈ names, name.name ∉ seen := by
  induction names generalizing seen with
  | nil => simp [firstAgain?]
  | cons name names ih =>
    rw [firstAgain?]
    by_cases hSeen : name.name ∈ seen
    · simp [hSeen]
    · rw [if_neg hSeen, ih, List.map_cons, List.nodup_cons, List.forall_mem_cons]
      refine ⟨fun ⟨hDistinct, hNew⟩ => ⟨⟨fun hAgain => ?_, hDistinct⟩, hSeen, fun other hMem =>
        fun hOther => hNew other hMem (List.mem_cons_of_mem _ hOther)⟩,
        fun ⟨⟨hOnce, hDistinct⟩, _, hNew⟩ => ⟨hDistinct, fun other hMem hOther => ?_⟩⟩
      · obtain ⟨other, hMem, hSame⟩ := List.mem_map.mp hAgain
        exact hNew other hMem (hSame ▸ List.mem_cons_self)
      · rcases List.mem_cons.mp hOther with hSame | hOther
        · exact hOnce (hSame ▸ List.mem_map_of_mem hMem)
        · exact hNew other hMem hOther

namespace Eval

variable {frame : FrameId} {c : Context}

/-- A name that is there already cannot be declared; declaring it once puts it there. -/
theorem declareAll_eq_error {seen : List String} {names : List Ident} {name : Ident}
    (hMade : frame < c.store.nextFrame)
    (hSeen : ∀ n, (c.store.binding? frame n).isSome ↔ n ∈ seen)
    (h : firstAgain? seen names = some name) :
    ∃ s, declareAll frame names c =
      .error (.variableRedeclaration name.name name.span) { c with store := s } := by
  induction names generalizing c seen with
  | nil => cases h
  | cons head names ih =>
    rw [firstAgain?] at h
    split at h
    · rename_i hThere
      cases h
      obtain ⟨b, hBinding⟩ := Option.isSome_iff_exists.mp ((hSeen name.name).mpr hThere)
      have hDeclare : declare frame name c =
          .error (.variableRedeclaration name.name name.span) c := by
        refine (get_bind _ c).trans ?_
        rw [hBinding]
        rfl
      exact ⟨c.store, bind_of_error hDeclare _⟩
    · rename_i hNew
      have hBinding : c.store.binding? frame head.name = none :=
        Option.not_isSome_iff_eq_none.mp fun hThere => hNew ((hSeen head.name).mp hThere)
      let c₁ : Context := { c with store := c.store.write frame head.name .placeholder }
      have hDeclare : declare frame head c = .ok () c₁ := by
        refine (get_bind _ c).trans ?_
        rw [hBinding]
        rfl
      -- From here on the name that was just declared is there, too.
      have hSeen₁ (n : String) : (c₁.store.binding? frame n).isSome ↔ n ∈ head.name :: seen := by
        have hNames : c₁.store.binding? frame n =
            if n = head.name then some .placeholder else c.store.binding? frame n :=
          binding?_write_self hMade _ _ n
        rw [hNames, List.mem_cons, ← hSeen]
        split <;> simp_all
      obtain ⟨s, hError⟩ := ih (c := c₁) ((nextFrame_write _ _ _ _).symm ▸ hMade) hSeen₁ h
      exact ⟨s, (bind_of_ok hDeclare _).trans hError⟩

end Eval

-- ---------------------------------------------------------------------------
-- Programs
-- ---------------------------------------------------------------------------

/-- The frame `f` is that of the program, inside `parent`. -/
def Store.HoldsProgram (s : Store) (p : Program) (f parent : FrameId) : Prop :=
  ∃ sc, s.scope? f = some sc ∧ sc.name = "programEnvironment" ∧ sc.parent = some parent ∧
    ∀ n, (sc.binding? n).isSome ↔ n ∈ p.body.declarations.map Ident.name

/-- The frame of a program stays what it is. -/
theorem Store.HoldsProgram.carries {s t : Store} {p : Program} {f parent : FrameId}
    (h : s.HoldsProgram p f parent) (hCarries : s.Carries t) : t.HoldsProgram p f parent := by
  obtain ⟨sc, hsc, hName, hParent, hNames⟩ := h
  obtain ⟨sc', hsc', hSame⟩ := hCarries.names f sc hsc
  refine ⟨sc', hsc', hSame.name.trans hName, hSame.parent.trans hParent, fun n => ?_⟩
  rw [hSame.names n]
  exact hNames n

namespace Program

variable {p : Program} {c d : Context}

/-- The context in which the frame of a program is filled. -/
def opened (c : Context) : Context := c.newFrame "programEnvironment" c.current none

/-- What is done when a program is started, once its frame is there. -/
theorem start_eq (p : Program) (c : Context) :
    p.start c = (hoist c.store.nextFrame p.body >>= fun _ =>
      modify (·.enterOuter c.store.nextFrame) >>= fun _ =>
        pure (.map .program (.sequence p.body.statements))) (opened c) := by
  show (p.enter >>= fun _ => pure _) c = _
  have hEnter : p.enter c = (hoist c.store.nextFrame p.body >>= fun _ =>
      modify (·.enterOuter c.store.nextFrame)) (opened c) := rfl
  cases hHoist : hoist c.store.nextFrame p.body (opened c) with
  | ok u e =>
    rw [bind_of_ok hHoist] at hEnter ⊢
    exact bind_of_ok hEnter _
  | error t e =>
    rw [bind_of_error hHoist] at hEnter ⊢
    exact bind_of_error hEnter _

/-- There is one more frame. -/
theorem nextFrame_opened (c : Context) :
    (opened c).store.nextFrame = c.store.nextFrame + 1 := nextFrame_newFrame _ _ _ _

/-- It is empty, and inside the frame that was in force. -/
theorem scope?_opened (c : Context) : (opened c).store.scope? c.store.nextFrame =
    some ⟨"programEnvironment", some c.current, none, fun _ => none⟩ :=
  (scope?_newFrame _ _ _ _ _).trans (if_pos rfl)

/-- A program that declares no name twice is entered. -/
theorem start_eq_ok (h : p.Distinct) (c : Context) :
    ∃ d, p.start c = .ok (.map .program (.sequence p.body.statements)) d := by
  have hMade : c.store.nextFrame < (opened c).store.nextFrame := by
    rw [nextFrame_opened]
    exact Nat.lt_succ_self _
  have hEmpty (n : String) : (opened c).store.binding? c.store.nextFrame n = none := by
    rw [binding?_eq, scope?_opened]
    rfl
  obtain ⟨e, hHoist, -⟩ := hoist_eq_ok h hMade fun name _ => hEmpty name.name
  exact ⟨e.enterOuter c.store.nextFrame, by rw [start_eq, bind_of_ok hHoist]; rfl⟩

/-- A program that declares a name twice is not entered, and the fault tells which. All that is left
is a frame that nothing is inside. -/
theorem start_eq_redeclaration {name : Ident} (h : firstAgain? [] p.body.declarations = some name)
    (c : Context) :
    ∃ s, p.start c =
      .error (.variableRedeclaration name.name name.span) { c with store := s } := by
  have hMade : c.store.nextFrame < (opened c).store.nextFrame := by
    rw [nextFrame_opened]
    exact Nat.lt_succ_self _
  have hBare (n : String) : ((opened c).store.binding? c.store.nextFrame n).isSome ↔ n ∈ [] := by
    rw [binding?_eq, scope?_opened]
    simp
  obtain ⟨s, hDeclare⟩ := declareAll_eq_error hMade hBare h
  refine ⟨s, ?_⟩
  rw [start_eq]
  exact bind_of_error (bind_of_error hDeclare _) _

/-- A program that is not entered changes nothing but the store. -/
theorem start_eq_error (h : ¬ p.Distinct) (c : Context) :
    ∃ t s, p.start c = .error t { c with store := s } := by
  have hAgain : firstAgain? [] p.body.declarations ≠ none := fun hNone =>
    h (firstAgain?_eq_none_iff.mp hNone).1
  obtain ⟨name, hName⟩ := Option.ne_none_iff_exists'.mp hAgain
  obtain ⟨s, hStart⟩ := start_eq_redeclaration hName c
  exact ⟨_, s, hStart⟩

/-- Whether the program is entered or not, all frames that there were are as they were. -/
theorem kept_start (p : Program) (hMarked : c.store.watermark ≤ c.store.nextFrame) :
    (∀ f < c.store.nextFrame, (p.start.after c).store.scope? f = c.store.scope? f) ∧
      (p.start.after c).store.nextFrame = c.store.nextFrame + 1 ∧
      (p.start.after c).store.trail = c.store.trail ∧
      (p.start.after c).store.watermark = c.store.watermark := by
  have hFills := (@filling_hoist c.store.nextFrame p.body).furnishes (opened c)
  have hAfter : (p.start.after c).store = ((hoist c.store.nextFrame p.body).after (opened c)).store := by
    unfold after
    rw [start_eq]
    cases hHoist : hoist c.store.nextFrame p.body (opened c) with
    | ok u e => rw [bind_of_ok hHoist]; rfl
    | error t e => rw [bind_of_error hHoist]
  rw [hAfter]
  refine ⟨fun f hf => ?_, hFills.nextFrame.trans (nextFrame_opened c), hFills.trail hMarked,
    hFills.watermark⟩
  have hOther : f ≠ c.store.nextFrame := Nat.ne_of_lt hf
  exact (hFills.others f hOther).trans ((scope?_newFrame _ _ _ _ _).trans (if_neg hOther))

/-- A program that is entered has a frame of its own. -/
theorem holds_start {s : Search .value} (h : p.start c = .ok s d) :
    d.store.HoldsProgram p c.store.nextFrame c.current ∧ d.inner = [] ∧
      d.outer = c.store.nextFrame :: c.outer := by
  rw [start_eq] at h
  obtain ⟨u, e, hHoist, hEntered⟩ := bind_eq_ok.mp h
  cases hEntered
  have hFills := (@filling_hoist c.store.nextFrame p.body).furnishes (opened c)
  rw [after_ok hHoist] at hFills
  obtain ⟨sc, hsc, hName, hParent⟩ := hFills.frame _ (scope?_opened c)
  refine ⟨⟨sc, hsc, hName, hParent, fun n => ?_⟩, rfl, ?_⟩
  · have hMade : c.store.nextFrame < (opened c).store.nextFrame := by
      rw [nextFrame_opened]
      exact Nat.lt_succ_self _
    -- the frame is empty before, so the names that were added are all that it has
    obtain ⟨-, hNames, -⟩ :=
      adds_hoist (Q := fun _ => True) (c := opened c) trivial (fun _ _ _ => trivial) u e hMade hHoist
    have hBound := hNames n
    rw [binding?_eq, hsc, binding?_eq, scope?_opened] at hBound
    simpa using hBound
  · show c.store.nextFrame :: e.outer = c.store.nextFrame :: c.outer
    rw [hFills.outer]
    rfl

end Program

end AmbScript
