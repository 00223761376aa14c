import AmbScript.Proofs.Machine.Settings

/-!
# Evaluation on a budget

A budget is looked at when a node is counted, and nowhere else. So as long as no more nodes are
counted than it allows, evaluation goes on as it does without one; with the first node beyond it
evaluation ends, whatever it is in the midst of.

* `Eval.Blind` — an action that neither counts nor looks at the budget.
* `Eval.Charged` — what an action comes to on a budget, given what it comes to without one.
* `Eval.Metered` — an action is charged in this way for the nodes that it counts, and for nothing
  else; `Eval.Metered.bind` is the law for sequences.
* `Machine.metered_step`, `Machine.metered_run` — steps are, and any number of them.

Both runs are taken from the same context, one with the budget and one without, and compared where
they end. What an action does after the budget was exceeded plays no role, so that nothing has to be
said about how the two contexts are related from there on: the fault is all that is left.
-/

namespace AmbScript

variable {α β : Type} {b : Nat} {retire : {k : Kind} → Search k → Bool}

namespace Context

/-- The context with another step budget, or without one. -/
def budgeted (budget : Option Nat) (c : Context) : Context :=
  { c with limits := { c.limits with stepBudget := budget } }

/-- Nothing but a fault of the program can end an evaluation. -/
structure Free (c : Context) : Prop where
  limits : c.limits = .unlimited
  interrupted : c.interrupted = false

/-- Nothing that happens in a run makes it bounded. -/
theorem SameSettings.free {c d : Context} (h : c.SameSettings d) (hFree : c.Free) : d.Free where
  limits := by
    rw [h.rest]
    exact hFree.limits
  interrupted := by
    rw [h.rest]
    exact hFree.interrupted

/-- Where there are no limits, none is exceeded. -/
theorem Free.exceeded? {c : Context} (h : c.Free) (span : Span) : c.exceeded? span = none := by
  unfold Context.exceeded? exceeded?.overtime
  rw [h.interrupted, h.limits]
  simp [Limits.unlimited]

/-- On a budget, one more node may be counted just if the budget allows it. -/
theorem Free.exceeded?_budgeted {c : Context} (h : c.Free) (b : Nat) (span : Span) :
    (c.budgeted (some b)).exceeded? span =
      if b < c.steps then some (.stepBudgetExceeded b span) else none := by
  unfold Context.exceeded? exceeded?.overtime budgeted
  rw [h.interrupted, h.limits]
  simp [Limits.unlimited]

end Context

namespace Eval

/-- The same end of an action in another context. -/
def withContext (f : Context → Context) :
    EStateM.Result Fault Context α → EStateM.Result Fault Context α
  | .ok a c => .ok a (f c)
  | .error t c => .error t (f c)

-- ---------------------------------------------------------------------------
-- Actions that are not charged for
-- ---------------------------------------------------------------------------

/-- The action counts no node and does not look at the budget. -/
structure Blind (x : Eval α) : Prop where
  budgeted (budget : Option Nat) (c : Context) :
    x (c.budgeted budget) = withContext (Context.budgeted budget) (x c)
  steps (c : Context) : (x.after c).steps = c.steps

theorem blind_pure (a : α) : Blind (pure a) := ⟨fun _ _ => rfl, fun _ => rfl⟩

/-- A fault that is not about the budget. -/
theorem blind_throw (t : Fault) : Blind (throw t : Eval α) := ⟨fun _ _ => rfl, fun _ => rfl⟩

/-- A change that can be made before or after the budget is set. -/
theorem blind_modify {f : Context → Context}
    (hBudgeted : ∀ budget c, f (c.budgeted budget) = (f c).budgeted budget)
    (hSteps : ∀ c, (f c).steps = c.steps) : Blind (modify f : Eval Unit) where
  budgeted budget c := congrArg (EStateM.Result.ok ()) (hBudgeted budget c)
  steps := hSteps

/-- One action after the other. -/
theorem Blind.bind {x : Eval α} {f : α → Eval β} (hx : Blind x) (hf : ∀ a, Blind (f a)) :
    Blind (x >>= f) where
  budgeted budget c := by
    -- the first action ends alike with and without the budget, so the second one starts alike
    have hFirst := hx.budgeted budget c
    cases hResult : x c with
    | ok a d =>
      rw [hResult] at hFirst
      rw [bind_of_ok hFirst, bind_of_ok hResult]
      exact (hf a).budgeted budget d
    | error t d =>
      rw [hResult] at hFirst
      rw [bind_of_error hFirst, bind_of_error hResult]
      rfl
  steps c := by
    have hFirst := hx.steps c
    rw [after_bind]
    cases hResult : x c with
    | ok a d =>
      rw [after_ok hResult] at hFirst
      exact ((hf a).steps d).trans hFirst
    | error t d =>
      rw [after_error hResult] at hFirst
      exact hFirst

/-- An action that looks at its context first, but not at the budget. -/
theorem blind_get_bind {f : Context → Eval β}
    (hBudgeted : ∀ budget c, f (c.budgeted budget) = f c) (hf : ∀ c, Blind (f c)) :
    Blind (get >>= f) where
  budgeted budget c := by
    rw [get_bind, get_bind, hBudgeted]
    exact (hf c).budgeted budget c
  steps c := (hf c).steps c

/-- Cells are numbered without being counted. -/
theorem blind_newCell : Blind newCell := by
  refine blind_get_bind ?_ ?_
  · intro _ _
    exact rfl
  · intro _
    refine Blind.bind ?_ ?_
    · refine blind_modify ?_ ?_
      · intro _ _
        exact rfl
      · intro _
        exact rfl
    · intro _
      exact blind_pure _

/-- Frames are made without being counted. -/
theorem blind_newFrame (name : String) (parent : FrameId) (callSite : Option Span) :
    Blind (newFrame name parent callSite) := by
  refine blind_get_bind ?_ ?_
  · intro _ _
    exact rfl
  · intro _
    refine Blind.bind ?_ ?_
    · refine blind_modify ?_ ?_
      · intro _ _
        exact rfl
      · intro _
        exact rfl
    · intro _
      exact blind_pure _

theorem blind_bindName (frame : FrameId) (name : String) (b : Binding) :
    Blind (bindName frame name b) := blind_modify (fun _ _ => rfl) fun _ => rfl

/-- To display a line is not counted. -/
theorem blind_showLine (v : Value) (heading : Option Value) :
    Blind (Primitive.showLine v heading) := by
  refine Blind.bind ?_ ?_
  · refine blind_modify ?_ ?_
    · intro _ _
      exact rfl
    · intro _
      exact rfl
  · intro _
    exact blind_pure _

/-- What fills a frame is made of such actions. -/
theorem Filling.blind {frame : FrameId} {x : Eval α} (h : Filling frame x) : Blind x := by
  induction h with
  | pure a => exact blind_pure a
  | throw _ => exact blind_throw _
  | bind _ _ hx hf => exact hx.bind hf
  | look hLimits _ hf => exact blind_get_bind (fun _ c => hLimits c _) hf
  | newCell => exact blind_newCell
  | bindName name b => exact blind_bindName _ name b
  | showLine v heading => exact blind_showLine v heading

theorem Opening.blind {x : Eval α} (h : Opening x) : Blind x := by
  induction h with
  | filling h => exact h.blind
  | bind _ _ hx hf => exact hx.bind hf
  | look hLimits _ hf => exact blind_get_bind (fun _ c => hLimits c _) hf
  | newFrame name parent callSite => exact blind_newFrame name parent callSite

/-- A name is looked up in the store. -/
theorem blind_lookup (name : Ident) : Blind (lookup name) := by
  refine blind_get_bind (fun _ _ => rfl) fun c => ?_
  split
  · exact blind_pure _
  · exact blind_throw _
  · exact blind_throw _

/-- An assignment is a lookup and a binding. -/
theorem blind_assign (name : Ident) (v : Value) : Blind (assign name v) := by
  refine blind_get_bind (fun _ _ => rfl) fun c => ?_
  split
  · exact blind_throw _
  · split
    · exact blind_throw _
    · split
      · exact blind_throw _
      · exact blind_bindName _ _ _

/-- Noting a moment. -/
theorem blind_checkpoint : Blind checkpoint := by
  refine blind_get_bind ?_ ?_
  · intro _ _
    exact rfl
  · intro _
    refine Blind.bind ?_ ?_
    · refine blind_modify ?_ ?_
      · intro _ _
        exact rfl
      · intro _
        exact rfl
    · intro _
      exact blind_pure _

/-- Going back to one. The steps taken since then stay counted. -/
theorem blind_restore (start : Checkpoint) : Blind (restore start) :=
  blind_modify (fun _ _ => rfl) fun _ => rfl

-- ---------------------------------------------------------------------------
-- Actions that are charged for what they count
-- ---------------------------------------------------------------------------

/-- How the action ends on the budget `b`: as it does without a budget if no more than `b` nodes are
counted by then, and otherwise because of the budget. -/
inductive Charged (b : Nat) (x : Eval α) (c : Context) : Prop
  | within (hSteps : (x.after c).steps ≤ b)
      (h : x (c.budgeted (some b)) = withContext (Context.budgeted (some b)) (x c))
  | beyond (hSteps : b < (x.after c).steps) {span : Span} {d : Context}
      (h : x (c.budgeted (some b)) = .error (.stepBudgetExceeded b span) d)

/-- The action is charged for the nodes that it counts, and leaves the settings alone. -/
structure Metered (x : Eval α) : Prop where
  modest : Modest x
  steps (c : Context) : c.steps ≤ (x.after c).steps
  charged {b : Nat} {c : Context} (hFree : c.Free) (hSteps : c.steps ≤ b) : Charged b x c

/-- An action for which nothing is charged, because it counts nothing. -/
theorem Blind.metered {x : Eval α} (h : Blind x) (hModest : Modest x) : Metered x where
  modest := hModest
  steps c := Nat.le_of_eq (h.steps c).symm
  charged _ hSteps := by
    refine .within ?_ (h.budgeted _ _)
    rw [h.steps]
    exact hSteps

/-- To open a scope is not charged for. -/
theorem Opening.metered {x : Eval α} (h : Opening x) : Metered x := h.blind.metered h.modest

/-- What is charged for a sequence is charged for its actions: either the first one has used up the
budget already, or it leaves what the second one may use. -/
theorem Metered.bind {x : Eval α} {f : α → Eval β} (hx : Metered x) (hf : ∀ a, Metered (f a)) :
    Metered (x >>= f) where
  modest := modest_bind hx.modest fun a => (hf a).modest
  steps c := by
    have hFirst := hx.steps c
    rw [after_bind]
    cases hResult : x c with
    | ok a d =>
      rw [after_ok hResult] at hFirst
      exact Nat.le_trans hFirst ((hf a).steps d)
    | error t d =>
      rw [after_error hResult] at hFirst
      exact hFirst
  charged {b c} hFree hSteps := by
    have hAfter := after_bind x f c
    have hModest := hx.modest c
    -- either the budget lasts for the first action, and then the second one is taken from the same
    -- context in both runs
    cases hx.charged hFree hSteps with
    | within hFirst h =>
      cases hResult : x c with
      | ok a d =>
        rw [hResult] at h hAfter
        rw [after_ok hResult] at hFirst hModest
        have hNext := bind_of_ok h f
        cases (hf a).charged (hModest.free hFree) hFirst with
        | within hRest h' =>
          refine .within (hAfter ▸ hRest) ?_
          rw [bind_of_ok hResult]
          exact hNext.trans h'
        | beyond hRest h' => exact .beyond (hAfter ▸ hRest) (hNext.trans h')
      | error t d =>
        rw [hResult] at h hAfter
        rw [after_error hResult] at hFirst
        refine .within (hAfter ▸ hFirst) ?_
        rw [bind_of_error hResult]
        exact bind_of_error h f
    | beyond hFirst h =>
      -- what would have been counted afterwards does not matter any more
      refine .beyond ?_ (bind_of_error h f)
      rw [hAfter]
      cases hResult : x c with
      | ok a d =>
        rw [after_ok hResult] at hFirst
        exact Nat.lt_of_lt_of_le hFirst ((hf a).steps d)
      | error t d =>
        rw [after_error hResult] at hFirst
        exact hFirst

/-- A result is not charged for. -/
theorem metered_pure (a : α) : Metered (pure a) := (blind_pure a).metered (modest_pure a)

/-- Counting a node is what is charged for. -/
theorem metered_tick (span : Span) : Metered (tick span) where
  modest := modest_tick span
  steps c := by
    unfold after
    rw [tick_apply]
    cases c.counted.exceeded? span <;> exact Nat.le_succ _
  charged {b c} hFree hSteps := by
    -- without a budget the count always goes on, with one it faults exactly beyond it
    have hCounted : c.counted.Free := ⟨hFree.limits, hFree.interrupted⟩
    have hWithout : tick span c = .ok () c.counted := by
      rw [tick_apply, hCounted.exceeded?]
    have hWith := tick_apply span (c.budgeted (some b))
    rw [show (c.budgeted (some b)).counted = c.counted.budgeted (some b) from rfl,
      hCounted.exceeded?_budgeted] at hWith
    by_cases hBeyond : b < c.counted.steps
    · rw [if_pos hBeyond] at hWith
      exact .beyond (after_ok hWithout ▸ hBeyond) hWith
    · rw [if_neg hBeyond] at hWith
      refine .within (after_ok hWithout ▸ Nat.not_lt.mp hBeyond) ?_
      rw [hWithout]
      exact hWith

theorem Made.metered {x : Eval α} (h : Made x) : Metered x := by
  induction h with
  | pure a => exact metered_pure a
  | throw t => exact (blind_throw t).metered (modest_throw t)
  | bind _ _ hx hf => exact hx.bind hf
  | current =>
    exact (blind_get_bind (fun _ _ => rfl) fun _ => blind_pure _).metered Made.current.modest
  | tick span => exact metered_tick span
  -- everything but the count is blind: it neither reads nor changes budget and counter
  | newCell => exact blind_newCell.metered Made.newCell.modest
  | showLine v heading =>
    exact (blind_showLine v heading).metered (Made.showLine v heading).modest
  | enter frame =>
    exact Blind.metered (blind_modify (fun _ _ => rfl) fun _ => rfl) (Made.enter frame).modest
  | leave => exact Blind.metered (blind_modify (fun _ _ => rfl) fun _ => rfl) Made.leave.modest
  | openBlock b => exact (opening_openBlock b).metered
  | openLoop init => exact (opening_openLoop init).metered
  | openCall f env args span => exact (opening_openCall f env args span).metered
  | openRound init frame => exact (opening_openRound init frame).metered
  | define name v isConst =>
    refine Blind.metered ?_ (Made.define name v isConst).modest
    exact blind_get_bind (fun _ _ => rfl) fun _ => (filling_defineIn _ _ _).blind
  | lookup name => exact (blind_lookup name).metered (modest_lookup name)
  | assign name v => exact (blind_assign name v).metered (modest_assign name v)

end Eval

open Eval

namespace Machine

variable (retire) in
/-- A step is one action on a context that it may first go back to. -/
theorem metered_step (m : Machine) : Metered (m.step retire) := by
  have hFormed := m.formed_step retire
  revert hFormed
  generalize m.step retire = x
  intro hFormed
  cases hFormed with
  | plain hMade => exact hMade.metered
  | noting hMade =>
    exact (blind_checkpoint.metered fun c => .checkpoint c).bind fun start => (hMade start).metered
  | @restoring x hMade start _ =>
    exact ((blind_restore start).metered fun c => .restore c start).bind fun _ => hMade.metered

variable (retire) in
theorem metered_run (n : Nat) (m : Machine) : Metered (m.run retire n) := by
  induction n generalizing m with
  | zero => exact metered_pure m
  | succ n ih =>
    unfold run
    cases m.finished? with
    | some x => exact metered_pure m
    | none => exact (m.metered_step retire).bind ih

end Machine

end AmbScript
