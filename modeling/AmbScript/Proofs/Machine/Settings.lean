import AmbScript.Proofs.Machine.Isolation
import AmbScript.Proofs.Machine.Made
import AmbScript.Proofs.Reach.Frames

/-!
# What a step leaves alone

Evaluation fills frames, enters and leaves them, displays lines and counts steps. The frames that
outlast the run, the text that faults are taken to be in, the limits and the signs from outside are
the same after every step, also after one that ends in a fault; and no diagnostic is added.

* `Context.SameSettings` — two contexts differ only in what evaluation changes.
* `Eval.Made.modest` — every sequence of actions goes from a context to such a one.
* `Machine.sameSettings_step` — so does every step.

Diagnostics may become fewer: a choice that goes back takes back those reported since. In a driver
step there are none to take back, since a fault is reported where the driver step ends.
-/

namespace AmbScript

variable {α β : Type} {retire : {k : Kind} → Search k → Bool}

/-- `d` differs from `c` only in what evaluation changes; no diagnostic is added. -/
structure Context.SameSettings (c d : Context) : Prop where
  rest : d = { c with
    store := d.store, inner := d.inner, nextCell := d.nextCell, errors := d.errors,
    output := d.output, steps := d.steps }
  errors : d.errors <+: c.errors

namespace Context.SameSettings

variable {c d e : Context}

/-- The diagnostics are the same too. -/
theorem of_rest (h : d = { c with
    store := d.store, inner := d.inner, nextCell := d.nextCell, output := d.output,
    steps := d.steps }) : c.SameSettings d := by
  rw [h]
  exact ⟨rfl, List.prefix_rfl⟩

/-- Nothing was done. -/
@[refl] theorem refl (c : Context) : c.SameSettings c := of_rest rfl

/-- One change after the other. -/
theorem trans (h : c.SameSettings d) (h' : d.SameSettings e) : c.SameSettings e where
  rest := by
    have hRest := h'.rest
    rw [h.rest] at hRest
    exact hRest
  errors := h'.errors.trans h.errors

/-- The frames that outlast the run are the same. -/
theorem outer (h : c.SameSettings d) : d.outer = c.outer := by rw [h.rest]

theorem source (h : c.SameSettings d) : d.source = c.source := by rw [h.rest]

/-- Whether the library has still to be loaded is not touched. -/
theorem preludePending (h : c.SameSettings d) : d.preludePending = c.preludePending := by
  rw [h.rest]

/-- Whether the run was given up is not touched. -/
theorem aborted (h : c.SameSettings d) : d.aborted = c.aborted := by rw [h.rest]

/-- Where nothing has gone wrong, nothing has. -/
theorem errors_eq_nil (h : c.SameSettings d) (hErrors : c.errors = []) : d.errors = [] := by
  have hPrefix := h.errors
  rw [hErrors] at hPrefix
  exact List.prefix_nil.mp hPrefix

/-- Noting a moment is a change of the store. -/
theorem checkpoint (c : Context) : c.SameSettings c.checkpoint := of_rest rfl

/-- Going back cuts off the diagnostics reported since. -/
theorem restore (c : Context) (start : Checkpoint) : c.SameSettings (c.restore start) :=
  ⟨rfl, List.take_prefix _ _⟩

end Context.SameSettings

/-- Where nothing has been reported, the fault that ends a run is the only one reported. -/
theorem Context.errors_abort {c : Context} (h : c.errors = []) (t : Fault) :
    (c.abort t).errors = [t.toDiagnostic c.source] := by
  show c.errors ++ [t.toDiagnostic c.source] = _
  rw [h]
  rfl

/-- Whether `x` has a result or ends in a fault, the settings are the same. -/
def Eval.Modest (x : Eval α) : Prop := ∀ c : Context, c.SameSettings (x.after c)

namespace Eval

theorem modest_pure (a : α) : Modest (pure a) := .refl

/-- A fault that is thrown is not recorded yet. -/
theorem modest_throw (t : Fault) : Modest (throw t : Eval α) := .refl

/-- To ask for the context changes nothing. -/
theorem modest_get : Modest (get : Eval Context) := .refl

/-- A change of what evaluation may change. -/
theorem modest_modify {f : Context → Context} (h : ∀ c : Context, f c = { c with
    store := (f c).store, inner := (f c).inner, nextCell := (f c).nextCell,
    output := (f c).output, steps := (f c).steps }) : Modest (modify f : Eval Unit) :=
  fun c => .of_rest (h c)

/-- One computation after the other. -/
theorem modest_bind {x : Eval α} {f : α → Eval β} (hx : Modest x) (hf : ∀ a, Modest (f a)) :
    Modest (x >>= f) :=
  leads_bind (R := Context.SameSettings) .trans hx hf

/-- What depends on the context may do so. -/
theorem modest_get_bind {f : Context → Eval β} (hf : ∀ c, Modest (f c)) : Modest (get >>= f) :=
  modest_bind modest_get hf

/-- The count of steps is not a setting. -/
theorem modest_tick (span : Span) : Modest (tick span) := by
  intro c
  rw [after_tick]
  exact .of_rest rfl

/-- What makes frames and fills them leaves the settings alone. -/
theorem Opening.modest {x : Eval α} (h : Opening x) : Modest x := by
  refine h.leads .refl .trans ?_ ?_ ?_ ?_
  · intro _
    exact .of_rest rfl
  · intro _ _
    exact .of_rest rfl
  · intro _ _ _ _
    exact .of_rest rfl
  · intro _ _ _ _
    exact .of_rest rfl

theorem Filling.modest {frame : FrameId} {x : Eval α} (h : Filling frame x) : Modest x :=
  Opening.modest (.filling h)

/-- To read a name changes nothing. -/
theorem modest_lookup (name : Ident) : Modest (lookup name) := fun c => by
  rw [after_lookup]

/-- To assign changes the store. -/
theorem modest_assign (name : Ident) (v : Value) : Modest (assign name v) := by
  intro c
  rcases after_assign name v c with hAfter | ⟨frame, hAfter⟩
  · rw [hAfter]
  · rw [hAfter]
    exact .of_rest rfl

/-- A sequence of actions leaves the settings alone. -/
theorem Made.modest {x : Eval α} (h : Made x) : Modest x := by
  induction h with
  | pure a => exact modest_pure a
  | throw t => exact modest_throw t
  | bind _ _ hx hf => exact modest_bind hx hf
  | current => exact modest_get_bind fun _ => modest_pure _
  | tick span => exact modest_tick span
  | newCell => exact fun _ => .of_rest rfl
  | showLine v heading => exact fun _ => .of_rest rfl
  | enter frame => exact modest_modify fun _ => rfl
  | leave => exact modest_modify fun _ => rfl
  | openBlock b => exact (opening_openBlock b).modest
  | openLoop init => exact (opening_openLoop init).modest
  | openCall f env args span => exact (opening_openCall f env args span).modest
  | openRound init frame => exact (opening_openRound init frame).modest
  | define name v isConst =>
    exact modest_get_bind fun _ => (filling_defineIn _ _ _).modest
  | lookup name => exact modest_lookup name
  | assign name v => exact modest_assign name v

end Eval

open Eval

variable (retire) in
/-- Whether it has a result or ends in a fault, a step leaves the settings alone. -/
theorem Machine.sameSettings_step (m : Machine) (c : Context) :
    c.SameSettings ((m.step retire).after c) := by
  have hStepped := m.stepped_step retire c
  unfold Eval.after
  revert hStepped
  generalize m.step retire c = y
  intro hStepped
  cases hStepped with
  | plain hMade => exact hMade.modest c
  | noted hMade => exact (Context.SameSettings.checkpoint c).trans (hMade.modest _)
  | @restored x hMade start _ =>
    exact (Context.SameSettings.restore c start).trans (hMade.modest _)

namespace Stage

variable (retire) in
/-- The context after a machine step; a fault is recorded in it. -/
theorem context_stepBy (r : Running) :
    (r.stepBy retire).context = (r.machine.step retire).after r.context ∨
      ∃ t, (r.stepBy retire).context = ((r.machine.step retire).after r.context).abort t := by
  unfold Running.stepBy after
  cases r.machine.step retire r.context with
  | ok m d => exact .inl (context_stage r.scheduler m d)
  | error t d => exact .inr ⟨t, rfl⟩

/-- Whatever comes next in a run, the frames that outlast it are the same. -/
theorem outer_eq_of_leads {a b : Stage} (h : Leads retire a b) :
    b.context.outer = a.context.outer := by
  cases h with
  | step r =>
    have hSame := r.machine.sameSettings_step retire r.context
    rcases context_stepBy retire r with hContext | ⟨t, hContext⟩
    · rw [hContext]
      exact hSame.outer
    · rw [hContext]
      exact hSame.outer
  | resume s =>
    unfold Suspension.resume
    split <;> rfl
  | signal r => rfl
  | expire r => rfl
  | takeOutput r => rfl

/-- Through a whole run the frames that outlast it are the same. -/
theorem outer_eq_of_run {a b : Stage} (h : Relation.ReflTransGen (Leads retire) a b) :
    b.context.outer = a.context.outer := by
  induction h with
  | refl => rfl
  | tail _ hLeads ih => exact (outer_eq_of_leads hLeads).trans ih

end Stage

end AmbScript
