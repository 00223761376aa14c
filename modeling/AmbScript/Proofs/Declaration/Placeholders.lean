import AmbScript.Proofs.Declaration.Entered
import AmbScript.Proofs.Parser.Grammar
import AmbScript.Proofs.Session.History

/-!
# Declarations find their placeholders

The same declaration is evaluated again in the same frame whenever an earlier statement, or its own
initialiser, finds another value. It works because the search for another value goes back first, to
a moment at which a choice inside of it was entered, and the name was a placeholder then: choices
that are entered before a declaration are older than the value that it gives.

* `Stage.Promising` — the names that are still to be declared are placeholders, or will be.
* `Stage.promising_of_run` — so they are all through a run.
* `Running.Declares` — what the next step makes of a declaration.
* `Stage.declarations_find_placeholders` — a declaration can always give its name its value, and to
  enter a scope is the only way to declare a name again.

Which moments may be gone back to changes from step to step, and with it what `Machine.Promising`
refers to. The moments of a stage are those of its open choices; a step may open one more, and
whatever was so before the step at one of these moments is so after it.
-/

namespace AmbScript

variable {retire : {k : Kind} → Search k → Bool}

open Eval Store

-- ---------------------------------------------------------------------------
-- Beginning
-- ---------------------------------------------------------------------------

namespace Program

variable {p : Program} {c d : Context}

/-- A program is entered unless it declares a name twice at its top. -/
theorem refusal?_start (p : Program) (c : Context) :
    refusal? (p.start c) = (Construct.program p.body.statements).redeclared? := by
  show _ = firstAgain? [] p.body.declarations
  cases hAgain : firstAgain? [] p.body.declarations with
  | some name =>
    obtain ⟨s, hStart⟩ := start_eq_redeclaration hAgain c
    rw [hStart]
    rfl
  | none =>
    obtain ⟨d, hStart⟩ := start_eq_ok (firstAgain?_eq_none_iff.mp hAgain).1 c
    rw [hStart]
    rfl

/-- Then the names of its variables and constants are placeholders. -/
theorem awaits_start {s : Search .value} (h : p.start c = .ok s d) :
    s = .map .program (.sequence p.body.statements) ∧
      d.store.Awaits (promisedBy c.store.nextFrame p.body.statements ++ []) := by
  rw [start_eq] at h
  obtain ⟨u, e, hHoist, hEntered⟩ := bind_eq_ok.mp h
  cases hEntered
  obtain ⟨hDistinct, hPlaceholders⟩ := hoist_leaves (binds_newFrame c _ _ _) hHoist
  exact ⟨rfl, (Awaits.nil e.store).add (fun _ hp => absurd hp List.not_mem_nil) hDistinct
    hPlaceholders⟩

end Program

-- ---------------------------------------------------------------------------
-- Going back
-- ---------------------------------------------------------------------------

namespace Machine

variable {m m' : Machine} {c d : Context}

/-- What is done once the moment of a choice was noted, or gone back to, can be taken back. -/
theorem descends_opening (h : m.step retire c = .ok m' d) :
    (m.opening c).store.Descends d.store := by
  have hOrigin := (proceeds_step h).store
  obtain ⟨k, walk, stack⟩ := m
  cases walk with
  | pull s =>
    cases s with
    | choice alternatives =>
      obtain ⟨start, e, hNote, hNext⟩ := bind_eq_ok.mp h
      cases hNote
      exact (forward_nextAlternative _ _ _ _ _ _ hNext).store
    | loop header => cases header <;> exact hOrigin
    | _ => exact hOrigin
  | _ => exact hOrigin

/-- A step notes the moment of a choice, goes back to that of one, or does neither. -/
theorem store_opening (m : Machine) (c : Context) :
    (m.opening c).store = c.store ∨ (m.opening c).store = c.store.mark ∨
      ∃ start, m.restores? = some start ∧
        (m.opening c).store = c.store.unwindTo start.trailLength := by
  obtain ⟨k, walk, stack⟩ := m
  -- only entering a choice marks the store, and only going back to one unwinds it
  cases walk with
  | pull s =>
    cases s with
    | choice alternatives => exact .inr (.inl rfl)
    | loop header => cases header <;> exact .inl rfl
    | _ => exact .inl rfl
  | found item rest => exact .inl rfl
  | drained rest =>
    cases stack with
    | nil => exact .inl rfl
    | push p below =>
      cases p with
      | choosing start alternatives => exact .inr (.inr ⟨start, rfl, rfl⟩)
      | _ => exact .inl rfl

end Machine

namespace Stage

/-- A choice that goes back is the last one under way, and it was entered after the others. -/
theorem trailLength_le_of_restores {first : Stage} (hFirst : first.choices = []) {r : Running}
    (hRun : Relation.ReflTransGen (Leads retire) first (.running r)) {start : Checkpoint}
    (hRestores : r.machine.restores? = some start) :
    ∀ o ∈ r.machine.choices, o.start.trailLength ≤ start.trailLength := by
  intro o ho
  obtain ⟨earlier, left, hChoices⟩ := Machine.choices_of_restores hRestores
  rw [hChoices] at ho
  rcases List.mem_append.mp ho with hEarlier | hLast
  · obtain ⟨around, inside, rfl⟩ := List.append_of_mem hEarlier
    rw [List.append_assoc, List.cons_append] at hChoices
    have hStage : (Stage.running r).choices = around ++ o :: (inside ++ [⟨start, left⟩]) := hChoices
    obtain ⟨entry, _, outside, -, hEntry, hOutside, hStart, hSince⟩ :=
      exists_entry hFirst hRun hStage
    -- the choice gone back to was entered since the other one was, so its moment is later
    obtain ⟨-, _, left', inner, -, -, hKept, hLater⟩ := hSince.intact hEntry
    rw [hOutside] at hKept
    have hSame := List.append_cancel_left (hChoices.symm.trans hKept)
    obtain ⟨-, rfl⟩ := List.cons.inj hSame
    have hLast := hLater ⟨start, left⟩ (List.mem_append_right _ (List.mem_singleton_self _))
    rw [← hStart]
    exact hLast
  · rw [List.mem_singleton.mp hLast]

/-- What is pledged is still so when a step begins. -/
theorem upholds_opening {first : Stage} (hFirst : first.choices = []) {r : Running}
    (hRun : Relation.ReflTransGen (Leads retire) first (.running r)) :
    Upholds r.context.store.Pledges (r.machine.opening r.context).store.Pledges
      r.machine.choices := by
  intro o ho ps hPledges
  rcases r.machine.store_opening r.context with hSame | hNoted | ⟨start, hRestores, hBack⟩
  · rw [hSame]
    exact hPledges
  · rw [hNoted]
    exact hPledges.descends (descends_mark _)
  · rw [hBack]
    exact hPledges.unwindTo (trailLength_le_of_restores hFirst hRun hRestores o ho)

-- ---------------------------------------------------------------------------
-- Runs
-- ---------------------------------------------------------------------------

/-- The names that are still to be declared are placeholders, or will be after going back. -/
def Promising : Stage → Prop
  | .running r => r.machine.Promising r.context.store.Pledges r.context.outer r.context.store
  | .ended (.suspended s) =>
    s.rest.GoesBack s.context.store.Pledges (innermost s.context.outer []) []
  | .ended _ => True

/-- What the machine comes to decides what the stage is. -/
theorem promising_stage (scheduler : Scheduler) {m : Machine} {c : Context}
    (h : m.Promising c.store.Pledges c.outer c.store) :
    (Running.stage scheduler (.ok m c)).Promising := by
  unfold Running.stage
  dsimp only
  split
  · exact h
  · trivial
  · rename_i v rest hFinished
    cases scheduler with
    | preemptive => trivial
    | nonDet =>
      -- what the suspension keeps is the search to be asked again, which promises nothing of its
      -- own
      unfold Machine.finished? at hFinished
      split at hFinished
      · cases hFinished
        exact h.goesBack
      · cases hFinished
      · cases hFinished

/-- The frame that names are looked up from is that of the search that is asked. -/
theorem Settled.current {r : Running} (h : (Stage.running r).Settled) :
    r.context.current = innermost r.context.outer r.machine.stack.frames := by
  have hInner : r.context.inner = r.machine.stack.frames := h.inForce
  rw [← hInner]
  rfl

/-- Nothing that comes next leaves a name without its placeholder. -/
theorem Promising.leads {first a b : Stage} (hFirst : first.choices = [])
    (hRun : Relation.ReflTransGen (Leads retire) first a) (hSettled : a.Settled)
    (h : a.Promising) (hLeads : Leads retire a b) : b.Promising := by
  have hOuter := outer_eq_of_leads hLeads
  cases hLeads with
  | step r =>
    unfold Running.stepBy at hOuter ⊢
    cases hStep : r.machine.step retire r.context with
    | error t d => trivial
    | ok m d =>
      rw [hStep, context_stage] at hOuter
      have hOuter : d.outer = r.context.outer := hOuter
      -- The step may note the present moment; it is then one of those that can be gone back to.
      have hOpening := Machine.Promising.mono h (upholds_opening hFirst hRun)
      have hStepped := Machine.promising_step hOpening hSettled.current hStep
      rw [← hOuter] at hStepped
      refine promising_stage r.scheduler (hStepped.mono fun o _ ps hPledges => ?_)
      exact hPledges.descends (Machine.descends_opening hStep)
  | resume s =>
    unfold Suspension.resume
    split
    · trivial
    · exact ⟨.back h, trivial⟩
  | signal r => exact h
  | expire r => exact h
  | takeOutput r => exact h

/-- A program begins with placeholders for all its names. -/
theorem promising_begin (p : Program) (c : Context) (scheduler : Scheduler) :
    (p.begin c scheduler).Promising := by
  rw [p.begin_eq]
  cases hStart : p.start (p.heeded c) with
  | error t d => trivial
  | ok s d =>
    obtain ⟨rfl, hAwaits⟩ := Program.awaits_start hStart
    obtain ⟨-, -, hOuter⟩ := Program.holds_start hStart
    refine ⟨.fresh (.map .program (.sequence p.body.statements)) ?_, trivial⟩
    show d.store.Awaits ((promisedBy (d.outer.headD 0) p.body.statements ++ []) ++ [])
    rw [hOuter, List.append_nil]
    exact hAwaits

/-- All through the run of a program, the names that are still to be declared are placeholders, or
will be after going back. -/
theorem promising_of_run {p : Program} {c : Context} {scheduler : Scheduler} {st : Stage}
    (hRun : Relation.ReflTransGen (Leads retire) (p.begin c scheduler) st) : st.Promising := by
  induction hRun with
  | refl => exact promising_begin p c scheduler
  | tail hRun hLeads ih =>
    have hSettled := (settled_begin p c scheduler).run hRun
    exact ih.leads (choices_begin p c scheduler) hRun hSettled hLeads

end Stage

-- ---------------------------------------------------------------------------
-- Declarations
-- ---------------------------------------------------------------------------

/-- What the next step makes of declarations. -/
structure Running.Declares (retire : {k : Kind} → Search k → Bool) (r : Running) : Prop where
  /-- When a declaration delivers a value, its name is a placeholder of the current frame, and the
  step gives it the value. -/
  delivers : ∀ isConst name v rest below,
    r.machine = Machine.found v rest (.push (.map (.declare isConst name)) below) →
      r.context.store.binding? r.context.current name.name = some .placeholder ∧
      r.machine.step retire r.context =
        .ok (.found (k := .completion) (.value v) (.map (.declare isConst name) rest) below)
          { r.context with
            store := r.context.store.write r.context.current name.name (.ofValue v isConst) }
  /-- The step fails to declare a name if, and only if, it enters a scope that has it already when
  the name is declared. -/
  refuses : ∀ name,
    (∃ d, r.machine.step retire r.context =
      .error (.variableRedeclaration name.name name.span) d) ↔
      ∃ k, r.machine.enters? r.context = some k ∧ k.redeclared? = some name

namespace Stage

/-- A declaration finds its placeholder. -/
theorem Promising.declares {r : Running} (h : (Stage.running r).Promising)
    (hSettled : (Stage.running r).Settled) : r.Declares retire where
  delivers := by
    intro isConst name v rest below hMachine
    have hCurrent := hSettled.current
    have h : r.machine.Promising _ _ r.context.store := h
    rw [hMachine] at h hCurrent ⊢
    -- the stack promises the placeholder, in the frame that is now in force
    have hPlaceholder := h.awaits.placeholder (r.context.current, name.name)
      (hCurrent ▸ List.mem_cons_self)
    have hDefine : define name v isConst r.context = .ok () _ :=
      defineIn_eq_ok v isConst hPlaceholder
    have hApply : (Mapping.declare isConst name).apply v r.context = .ok (.value v) _ :=
      bind_of_ok hDefine _
    exact ⟨hPlaceholder, bind_of_ok hApply _⟩
  refuses := by
    intro name
    rw [← refusal?_eq_some_iff, Machine.refusal?_step h hSettled.current]
    exact Option.bind_eq_some_iff

/-- For every program and all through its run: when a declaration delivers a value, its name is a
placeholder of the current frame, and gets the value. A name is declared again if, and only if, a
scope is entered, the program's or in a step that of a block or a function, that declares it
directly a second time or has it as a parameter. -/
theorem declarations_find_placeholders (retire : {k : Kind} → Search k → Bool) (p : Program)
    (c : Context) (scheduler : Scheduler) :
    (∀ name d, (∃ e, p.start d = .error (.variableRedeclaration name.name name.span) e) ↔
      (Construct.program p.body.statements).redeclared? = some name) ∧
    (∀ r, Relation.ReflTransGen (Leads retire) (p.begin c scheduler) (.running r) →
      r.Declares retire) ∧
    (∀ k : Construct, (∃ name, k.redeclared? = some name) ↔ k.DeclaresTwice) ∧
    ∀ f : Function, f.Valid → ((Construct.call f).DeclaresTwice ↔
      ¬ ((f.params ++ f.body.declarations).map Ident.name).Nodup) := by
  refine ⟨fun name d => ?_, fun r hRun => ?_, fun k => ?_, fun f hValid => ?_⟩
  · rw [← refusal?_eq_some_iff, p.refusal?_start]
  · exact (promising_of_run hRun).declares ((settled_begin p c scheduler).run hRun)
  · rw [← k.isSome_redeclared?_iff, Option.isSome_iff_exists]
  · refine Construct.declaresTwice_iff (k := .call f) ?_
    cases f with
    | mk name? params body span => exact hValid.2.1.2

/-- A program of one declaration, with a choice between `true` and `false`. -/
def variableTruth : Program :=
  let alternatives : List Expr := [.bool true .synthetic, .bool false .synthetic]
  ⟨.mk [.declare false ⟨"x", .synthetic⟩
    (.call (.ident ⟨"amb", .synthetic⟩) alternatives .synthetic) .synthetic] .synthetic, .synthetic⟩

/-- The name that a declaration is about to give the value `false`. -/
def getsFalse? : Stage → Option Ident
  | .running ⟨⟨.value, .found (.bool false) _, .push (.map (.declare _ name)) _⟩, _, _⟩ => some name
  | _ => none

/-- What is found by evaluation is such a machine. -/
theorem eq_of_getsFalse? {st : Stage} {name : Ident} (h : st.getsFalse? = some name) :
    ∃ r isConst rest below, st = .running r ∧
      r.machine = .found (k := .value) (.bool false) rest
        (.push (.map (.declare isConst name)) below) := by
  unfold getsFalse? at h
  split at h
  · cases h
    exact ⟨_, _, _, _, rfl, rfl⟩
  · cases h

/-- A function that declares its parameter again. -/
def parameterAgain : Function :=
  .mk none [⟨"x", .synthetic⟩] (.mk [.declare true ⟨"x", .synthetic⟩ (.null .synthetic) .synthetic]
    .synthetic) .synthetic

/-- In the second driver step the variable is to get the value `false`, and it is a placeholder
again. -/
theorem variableTruth_declares_again : parameterAgain.Valid ∧
    (Construct.call parameterAgain).DeclaresTwice ∧ ∃ r isConst rest below,
      Relation.ReflTransGen (Leads Search.isExhausted) (variableTruth.begin (Context.new 4) .nonDet)
        (.running r) ∧
      r.machine = .found (k := .value) (.bool false) rest
        (.push (.map (.declare isConst ⟨"x", .synthetic⟩)) below) ∧
      r.context.store.binding? r.context.current "x" = some .placeholder := by
  have hAgain : getsFalse? ((next Search.isExhausted)^[18]
      (variableTruth.begin (Context.new 4) .nonDet)) = some ⟨"x", .synthetic⟩ := by decide +kernel
  obtain ⟨r, isConst, rest, below, hRunning, hMachine⟩ := eq_of_getsFalse? hAgain
  have hRun : Relation.ReflTransGen (Leads Search.isExhausted)
      (variableTruth.begin (Context.new 4) .nonDet) (.running r) :=
    hRunning ▸ leads_iterate_next 18 _
  have hValid : parameterAgain.Valid := by
    simp [parameterAgain, Function.Valid, ValidParams, Block.Valid, Stmt.AllValid, Stmt.Valid,
      Expr.Valid, Ident.Declarable, Parser.reservedNames]
  obtain ⟨-, hDeclares, -, hTwice⟩ := declarations_find_placeholders Search.isExhausted
    variableTruth (Context.new 4) .nonDet
  exact ⟨hValid, (hTwice parameterAgain hValid).mpr (by decide), r, isConst, rest, below, hRun,
    hMachine, ((hDeclares r hRun).delivers _ _ _ _ _ hMachine).1⟩

end Stage

end AmbScript
