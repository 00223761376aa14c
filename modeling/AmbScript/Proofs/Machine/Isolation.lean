import AmbScript.Proofs.Machine.Choices

/-!
# Alternatives begin as of one moment

A choice notes the moment at which it is entered, and goes back to it whenever an alternative has
no more results. Here it is shown that this undoes everything that has happened to the bindings
since: the writes of the alternatives, of choices inside them, of statements that a `cut` has given
up, and of all that came after the choice, in however many driver steps.

* `Stage.Since` — a choice has been under way since it was entered.
* `Stage.Intact` — meanwhile the trail can take back all that has changed; `Stage.Intact.leads`
  says that whatever comes next keeps it so.
* `Stage.exists_entry` — every choice under way was entered in the run.
* `Stage.choice_restores_bindings` — a choice that goes back finds every frame as it was.
-/

namespace AmbScript

variable {retire : {k : Kind} → Search k → Bool}

-- ---------------------------------------------------------------------------
-- Runs
-- ---------------------------------------------------------------------------

namespace Stage

/-- The choices under way, the earliest first. -/
def choices : Stage → List OpenChoice
  | .running r => r.machine.choices
  | .ended (.suspended s) => s.rest.choices
  | .ended _ => []

/-- The context that the stage has come to. -/
def context : Stage → Context
  | .running r => r.context
  | .ended o => o.context

/-- Between driver steps the choices under way are those of the machine, or there are none any
more. -/
theorem choices_stage (scheduler : Scheduler) (m : Machine) (c : Context) :
    (Running.stage scheduler (.ok m c)).choices = m.choices ∨
      (Running.stage scheduler (.ok m c)).choices = [] := by
  unfold Running.stage
  dsimp only
  split
  · exact .inl rfl
  · exact .inr rfl
  · rename_i v rest hFinished
    cases scheduler with
    | nonDet => exact .inl (Machine.choices_of_finished hFinished).symm
    | preemptive => exact .inr rfl

/-- What a step comes to has the context that the step has left. -/
theorem context_stage (scheduler : Scheduler) (m : Machine) (c : Context) :
    (Running.stage scheduler (.ok m c)).context = c := by
  unfold Running.stage
  dsimp only
  split
  · rfl
  · rfl
  · cases scheduler <;> rfl

/-- What can come next does one of three things to the choices under way. -/
theorem choices_leads {a b : Stage} (h : Leads retire a b) :
    b.choices <+: a.choices ∨
    (∃ r e left outside, a = .running r ∧ b = r.stepBy retire ∧
      r.machine = .pull (.choice (e :: left)) outside ∧
      b.choices = a.choices ++ [⟨r.context.moment, left⟩]) ∨
    (∃ earlier start e left, a.choices = earlier ++ [⟨start, e :: left⟩] ∧
      b.choices = earlier ++ [⟨start, left⟩]) := by
  cases h with
  | step r =>
    cases hStep : r.machine.step retire r.context with
    | error t d =>
      refine .inl ?_
      unfold Running.stepBy
      rw [hStep]
      exact List.nil_prefix
    | ok m d =>
      have hTurn := Machine.choices_step hStep
      -- a stage that has ended without a suspension has no choices left
      have hStage : (r.stepBy retire).choices = m.choices ∨ (r.stepBy retire).choices = [] := by
        unfold Running.stepBy
        rw [hStep]
        exact choices_stage r.scheduler m d
      rcases hStage with hStage | hStage
      · cases hTurn with
        | within hWithin => exact .inl (hStage ▸ hWithin)
        | enters e left outside hChoice hChoices =>
          exact .inr (.inl ⟨r, e, left, outside, rfl, rfl, hChoice, hStage.trans hChoices⟩)
        | next earlier start e left hChoices hNext =>
          exact .inr (.inr ⟨earlier, start, e, left, hChoices, hStage.trans hNext⟩)
      · exact .inl (hStage ▸ List.nil_prefix)
  | resume s =>
    refine .inl ?_
    unfold Suspension.resume
    split
    · exact List.nil_prefix
    · exact List.prefix_rfl
  | signal r => exact .inl List.prefix_rfl
  | expire r => exact .inl List.prefix_rfl
  | takeOutput r => exact .inl List.prefix_rfl

/-- A step that leaves a choice under way is not a fault. -/
theorem ok_of_open {r : Running} (hOpen : (r.stepBy retire).choices ≠ []) :
    ∃ m, r.machine.step retire r.context = .ok m (r.stepBy retire).context := by
  unfold Running.stepBy at hOpen ⊢
  cases hStep : r.machine.step retire r.context with
  | error t d =>
    rw [hStep] at hOpen
    exact absurd rfl hOpen
  | ok m d => exact ⟨m, congrArg _ (context_stage r.scheduler m d).symm⟩

/-- A search for a choice that has not been entered is not under way. -/
theorem choices_running_choice {r : Running} {alternatives : List Expr} {outside : Stack .value}
    (hMachine : r.machine = .pull (.choice alternatives) outside) :
    (Stage.running r).choices = outside.choices := by
  show r.machine.choices = _
  rw [hMachine]
  exact (congrArg _ (Search.Fresh.choice _).choices_eq).trans (List.append_nil _)

/-- While a choice is under way, what can come next only loses changes that were made since some
choice was entered, the last one under way. -/
theorem descends_leads {a b : Stage} (h : Leads retire a b) (hOpen : b.choices ≠ []) :
    ∃ s, (s = a.context.store ∨ ∃ earlier o, a.choices = earlier ++ [o] ∧
      s = a.context.store.unwindTo o.start.trailLength) ∧ s.Descends b.context.store := by
  cases h with
  | step r =>
    -- an open choice rules out a fault, and the store a step starts from is the context's own or
    -- the one the innermost choice puts back
    obtain ⟨m, hStep⟩ := ok_of_open hOpen
    refine ⟨_, ?_, (Machine.proceeds_step hStep).store⟩
    unfold Machine.origin
    split
    · rename_i start hRestores
      obtain ⟨earlier, left, hChoices⟩ := Machine.choices_of_restores hRestores
      exact .inr ⟨earlier, _, hChoices, rfl⟩
    · exact .inl rfl
  | resume s =>
    unfold Suspension.resume
    split
    · exact ⟨_, .inl rfl, .refl _⟩
    · exact ⟨_, .inl rfl, .refl _⟩
  | signal r => exact ⟨_, .inl rfl, .refl _⟩
  | expire r => exact ⟨_, .inl rfl, .refl _⟩
  | takeOutput r => exact ⟨_, .inl rfl, .refl _⟩

/-- The choice that was entered at `start`, inside the choices `outer`, is under way. -/
def Holds (outer : List OpenChoice) (start : Checkpoint) (st : Stage) : Prop :=
  ∃ left inner, st.choices = outer ++ ⟨start, left⟩ :: inner

/-- Where one choice is under way, there are some. -/
theorem Holds.choices_ne_nil {outer : List OpenChoice} {start : Checkpoint} {st : Stage}
    (h : st.Holds outer start) : st.choices ≠ [] := by
  obtain ⟨left, inner, hChoices⟩ := h
  rw [hChoices]
  exact List.append_ne_nil_of_right_ne_nil _ (List.cons_ne_nil _ _)

/-- The choice that `entry` enters, with the searches `outside` waiting for it, has been under way
all the time. -/
inductive Since (retire : {k : Kind} → Search k → Bool) (entry : Running)
    (outside : Stack .value) : Stage → Prop
  | entered (hHolds : (entry.stepBy @retire).Holds outside.choices entry.context.moment) :
      Since @retire entry outside (entry.stepBy @retire)
  | step {a b : Stage} (hSince : Since @retire entry outside a) (hLeads : Leads @retire a b)
      (hHolds : b.Holds outside.choices entry.context.moment) : Since @retire entry outside b

/-- What is true of a choice from its entry on. -/
structure Intact (entry : Running) (alternatives : List Expr) (outside : Stack .value)
    (st : Stage) : Prop where
  store : entry.context.store.mark.Descends st.context.store
  /-- The choice has begun its alternatives in their order, and the choices inside it have been
  entered later. -/
  choices : ∃ tried left inner, tried ≠ [] ∧ alternatives = tried ++ left ∧
    st.choices = outside.choices ++ ⟨entry.context.moment, left⟩ :: inner ∧
    ∀ o ∈ inner, entry.context.store.trail.size ≤ o.start.trailLength

/-- The last one of a list that has `x` in it is `x`, or comes after it. -/
theorem last_of_choices {α : Type} {outer inner earlier : List α} {x o : α}
    (h : outer ++ x :: inner = earlier ++ [o]) :
    (inner = [] ∧ x = o ∧ outer = earlier) ∨
      ∃ init, inner = init ++ [o] ∧ earlier = outer ++ x :: init := by
  rcases List.eq_nil_or_concat inner with rfl | ⟨init, last, rfl⟩
  · obtain ⟨hOuter, hLast⟩ := List.append_inj' h rfl
    exact .inl ⟨rfl, List.head_eq_of_cons_eq hLast, hOuter⟩
  · rw [List.concat_eq_append, ← List.cons_append, ← List.append_assoc] at h
    obtain ⟨hOuter, hLast⟩ := List.append_inj' h rfl
    refine .inr ⟨init, ?_, hOuter.symm⟩
    rw [List.concat_eq_append, List.head_eq_of_cons_eq hLast]

/-- What is lost are changes made since the choice was entered, and the choices that come and go are
later ones, unless the choice itself goes on. -/
theorem Intact.leads {entry : Running} {alternatives : List Expr} {outside : Stack .value}
    {a b : Stage} (h : Intact entry alternatives outside a) (hLeads : Leads retire a b)
    (hHolds : b.Holds outside.choices entry.context.moment) :
    Intact entry alternatives outside b := by
  obtain ⟨hStore, tried, left, inner, hTried, hAlternatives, hChoices, hInner⟩ := h
  -- what is lost are changes made since
  have hStore' : entry.context.store.mark.Descends b.context.store := by
    obtain ⟨s, hFrom, hTo⟩ := descends_leads hLeads hHolds.choices_ne_nil
    refine Store.Descends.trans ?_ hTo
    rcases hFrom with rfl | ⟨earlier, o, hLast, rfl⟩
    · exact hStore
    · refine hStore.unwindTo ?_
      rcases last_of_choices (hChoices.symm.trans hLast) with ⟨-, rfl, -⟩ | ⟨init, rfl, -⟩
      · exact Nat.le_refl _
      · exact hInner o (List.mem_append_right _ (List.mem_singleton_self o))
  refine ⟨hStore', ?_⟩
  obtain ⟨left', inner', hChoices'⟩ := hHolds
  rcases choices_leads hLeads with hWithin | ⟨r, e, last, below, rfl, rfl, -, hEnters⟩ |
      ⟨earlier, start, e, last, hLast, hNext⟩
  · -- choices inside it have been given up
    rw [hChoices, hChoices', List.prefix_append_right_inj, List.cons_prefix_cons] at hWithin
    obtain ⟨hSame, hKept⟩ := hWithin
    cases hSame
    exact ⟨tried, left, inner', hTried, hAlternatives, hChoices',
      fun o ho => hInner o (hKept.subset ho)⟩
  · -- one more has been entered, now
    rw [hChoices, List.append_assoc, List.cons_append] at hEnters
    refine ⟨tried, left, _, hTried, hAlternatives, hEnters, ?_⟩
    intro o ho
    rcases List.mem_append.mp ho with hOld | hNew
    · exact hInner o hOld
    · rw [List.mem_singleton.mp hNew]
      exact hStore.size_le
  · rcases last_of_choices (hChoices.symm.trans hLast) with ⟨rfl, hSame, rfl⟩ | ⟨init, rfl, rfl⟩
    · -- it has itself gone on
      cases hSame
      refine ⟨tried ++ [e], last, [], ?_, ?_, hNext, ?_⟩
      · exact List.append_ne_nil_of_left_ne_nil hTried _
      · rw [hAlternatives, List.append_assoc, List.singleton_append]
      · intro o ho
        exact absurd ho List.not_mem_nil
    · -- the last one inside it has gone on
      rw [List.append_assoc, List.cons_append] at hNext
      refine ⟨tried, left, _, hTried, hAlternatives, hNext, ?_⟩
      intro o ho
      rcases List.mem_append.mp ho with hOld | hNew
      · exact hInner o (List.mem_append_left _ hOld)
      · rw [List.mem_singleton.mp hNew]
        exact hInner ⟨start, e :: last⟩ (List.mem_append_right _ (List.mem_singleton_self _))

/-- At the entry of a choice. -/
theorem intact_entered {entry : Running} {alternatives : List Expr} {outside : Stack .value}
    (hEntry : entry.machine = .pull (.choice alternatives) outside)
    (hHolds : (entry.stepBy retire).Holds outside.choices entry.context.moment) :
    Intact entry alternatives outside (entry.stepBy retire) := by
  have hEntryChoices := choices_running_choice hEntry
  obtain ⟨m, hStep⟩ := ok_of_open hHolds.choices_ne_nil
  rw [hEntry] at hStep
  obtain ⟨start, c, hNote, hNext⟩ := Eval.bind_eq_ok.mp hStep
  cases hNote
  refine ⟨(Machine.forward_nextAlternative _ _ _ _ _ _ hNext).store, ?_⟩
  obtain ⟨left, inner, hChoices⟩ := hHolds
  rcases choices_leads (.step entry : Leads retire _ _) with hWithin |
      ⟨r, e, last, below, hRunning, -, hChoice, hEnters⟩ |
      ⟨earlier, start, e, last, hLast, hNextChoices⟩
  -- staying within the choices outside is ruled out by their number
  · rw [hEntryChoices, hChoices] at hWithin
    have hLength := hWithin.length_le
    rw [List.length_append, List.length_cons] at hLength
    omega
  · cases hRunning
    rw [hEntry] at hChoice
    cases hChoice
    rw [hEntryChoices] at hEnters
    exact ⟨[e], last, [], List.cons_ne_nil _ _, rfl, hEnters,
      fun o ho => absurd ho List.not_mem_nil⟩
  -- and so is going on with one of them
  · have hLength := congrArg List.length (hChoices.symm.trans hNextChoices)
    have hLastLength := congrArg List.length (hEntryChoices.symm.trans hLast)
    simp only [List.length_append, List.length_cons, List.length_nil] at hLength hLastLength
    omega

/-- From its entry on, a choice under way is intact. -/
theorem Since.intact {entry : Running} {alternatives : List Expr} {outside : Stack .value}
    {st : Stage} (hEntry : entry.machine = .pull (.choice alternatives) outside)
    (h : Since retire entry outside st) : Intact entry alternatives outside st := by
  induction h with
  | entered hHolds => exact intact_entered hEntry hHolds
  | step _ hLeads hHolds ih => exact ih.leads hLeads hHolds

/-- Every choice under way was entered in the run. -/
theorem exists_entry {first st : Stage} (hFirst : first.choices = [])
    (hRun : Relation.ReflTransGen (Leads retire) first st) {outer inner : List OpenChoice}
    {o : OpenChoice} (hChoices : st.choices = outer ++ o :: inner) :
    ∃ entry alternatives outside, Relation.ReflTransGen (Leads retire) first (.running entry) ∧
      entry.machine = .pull (.choice alternatives) outside ∧ outside.choices = outer ∧
      entry.context.moment = o.start ∧ Since retire entry outside st := by
  induction hRun generalizing outer inner o with
  | refl =>
    rw [hFirst] at hChoices
    exact absurd hChoices.symm (List.append_ne_nil_of_right_ne_nil _ (List.cons_ne_nil _ _))
  | @tail a b hRun hLeads ih =>
    -- it was under way before, and still is
    have hOld {left : List Expr} {more : List OpenChoice}
        (ha : a.choices = outer ++ ⟨o.start, left⟩ :: more) :
        ∃ entry alternatives outside, Relation.ReflTransGen (Leads retire) first (.running entry) ∧
          entry.machine = .pull (.choice alternatives) outside ∧ outside.choices = outer ∧
          entry.context.moment = o.start ∧ Since retire entry outside b := by
      obtain ⟨entry, alternatives, outside, hReach, hEntry, hOuter, hStart, hSince⟩ := ih ha
      refine ⟨entry, alternatives, outside, hReach, hEntry, hOuter, hStart, .step hSince hLeads ?_⟩
      rw [hOuter, hStart]
      exact ⟨o.left, inner, hChoices⟩
    rcases choices_leads hLeads with ⟨more, hWithin⟩ |
        ⟨r, e, left, outside, rfl, rfl, hEntry, hEnters⟩ |
        ⟨earlier, start, e, left, hLast, hNext⟩
    · rw [hChoices, List.append_assoc] at hWithin
      exact hOld hWithin.symm
    · rw [hChoices] at hEnters
      rcases last_of_choices hEnters with ⟨-, hSame, hOuter⟩ | ⟨init, -, ha⟩
      · have hOutside : outside.choices = outer :=
          (hOuter.trans (choices_running_choice hEntry)).symm
        refine ⟨r, _, outside, hRun, hEntry, hOutside, ?_, .entered ?_⟩
        · rw [hSame]
        · refine ⟨o.left, inner, ?_⟩
          rw [hChoices, hOutside, hSame]
      · exact hOld ha
    · rw [hChoices] at hNext
      rcases last_of_choices hNext with ⟨-, hSame, hOuter⟩ | ⟨init, -, hEarlier⟩
      · rw [← hOuter] at hLast
        have hBefore : a.choices = outer ++ [⟨o.start, e :: left⟩] := by rw [hLast, hSame]
        exact hOld hBefore
      · rw [hEarlier, List.append_assoc] at hLast
        exact hOld hLast

/-- A program has entered no choice when it begins. -/
theorem choices_begin (p : Program) (c : Context) (scheduler : Scheduler) :
    (p.begin c scheduler).choices = [] := by
  unfold Program.begin
  dsimp only
  split
  · rename_i s d hStart
    have hFresh : Eval.Returns Search.Fresh p.start :=
      Eval.returns_bind fun _ => Eval.returns_pure (.map _ (.sequence _))
    exact (hFresh _ _ _ hStart).choices_eq
  · rfl

/-- A choice that goes back was entered earlier in the run, and has been under way ever since. All
frames that were there when it was entered are exactly as they were then. -/
theorem exists_entry_of_restores {first : Stage} (hFirst : first.choices = []) {r : Running}
    (hRun : Relation.ReflTransGen (Leads retire) first (.running r)) {rest : Search .value}
    {start : Checkpoint} {left : List Expr} {below : Stack .value}
    (hMachine : r.machine = .drained rest (.push (.choosing start left) below)) :
    ∃ entry alternatives outside,
      Relation.ReflTransGen (Leads retire) first (.running entry) ∧
      entry.machine = .pull (.choice alternatives) outside ∧
      Since retire entry outside (.running r) ∧
      outside.choices = below.choices ∧
      entry.context.moment = start ∧
      (∃ tried, tried ≠ [] ∧ alternatives = tried ++ left) ∧
      ∀ f, f < entry.context.store.nextFrame →
        (r.context.restore start).store.scope? f = entry.context.store.scope? f := by
  have hChoices : (Stage.running r).choices = below.choices ++ [⟨start, left⟩] := by
    show r.machine.choices = _
    rw [hMachine]
    exact List.append_nil _
  obtain ⟨entry, alternatives, outside, hReach, hEntry, hOuter, hStart, hSince⟩ :=
    exists_entry hFirst hRun hChoices
  obtain ⟨hStore, tried, left', inner, hTried, hAlternatives, hKept, -⟩ := hSince.intact hEntry
  -- the choice drained here is the one entered there, both being the innermost
  have hLeft : left' = left := by
    rw [hChoices, hOuter] at hKept
    have hSame := List.append_cancel_left hKept
    cases hSame
    rfl
  refine ⟨entry, alternatives, outside, hReach, hEntry, hSince, hOuter, hStart,
    ⟨tried, hTried, hLeft ▸ hAlternatives⟩, ?_⟩
  intro f hf
  show (r.context.store.unwindTo start.trailLength).scope? f = _
  rw [show start = entry.context.moment from hStart.symm]
  exact hStore.scope?_unwindTo_mark hf

/-- A choice without further results goes back, and on to its next alternative. -/
theorem step_restores {r : Running} {rest : Search .value} {start : Checkpoint} {left : List Expr}
    {below : Stack .value}
    (hMachine : r.machine = .drained rest (.push (.choosing start left) below)) :
    r.machine.step retire r.context =
      Machine.nextAlternative start left below (r.context.restore start) := by
  rw [hMachine]
  rfl

/-- Whenever in the run of a program a choice goes back, after an alternative without further
results, then it was entered earlier in that run, has been under way ever since, and goes on with
its next alternative, or to its end, in a context where all frames that were there when it was
entered are exactly as they were then. -/
theorem choice_restores_bindings {p : Program} {c : Context} {scheduler : Scheduler} {r : Running}
    (hRun : Relation.ReflTransGen (Leads retire) (p.begin c scheduler) (.running r))
    {rest : Search .value} {start : Checkpoint} {left : List Expr} {below : Stack .value}
    (hMachine : r.machine = .drained rest (.push (.choosing start left) below)) :
    ∃ entry alternatives outside,
      Relation.ReflTransGen (Leads retire) (p.begin c scheduler) (.running entry) ∧
      entry.machine = .pull (.choice alternatives) outside ∧
      Since retire entry outside (.running r) ∧
      outside.choices = below.choices ∧
      entry.context.moment = start ∧
      (∃ tried, tried ≠ [] ∧ alternatives = tried ++ left) ∧
      ∃ d, r.machine.step retire r.context = Machine.nextAlternative start left below d ∧
        ∀ f, f < entry.context.store.nextFrame →
          d.store.scope? f = entry.context.store.scope? f := by
  obtain ⟨entry, alternatives, outside, hReach, hEntry, hSince, hOuter, hStart, hTried, hScopes⟩ :=
    exists_entry_of_restores (choices_begin p c scheduler) hRun hMachine
  exact ⟨entry, alternatives, outside, hReach, hEntry, hSince, hOuter, hStart, hTried, _,
    step_restores hMachine, hScopes⟩

/-- A program of one statement, a choice between `true` and `false`. -/
def eitherTruth : Program :=
  let alternatives : List Expr := [.bool true .synthetic, .bool false .synthetic]
  ⟨.mk [.expr (.call (.ident ⟨"amb", .synthetic⟩) alternatives .synthetic)] .synthetic, .synthetic⟩

/-- After one driver step and six machine steps of the next one, `false` is still left. -/
theorem eitherTruth_restores : ∃ r rest start left below,
    Relation.ReflTransGen (Leads Search.isExhausted) (eitherTruth.begin (Context.new 4) .nonDet)
      (.running r) ∧
    r.machine = .drained rest (.push (.choosing start left) below) ∧
    left = [.bool false .synthetic] ∧
    ∃ (entry : Running) (d : Context), entry.context.moment = start ∧
      r.machine.step Search.isExhausted r.context = Machine.nextAlternative start left below d ∧
      ∀ f, f < entry.context.store.nextFrame →
        d.store.scope? f = entry.context.store.scope? f := by
  have hStage : ∃ r rest start left below,
      (next Search.isExhausted)^[15] (eitherTruth.begin (Context.new 4) .nonDet) = .running r ∧
      r.machine = Machine.drained rest (.push (.choosing start left) below) ∧
      left = [.bool false .synthetic] := ⟨_, _, _, _, _, rfl, rfl, rfl⟩
  obtain ⟨r, rest, start, left, below, hRunning, hMachine, hLeft⟩ := hStage
  have hRun : Relation.ReflTransGen (Leads Search.isExhausted)
      (eitherTruth.begin (Context.new 4) .nonDet) (.running r) :=
    hRunning ▸ leads_iterate_next 15 _
  obtain ⟨entry, _, _, -, -, -, -, hStart, -, d, hStep, hScopes⟩ :=
    choice_restores_bindings hRun hMachine
  exact ⟨r, rest, start, left, below, hRun, hMachine, hLeft, entry, d, hStart, hStep, hScopes⟩

end Stage

end AmbScript
