import AmbScript.Proofs.Machine.Isolation

/-!
# Frames in force

Searches do not remember where they were started. The frames that evaluation has entered are those
around the part of the program that the machine is at, so a search finds the same ones whenever it
is asked, and a choice that goes back has no frames to leave.

* `Eval.Moves` — from which frames to which ones an action takes a context.
* `Machine.settles_step` — after a step the frames in force are those around the machine again.
* `Stage.Settled` — so they are all through a run; `Stage.Settled.leads` says why.

The machine has no pointer to an environment that could be wrong. It enters and leaves frames as it
goes down and up, and the stack of what waits tells which ones it is inside of. What has to be shown
is that a choice that goes back finds as many frames as when it was entered: then `restore`, which
only cuts the list to its old length, changes nothing.
-/

namespace AmbScript

variable {α β : Type} {retire : {k : Kind} → Search k → Bool}

-- ---------------------------------------------------------------------------
-- Actions
-- ---------------------------------------------------------------------------

namespace Eval

/-- Where the frames `fs` have been entered and `x` has a result, the frames `fs'` have been entered
afterwards. -/
def Moves (fs fs' : List FrameId) (x : Eval α) : Prop :=
  ∀ (c : Context) (a : α) (d : Context), c.inner = fs → x c = .ok a d → d.inner = fs'

/-- Where the frames `fs` have been entered, those around the machine have been entered
afterwards. -/
def Settles (fs : List FrameId) (x : Eval Machine) : Prop :=
  ∀ (c : Context) (m : Machine) (d : Context), c.inner = fs → x c = .ok m d →
    d.inner = m.stack.frames

variable {fs fs' fs'' : List FrameId}

/-- What goes forwards leaves the frames in force alone. -/
theorem Forward.moves {x : Eval α} (h : Forward x) (fs : List FrameId) : Moves fs fs x := by
  intro c a d hInner hEq
  exact (h c a d hEq).inner.trans hInner

/-- One action after the other. -/
theorem moves_bind {x : Eval α} {f : α → Eval β} (hx : Moves fs fs' x)
    (hf : ∀ a, Moves fs' fs'' (f a)) : Moves fs fs'' (x >>= f) := by
  intro c b d hInner h
  obtain ⟨a, e, hFirst, hSecond⟩ := bind_eq_ok.mp h
  exact hf a e b d (hx c a e hInner hFirst) hSecond

/-- A frame is entered. -/
theorem moves_enter (f : FrameId) : Moves fs (f :: fs) (enter f) := by
  intro c a d hInner h
  cases h
  exact congrArg (f :: ·) hInner

/-- The frame entered last is left. -/
theorem moves_leave (f : FrameId) : Moves (f :: fs) fs leave := by
  intro c a d hInner h
  cases h
  exact congrArg List.tail hInner

/-- Noting a moment enters nothing. -/
theorem moves_checkpoint : Moves fs fs checkpoint := by
  intro c a d hInner h
  cases h
  exact hInner

/-- Going back to a moment when the same frames had been entered. -/
theorem moves_restore {m : Checkpoint} (hDepth : m.innerDepth = fs.length) :
    Moves fs fs (restore m) := by
  intro c a d hInner h
  cases h
  show c.inner.drop (c.inner.length - m.innerDepth) = fs
  rw [hInner, hDepth, Nat.sub_self, List.drop_zero]

/-- A machine inside the frames that are in force. -/
theorem settles_pure {m : Machine} (h : m.stack.frames = fs) : Settles fs (pure m) := by
  intro c m' d hInner hEq
  cases hEq
  exact hInner.trans h.symm

/-- An action before it. -/
theorem settles_bind {x : Eval α} {f : α → Eval Machine} (hx : Moves fs fs' x)
    (hf : ∀ a, Settles fs' (f a)) : Settles fs (x >>= f) := by
  intro c m d hInner h
  obtain ⟨a, e, hFirst, hSecond⟩ := bind_eq_ok.mp h
  exact hf a e m d (hx c a e hInner hFirst) hSecond

/-- Where there is no machine, there is nothing to show. -/
theorem settles_throw (t : Fault) : Settles fs (throw t) := by
  intro c m d hInner h
  cases h

end Eval

open Eval

-- ---------------------------------------------------------------------------
-- Parts of a step
-- ---------------------------------------------------------------------------

namespace Machine

/-- The next alternative is started inside the same frames. -/
theorem settles_nextAlternative (start : Checkpoint) (alternatives : List Expr)
    (stack : Stack .value) : Settles stack.frames (nextAlternative start alternatives stack) := by
  cases alternatives with
  | nil => exact settles_pure rfl
  | cons e rest => exact settles_bind (e.forward_start.moves _) fun _ => settles_pure rfl

/-- An operand is asked inside the frames around the product. -/
theorem frames_pullOperand (operands : List Operand) (values : List Value) (stack : Stack .tuple) :
    (pullOperand operands values stack).stack.frames = stack.frames := by
  cases operands with
  | nil => rfl
  | cons operand below =>
    cases operand
    rfl

/-- The first operand is started there. -/
theorem settles_startProduct (exprs : List Expr) (stack : Stack .tuple) :
    Settles stack.frames (startProduct exprs stack) := by
  cases exprs with
  | nil => exact settles_pure rfl
  | cons e rest => exact settles_bind (e.forward_start.moves _) fun _ => settles_pure rfl

theorem settles_fillOperand (operand : Operand) (below : List Operand) (values : List Value)
    (v : Value) (stack : Stack .tuple) :
    Settles stack.frames (fillOperand operand below values v stack) := by
  unfold fillOperand
  split
  · exact settles_pure rfl
  · exact settles_bind ((Expr.forward_start _).moves _) fun _ => settles_pure rfl

/-- A statement is asked inside the frames around the sequence. -/
theorem frames_pullStatement (reached : List Reached) (commit : Option Nat)
    (stack : Stack .completion) :
    (pullStatement reached commit stack).stack.frames = stack.frames := by
  cases reached with
  | nil => rfl
  | cons last below =>
    obtain ⟨index, rest, s⟩ := last
    unfold pullStatement
    dsimp only
    by_cases hCommit : commit.any (index < ·)
    · rw [if_pos hCommit]
      rfl
    · rw [if_neg hCommit]
      rfl

theorem settles_startStatement (index : Nat) (stmt : Stmt) (rest : List Stmt)
    (below : List Reached) (commit : Option Nat) (stack : Stack .completion) :
    Settles stack.frames (startStatement index stmt rest below commit stack) := by
  refine settles_bind (stmt.forward_start.moves _) fun _ => ?_
  exact settles_pure (frames_pullStatement _ _ _)

/-- The first statement is started there. -/
theorem settles_startSequence (statements : List Stmt) (stack : Stack .completion) :
    Settles stack.frames (startSequence statements stack) := by
  cases statements with
  | nil => exact settles_pure rfl
  | cons stmt rest => exact settles_startStatement _ _ _ _ _ _

theorem settles_completeStatement (index : Nat) (rest : List Stmt) (completion : Completion)
    (reached : List Reached) (commit : Option Nat) (stack : Stack .completion) :
    Settles stack.frames (completeStatement index rest completion reached commit stack) := by
  unfold completeStatement
  split
  · exact settles_startStatement _ _ _ _ _ _
  · exact settles_pure rfl

section

variable {fs : List FrameId} (header : Loop) (phases : List Phase) (stack : Stack .completion)

/-- The frame of the loop, if it has one, is entered. -/
theorem moves_enterLoop : Moves fs (header.frames ++ fs) (enterLoop header) := by
  cases header with
  | whileLoop test body => exact (forward_pure _).moves _
  | forLoop init test update body frame => exact moves_enter frame

theorem moves_leaveLoop : Moves (header.frames ++ fs) fs (leaveLoop header) := by
  cases header with
  | whileLoop test body => exact (forward_pure _).moves _
  | forLoop init test update body frame => exact moves_leave frame

/-- The frame of the round is entered only while its body is started. -/
theorem moves_startBody : Moves fs fs (startBody header) := by
  cases header with
  | whileLoop test body =>
    exact (forward_bind body.forward_start fun _ => forward_pure _).moves fs
  | forLoop init test update body frame =>
    refine moves_bind ((opening_openRound _ _).forward.moves fs) fun round => ?_
    refine moves_bind (moves_enter round) fun _ => ?_
    refine moves_bind (body.forward_start.moves _) fun _ => ?_
    exact moves_bind (moves_leave round) fun _ => (forward_pure _).moves fs

/-- A part of the loop is asked inside its frame. If there is none, the frame is left. -/
theorem settles_pullPhase :
    Settles (header.frames ++ stack.frames) (pullPhase header phases stack) := by
  unfold pullPhase
  split
  · exact settles_bind (moves_leaveLoop header) fun _ => settles_pure rfl
  all_goals exact settles_pure rfl

/-- The loop has a result outside of its frame. -/
theorem settles_completeLoop (completion : Completion) :
    Settles (header.frames ++ stack.frames) (completeLoop header phases completion stack) := by
  refine settles_bind (moves_leaveLoop header) fun _ => ?_
  exact settles_pure rfl

/-- The body is asked inside the frame, or the loop is left. -/
theorem settles_afterTest (test : Value) :
    Settles (header.frames ++ stack.frames) (afterTest header phases test stack) := by
  unfold afterTest
  split
  · exact settles_bind (moves_startBody header) fun _ => settles_pullPhase header _ stack
  · exact settles_completeLoop _ _ _ _
  · exact settles_throw _

/-- The next part is asked inside the frame, or the loop is left. -/
theorem settles_afterBody (completion : Completion) :
    Settles (header.frames ++ stack.frames) (afterBody header phases completion stack) := by
  unfold afterBody
  split
  · exact settles_bind ((forward_startUpdate _).moves _) fun _ => settles_pullPhase header _ stack
  · exact settles_bind ((forward_startUpdate _).moves _) fun _ => settles_pullPhase header _ stack
  · exact settles_completeLoop _ _ _ _
  · exact settles_completeLoop _ _ _ _

end

-- ---------------------------------------------------------------------------
-- The step
-- ---------------------------------------------------------------------------

/-- A search is asked inside the frames around it. -/
theorem settles_stepPull {k : Kind} (s : Search k) (stack : Stack k) :
    Settles stack.frames (stepPull s stack) := by
  cases s with
  | once item => cases item <;> exact settles_pure rfl
  | map f inner => exact settles_pure rfl
  | bind f outer => exact settles_pure rfl
  | binding f outer inner => exact settles_pure rfl
  | within frame inner => exact settles_bind (moves_enter frame) fun _ => settles_pure rfl
  | choice alternatives =>
    exact settles_bind moves_checkpoint fun _ => settles_nextAlternative _ _ _
  | choosing start current alternatives =>
    cases current with
    | none => exact settles_nextAlternative _ _ _
    | some s => exact settles_pure rfl
  | product exprs => exact settles_startProduct _ _
  | producing operands values => exact settles_pure (frames_pullOperand _ _ _)
  | sequence statements => exact settles_startSequence _ _
  | sequenced reached commit => exact settles_pure (frames_pullStatement _ _ _)
  | loop header =>
    refine settles_bind (moves_enterLoop header) fun _ => ?_
    exact settles_bind ((forward_startLoop header).moves _) fun _ => settles_pullPhase _ _ _
  | looping header phases =>
    exact settles_bind (moves_enterLoop header) fun _ => settles_pullPhase _ _ _

/-- A result leaves the frames of the part that it was found in. -/
theorem settles_stepFound {i o : Kind} (item : i.Item) (rest : Search i) (p : Pending i o)
    (stack : Stack o) :
    Settles (p.frames ++ stack.frames) (stepFound retire item rest p stack) := by
  cases p with
  | map f => exact settles_bind ((f.forward_apply _).moves _) fun _ => settles_pure rfl
  | outer f => exact settles_bind ((f.forward_apply _).moves _) fun _ => settles_pure rfl
  | inner f outer => exact settles_pure rfl
  | within frame => exact settles_bind (moves_leave frame) fun _ => settles_pure rfl
  | choosing start alternatives => exact settles_pure rfl
  | operand exprs below values => exact settles_fillOperand _ _ _ _ _
  | statement index stmts below commit => exact settles_completeStatement _ _ _ _ _ _
  | init header below =>
    exact settles_bind ((forward_startTest header).moves _) fun _ => settles_pullPhase _ _ _
  | test header below => exact settles_afterTest _ _ _ _
  | body header below => exact settles_afterBody _ _ _ _
  | update header below =>
    exact settles_bind ((forward_startTest header).moves _) fun _ => settles_pullPhase _ _ _

/-- So does a part that has no more results. A choice goes back to a moment inside the same
frames. -/
theorem settles_stepDrained {i o : Kind} (rest : Search i) (p : Pending i o) (stack : Stack o)
    (hDepth : ∀ start, p.restores? = some start → start.innerDepth = stack.frames.length) :
    Settles (p.frames ++ stack.frames) (stepDrained rest p stack) := by
  cases p with
  | map f => exact settles_pure rfl
  | outer f => exact settles_pure rfl
  | inner f outer => exact settles_pure rfl
  | within frame => exact settles_bind (moves_leave frame) fun _ => settles_pure rfl
  | choosing start alternatives =>
    exact settles_bind (moves_restore (hDepth start rfl)) fun _ => settles_nextAlternative _ _ _
  | operand exprs below values => exact settles_pure (frames_pullOperand _ _ _)
  | statement index stmts below commit => exact settles_pure (frames_pullStatement _ _ _)
  | init header below => exact settles_pullPhase _ _ _
  | test header below => exact settles_pullPhase _ _ _
  | body header below => exact settles_pullPhase _ _ _
  | update header below => exact settles_pullPhase _ _ _

/-- As many frames were entered around the choice as there had been when it was entered. -/
def Level (h : Holding) : Prop :=
  ∀ o around, h = .choice o around → o.start.innerDepth = around.length

/-- Where there is no choice, there is nothing to show. -/
theorem level_of_choiceless {hs : List Holding} (hBare : Choiceless hs) : ∀ h ∈ hs, Level h := by
  rintro _ hMem o around rfl
  cases hBare _ hMem

/-- The frames in force are those around the machine, provided that what it goes back to are moments
when they were the same. -/
theorem settles_step {m : Machine} (hLevel : ∀ h ∈ m.holdings, Level h) :
    Settles m.stack.frames (m.step retire) := by
  obtain ⟨k, walk, stack⟩ := m
  cases walk with
  | pull s => exact settles_stepPull s stack
  | found item rest =>
    cases stack with
    | nil => exact settles_pure rfl
    | push p below => exact settles_stepFound item rest p below
  | drained rest =>
    cases stack with
    | nil => exact settles_pure rfl
    | push p below =>
      -- the choice on the stack is among the machine's holdings, so its checkpoint is level
      refine settles_stepDrained rest p below fun start hRestores => ?_
      cases p with
      | choosing start' left =>
        cases hRestores
        have hMem : .choice ⟨start, left⟩ below.frames ∈
            (Stack.push (.choosing start left) below).holdings :=
          List.mem_append_right _ (List.mem_singleton_self _)
        exact hLevel _ (List.mem_append_left _ hMem) _ _ rfl
      | _ => cases hRestores

end Machine

-- ---------------------------------------------------------------------------
-- Runs
-- ---------------------------------------------------------------------------

namespace Stage

/-- What is held in a driver step, or kept for the next one. -/
def holdings : Stage → List Holding
  | .running r => r.machine.holdings
  | .ended (.suspended s) => s.rest.holdings []
  | .ended _ => []

/-- The choices of a stage are those that it holds. -/
theorem choices_eq (st : Stage) : st.choices = choicesAmong st.holdings := by
  cases st with
  | running r => exact r.machine.choices_eq
  | ended o =>
    cases o with
    | suspended s => exact s.rest.choices_eq []
    | _ => rfl

/-- The stage that a machine has got to holds what the machine holds, but for the value found. -/
theorem holdings_stage (scheduler : Scheduler) (m : Machine) (c : Context) :
    (Running.stage scheduler (.ok m c)).holdings <+: m.holdings := by
  unfold Running.stage
  dsimp only
  split
  · exact List.prefix_rfl
  · exact List.nil_prefix
  · rename_i v rest hFinished
    rw [Machine.holdings_of_finished hFinished]
    cases scheduler with
    | nonDet => exact List.prefix_append _ _
    | preemptive => exact List.nil_prefix

/-- A walk that is not over holds what the machine holds. -/
theorem holdings_stage_unfinished (scheduler : Scheduler) {m : Machine} (c : Context)
    (h : m.finished? = none) : (Running.stage scheduler (.ok m c)).holdings = m.holdings := by
  unfold Running.stage
  dsimp only
  rw [h]
  rfl

/-- The first part of a list that was added to is the first part of the old list, or all of that and
some of what was added. -/
theorem prefix_append_cases {α : Type} {kept L new : List α} (h : kept <+: L ++ new) :
    kept <+: L ∨ ∃ new', new' <+: new ∧ kept = L ++ new' := by
  rcases List.prefix_or_prefix_of_prefix h (List.prefix_append L new) with hShort | ⟨new', rfl⟩
  · exact .inl hShort
  · exact .inr ⟨new', (List.prefix_append_right_inj L).mp h, rfl⟩

/-- What can come next does one of three things to the holdings. -/
theorem holdings_leads {a b : Stage} (h : Leads retire a b) :
    (∃ kept new, kept <+: a.holdings ∧ Choiceless new ∧ b.holdings = kept ++ new) ∨
    (∃ r e left outside new, a = .running r ∧ r.machine = .pull (.choice (e :: left)) outside ∧
      Choiceless new ∧
      b.holdings = a.holdings ++ .choice ⟨r.context.moment, left⟩ outside.frames :: new) ∨
    (∃ earlier start e left around new, Choiceless new ∧
      a.holdings = earlier ++ [.choice ⟨start, e :: left⟩ around] ∧
      b.holdings = earlier ++ .choice ⟨start, left⟩ around :: new) := by
  -- what gives up its last holdings only is a case of the first kind
  have hNone {b : Stage} (hb : b.holdings <+: a.holdings) :
      ∃ kept new, kept <+: a.holdings ∧ Choiceless new ∧ b.holdings = kept ++ new :=
    ⟨b.holdings, [], hb, choiceless_nil, (List.append_nil _).symm⟩
  cases h with
  | step r =>
    unfold Running.stepBy
    cases hStep : r.machine.step retire r.context with
    | error t d => exact .inl (hNone List.nil_prefix)
    | ok m d =>
      have hShift := Machine.holdings_step hStep
      cases hShift with
      | grows hGrows =>
        obtain ⟨kept, new, hKept, hBare, hHoldings⟩ := hGrows
        have hStage := holdings_stage r.scheduler m d
        rw [hHoldings] at hStage
        rcases prefix_append_cases hStage with hShort | ⟨new', hNew, hEq⟩
        · exact .inl (hNone (hShort.trans hKept))
        · exact .inl ⟨kept, new', hKept, fun h hh => hBare h (hNew.subset hh), hEq⟩
      | enters e left outside new hChoice hAsks hBare hHoldings =>
        refine .inr (.inl ⟨r, e, left, outside, new, rfl, hChoice, hBare, ?_⟩)
        rw [holdings_stage_unfinished _ _ hAsks]
        exact hHoldings
      | next earlier start e left around new hAsks hBare hHoldings hNext =>
        refine .inr (.inr ⟨earlier, start, e, left, around, new, hBare, hHoldings, ?_⟩)
        rw [holdings_stage_unfinished _ _ hAsks]
        exact hNext
  | resume s =>
    refine .inl (hNone ?_)
    unfold Suspension.resume
    split
    · exact List.nil_prefix
    · exact List.prefix_rfl
  | signal r => exact .inl (hNone List.prefix_rfl)
  | expire r => exact .inl (hNone List.prefix_rfl)
  | takeOutput r => exact .inl (hNone List.prefix_rfl)

/-- The frames in force are those around the machine; between driver steps there are none. -/
def InForce : Stage → Prop
  | .running r => r.context.inner = r.machine.stack.frames
  | .ended (.suspended s) => s.context.inner = []
  | .ended _ => True

/-- Beyond that, as many frames were entered around each choice as there had been when it was
entered. -/
structure Settled (st : Stage) : Prop where
  inForce : st.InForce
  level : ∀ h ∈ st.holdings, Machine.Level h

/-- A run that is over has no frames to speak of. -/
theorem settled_errored (c : Context) : (Stage.errored c).Settled := by
  refine ⟨trivial, ?_⟩
  intro _ h
  exact absurd h List.not_mem_nil

/-- At the end of a walk the machine is inside no frames. -/
theorem inForce_stage (scheduler : Scheduler) {m : Machine} {c : Context}
    (h : c.inner = m.stack.frames) : (Running.stage scheduler (.ok m c)).InForce := by
  unfold Running.stage
  dsimp only
  split
  · exact h
  · trivial
  · rename_i v rest hFinished
    cases scheduler with
    | preemptive => trivial
    | nonDet =>
      unfold Machine.finished? at hFinished
      split at hFinished
      · exact h
      · cases hFinished
      · cases hFinished

/-- Each choice keeps the depth that it was entered at. -/
theorem level_leads {a b : Stage} (h : a.Settled) (hLeads : Leads retire a b) :
    ∀ x ∈ b.holdings, Machine.Level x := by
  rcases holdings_leads hLeads with ⟨kept, new, hKept, hBare, hb⟩ |
      ⟨r, e, left, outside, new, rfl, hChoice, hBare, hb⟩ |
      ⟨earlier, start, e, left, around, new, hBare, ha, hb⟩
  · rw [hb]
    exact List.forall_mem_append.mpr
      ⟨fun x hx => h.level x (hKept.subset hx), Machine.level_of_choiceless hBare⟩
  · rw [hb]
    refine List.forall_mem_append.mpr
      ⟨h.level, List.forall_mem_cons.mpr ⟨?_, Machine.level_of_choiceless hBare⟩⟩
    intro o around hEq
    cases hEq
    -- it is entered now, inside the frames that are in force
    have hInner : r.context.inner = r.machine.stack.frames := h.inForce
    show r.context.inner.length = outside.frames.length
    rw [hInner, hChoice]
    rfl
  · have hAll := List.forall_mem_append.mp (ha ▸ h.level)
    rw [hb]
    refine List.forall_mem_append.mpr
      ⟨hAll.1, List.forall_mem_cons.mpr ⟨?_, Machine.level_of_choiceless hBare⟩⟩
    intro o around' hEq
    cases hEq
    exact hAll.2 _ (List.mem_singleton_self _) ⟨start, e :: left⟩ around rfl

/-- Whatever comes next in a run, the frames in force are those around the machine. -/
theorem Settled.leads {a b : Stage} (h : a.Settled) (hLeads : Leads retire a b) : b.Settled := by
  -- the step needs the holdings level before it, and leaves them so
  have hLevel := level_leads h hLeads
  refine ⟨?_, hLevel⟩
  cases hLeads with
  | step r =>
    unfold Running.stepBy
    cases hStep : r.machine.step retire r.context with
    | error t d => trivial
    | ok m d =>
      exact inForce_stage r.scheduler (Machine.settles_step h.level _ _ _ h.inForce hStep)
  | resume s =>
    unfold Suspension.resume
    split
    · trivial
    · exact h.inForce
  | signal r => exact h.inForce
  | expire r => exact h.inForce
  | takeOutput r => exact h.inForce

/-- A program begins with the frames that outlast it, and with nothing that waits. -/
theorem settled_begin (p : Program) (c : Context) (scheduler : Scheduler) :
    (p.begin c scheduler).Settled := by
  unfold Program.begin
  dsimp only
  split
  · rename_i s d hStart
    obtain ⟨u, e, hEnter, hSearch⟩ := Eval.bind_eq_ok.mp hStart
    cases hSearch
    refine ⟨?_, ?_⟩
    · obtain ⟨f, e₁, -, hEnter⟩ := Eval.bind_eq_ok.mp hEnter
      obtain ⟨u, e₂, -, hEnter⟩ := Eval.bind_eq_ok.mp hEnter
      cases hEnter
      rfl
    · have hFresh := Search.Fresh.map .program (.sequence p.body.statements)
      exact Machine.level_of_choiceless (hFresh.choiceless_holdings [])
  · exact settled_errored _

/-- A run keeps every stage settled. -/
theorem Settled.run {a b : Stage} (h : a.Settled)
    (hRun : Relation.ReflTransGen (Leads retire) a b) : b.Settled := by
  induction hRun with
  | refl => exact h
  | tail _ hLeads ih => exact ih.leads hLeads

-- ---------------------------------------------------------------------------
-- Choices under way
-- ---------------------------------------------------------------------------

/-- What was held when a choice was entered is held as it was, and before all that came later, as
long as the choice is under way. -/
def Keeps (entry : Running) (outside : Stack .value) (st : Stage) : Prop :=
  ∃ left later, st.holdings =
    outside.holdings ++ .choice ⟨entry.context.moment, left⟩ outside.frames :: later

/-- More choices are under way than outside of this one. -/
theorem Holds.length_lt {entry : Running} {outside : Stack .value} {st : Stage}
    (h : st.Holds outside.choices entry.context.moment) :
    outside.choices.length < (choicesAmong st.holdings).length := by
  obtain ⟨left, inner, hChoices⟩ := h
  rw [← st.choices_eq, hChoices, List.length_append, List.length_cons]
  omega

/-- Right after it was entered, the choice has the frames in force that it noted. -/
theorem keeps_entered {entry : Running} {alternatives : List Expr} {outside : Stack .value}
    (hEntry : entry.machine = .pull (.choice alternatives) outside)
    (hHolds : (entry.stepBy retire).Holds outside.choices entry.context.moment) :
    Keeps entry outside (entry.stepBy retire) := by
  have hBefore : (Stage.running entry).holdings = outside.holdings := by
    show entry.machine.holdings = _
    rw [hEntry]
    show outside.holdings ++ (Search.choice alternatives).holdings outside.frames = _
    rw [Search.holdings, List.append_nil]
  have hMore := hHolds.length_lt
  rw [outside.choices_eq] at hMore
  rcases holdings_leads (.step entry : Leads retire _ _) with ⟨kept, new, hKept, hBare, hb⟩ |
      ⟨r, e, left, below, new, hRunning, hChoice, -, hb⟩ |
      ⟨earlier, start, e, left, around, new, hBare, ha, hb⟩
  · -- no choice would be under way that was not before
    rw [hb, choicesAmong_append, hBare.choicesAmong_eq, List.append_nil] at hMore
    have hLength := (hKept.filterMap Holding.choice?).length_le
    rw [hBefore] at hLength
    exact absurd hMore (Nat.not_lt.mpr hLength)
  -- the choice has been entered
  · cases hRunning
    rw [hEntry] at hChoice
    cases hChoice
    rw [hBefore] at hb
    exact ⟨left, new, hb⟩
  -- going on with a choice would not make them more
  · rw [← hBefore, ha, hb] at hMore
    simp [hBare.choicesAmong_eq] at hMore

/-- What comes next leaves the frames around a choice alone while the choice is under way. -/
theorem Keeps.leads {entry : Running} {outside : Stack .value} {a b : Stage}
    (h : Keeps entry outside a) (hLeads : Leads retire a b)
    (hHolds : b.Holds outside.choices entry.context.moment) : Keeps entry outside b := by
  obtain ⟨left, later, ha⟩ := h
  have hMore := hHolds.length_lt
  rw [outside.choices_eq] at hMore
  rcases holdings_leads hLeads with ⟨kept, new, hKept, hBare, hb⟩ |
      ⟨r, e, last, below, new, -, -, -, hb⟩ |
      ⟨earlier, start, e, last, around, new, -, hLast, hb⟩
  · rw [ha] at hKept
    rcases prefix_append_cases hKept with hShort | ⟨more, hPrefix, hEq⟩
    · -- the choice itself would have been given up
      rw [hb, choicesAmong_append, hBare.choicesAmong_eq, List.append_nil] at hMore
      exact absurd hMore (Nat.not_lt.mpr (hShort.filterMap Holding.choice?).length_le)
    · cases more with
      | nil =>
        rw [hb, hEq, List.append_nil, choicesAmong_append, hBare.choicesAmong_eq,
          List.append_nil] at hMore
        exact absurd hMore (Nat.lt_irrefl _)
      | cons x more =>
        obtain ⟨rfl, -⟩ := List.cons_prefix_cons.mp hPrefix
        refine ⟨left, more ++ new, ?_⟩
        rw [hb, hEq, List.append_assoc]
        rfl
  -- another choice is entered, inside this one
  · refine ⟨left, later ++ .choice ⟨r.context.moment, last⟩ below.frames :: new, ?_⟩
    rw [hb, ha, List.append_assoc]
    rfl
  -- a choice goes on: this very one, or one inside it
  · rcases last_of_choices (ha.symm.trans hLast) with ⟨-, hSame, rfl⟩ | ⟨init, -, rfl⟩
    · cases hSame
      exact ⟨last, new, hb⟩
    · refine ⟨left, init ++ .choice ⟨start, last⟩ around :: new, ?_⟩
      rw [hb, List.append_assoc]
      rfl

/-- Whatever has happened since a choice was entered, what was held then is still held. -/
theorem Since.keeps {entry : Running} {alternatives : List Expr} {outside : Stack .value}
    {st : Stage} (hEntry : entry.machine = .pull (.choice alternatives) outside)
    (h : Since retire entry outside st) : Keeps entry outside st := by
  induction h with
  | entered hHolds => exact keeps_entered hEntry hHolds
  | step _ hLeads hHolds ih => exact ih.leads hLeads hHolds

/-- A choice that goes back does so amid what was held when it was entered, and inside the same
frames. -/
theorem Since.restores {entry : Running} {alternatives : List Expr} {outside : Stack .value}
    {r : Running} (hEntry : entry.machine = .pull (.choice alternatives) outside)
    (h : Since retire entry outside (.running r)) {rest : Search .value} {start : Checkpoint}
    {left : List Expr} {below : Stack .value}
    (hMachine : r.machine = .drained rest (.push (.choosing start left) below))
    (hChoices : outside.choices = below.choices) :
    below.holdings = outside.holdings ∧ below.frames = outside.frames := by
  obtain ⟨left', later, hKept⟩ := h.keeps hEntry
  have hHoldings : (Stage.running r).holdings =
      below.holdings ++ [.choice ⟨start, left⟩ below.frames] := by
    show r.machine.holdings = _
    rw [hMachine]
    exact List.append_nil _
  rcases last_of_choices (hKept.symm.trans hHoldings) with ⟨-, hSame, hOutside⟩ | ⟨init, -, hBelow⟩
  · obtain ⟨-, hFrames⟩ := Holding.choice.inj hSame
    exact ⟨hOutside.symm, hFrames.symm⟩
  · -- then this choice would be around itself
    have hLength := congrArg List.length hChoices
    rw [below.choices_eq, outside.choices_eq, hBelow] at hLength
    simp at hLength

end Stage

end AmbScript
