import AmbScript.Proofs.Machine.Conserved
import AmbScript.Proofs.Machine.Settings
import AmbScript.Proofs.Machine.Started

/-!
# Asked where it was started

Beside a run a ledger is kept: for each search under way it has the frames that were in force when
the search was started. It is shown that a search is always asked with exactly these frames in
force, in whatever driver step and after whatever choices have gone back, and that whoever asks it
finds them in force again afterwards.

* `Stage.Starts` — a step starts searches; `Stage.Noted` is the ledger of a run.
* `Stage.Noted.eq_environments` — the ledger has the frames around each search under way.
* `Stage.asked_where_started` — what this means for a machine that asks a search, or is done with
  it.

The ledger is kept without looking at how the machine finds the frames again: what it has for a
search was written down once, when the search was started, and is struck out when the search is
given up. So that it agrees with the frames around each search under way is a statement about the
machine.
-/

namespace AmbScript

variable {retire : {k : Kind} → Search k → Bool} {p : Program} {c : Context}
  {scheduler : Scheduler}

/-- The search is the statements of a scope, which are what is inside the frame of the scope. -/
def Search.isScope {k : Kind} : Search k → Bool
  | .sequence _ => true
  | .sequenced .. => true
  | _ => false

/-- The first entry of a search is for the search itself. -/
theorem Search.surroundings_head {k : Kind} {s : Search k} (h : s.isScope = false)
    (around : List FrameId) : (s.surroundings around)[0]? = some around := by
  cases s with
  | sequence statements => cases h
  | sequenced reached commit => cases h
  | choosing start current alternatives => cases current <;> (rw [surroundings]; rfl)
  | _ => rw [surroundings]; rfl

namespace Stage

open Machine

/-- The frames around each search under way, the earliest first. -/
def surroundings : Stage → List (List FrameId)
  | .running r => r.machine.surroundings
  | .ended (.suspended s) => s.rest.surroundings []
  | .ended _ => []

-- ---------------------------------------------------------------------------
-- The ledger
-- ---------------------------------------------------------------------------

/-- The step from `a` to `b` evaluates a node and asks the search that this comes to. The first `n`
searches stay under way; `born` are the frames in force where the others were started. -/
inductive Starts (retire : {k : Kind} → Search k → Bool) :
    Stage → Stage → Nat → List (List FrameId) → Prop
  | step {r : Running} {m : Machine} {d e : Context} {x : Eval Started} {k : Kind} {s : Search k}
      {stack : Stack k} (hStep : r.machine.step @retire r.context = .ok m d)
      (hNode : r.machine.evaluation? = some x)
      (hStart : x (r.machine.opening r.context) = .ok ⟨k, s⟩ e) (hNext : m = .pull s stack) :
      Starts @retire (.running r) (r.stepBy @retire) stack.surroundings.length
        ((s.surroundings (r.machine.opening r.context).inner).map
          (· ++ (r.machine.opening r.context).outer))

/-- Beside the run of a program: the frames that were in force where each search under way was
started. What is no longer under way is struck out at the end, what is started is added. -/
inductive Noted (retire : {k : Kind} → Search k → Bool) (p : Program) (c : Context)
    (scheduler : Scheduler) : Stage → List (List FrameId) → Prop
  | begins {r : Running} (h : p.begin c scheduler = .running r) :
      Noted @retire p c scheduler (.running r) [r.context.environments]
  | kept {a b : Stage} {noted : List (List FrameId)} (h : Noted @retire p c scheduler a noted)
      (hLeads : Leads @retire a b) (hNone : ∀ n born, ¬ Starts @retire a b n born) :
      Noted @retire p c scheduler b (noted.take b.surroundings.length)
  | started {a b : Stage} {noted born : List (List FrameId)} {n : Nat}
      (h : Noted @retire p c scheduler a noted) (hStarts : Starts @retire a b n born) :
      Noted @retire p c scheduler b (noted.take n ++ born)

/-- To start searches is one thing that can come next. -/
theorem Starts.leads {a b : Stage} {n : Nat} {born : List (List FrameId)}
    (h : Starts retire a b n born) : Leads retire a b := by
  cases h with
  | step => exact .step _

/-- The ledger is kept beside a run. -/
theorem Noted.run {st : Stage} {noted : List (List FrameId)}
    (h : Noted retire p c scheduler st noted) :
    Relation.ReflTransGen (Leads retire) (p.begin c scheduler) st := by
  induction h with
  | begins h => exact h ▸ .refl
  | kept _ hLeads _ ih => exact ih.tail hLeads
  | started _ hStarts ih => exact ih.tail hStarts.leads

/-- A program that runs has begun: there is nothing to go on with after a failure. -/
theorem begun_of_run {r : Running}
    (hRun : Relation.ReflTransGen (Leads retire) (p.begin c scheduler) (.running r)) :
    ∃ r, p.begin c scheduler = .running r := by
  have hFirst : (∃ r, p.begin c scheduler = .running r) ∨
      ∃ e d, p.begin c scheduler = .ended (.errored e d) := by
    unfold Program.begin
    dsimp only
    split
    · exact .inl ⟨_, rfl⟩
    · exact .inr ⟨_, _, rfl⟩
  rcases hFirst with hBegun | ⟨e, d, hFailed⟩
  · exact hBegun
  · rw [hFailed] at hRun
    rcases hRun.cases_head with hSame | ⟨b, hLeads, -⟩
    · cases hSame
    · cases hLeads

/-- There is a ledger beside every run. -/
theorem exists_noted {st : Stage}
    (h : Relation.ReflTransGen (Leads retire) (p.begin c scheduler) st)
    (hBegun : ∃ r, p.begin c scheduler = .running r) :
    ∃ noted, Noted retire p c scheduler st noted := by
  induction h with
  | refl =>
    obtain ⟨r, hr⟩ := hBegun
    rw [hr]
    exact ⟨_, .begins hr⟩
  | @tail a b _ hLeads ih =>
    obtain ⟨noted, hNoted⟩ := ih
    by_cases hStarts : ∃ n born, Starts retire a b n born
    · obtain ⟨n, born, hStarts⟩ := hStarts
      exact ⟨_, .started hNoted hStarts⟩
    · exact ⟨_, .kept hNoted hLeads fun n born h => hStarts ⟨n, born, h⟩⟩

-- ---------------------------------------------------------------------------
-- The ledger is right
-- ---------------------------------------------------------------------------

/-- Between driver steps no more searches are under way than in the machine. -/
theorem surroundings_stage (scheduler : Scheduler) (m : Machine) (d : Context) :
    (Running.stage scheduler (.ok m d)).surroundings <+: m.surroundings := by
  unfold Running.stage
  dsimp only
  split
  · exact List.prefix_rfl
  · exact List.nil_prefix
  · rename_i v rest hFinished
    unfold finished? at hFinished
    split at hFinished
    · cases hFinished
      cases scheduler with
      | nonDet => exact List.prefix_rfl
      | preemptive => exact List.nil_prefix
    · cases hFinished
    · cases hFinished

/-- What is left of a list whose end is struck out. -/
theorem take_map_eq {α β : Type} {L L' : List α} (f : α → β) (h : L <+: L') :
    (L'.map f).take L.length = L.map f := by
  obtain ⟨rest, rfl⟩ := h
  rw [List.map_append]
  exact List.take_left' (List.length_map f)

/-- Going back to a moment leaves the frames in force as they are. -/
theorem Settled.inner_restore {r : Running} (h : (Stage.running r).Settled) {start : Checkpoint}
    (hRestores : r.machine.restores? = some start) :
    (r.context.restore start).inner = r.context.inner := by
  obtain ⟨rest, left, below, hMachine⟩ := eq_of_restores hRestores
  have hInner : r.context.inner = below.frames := by
    have hInForce : r.context.inner = r.machine.stack.frames := h.inForce
    rw [hInForce, hMachine]
    rfl
  have hDepth : start.innerDepth = below.frames.length := by
    refine h.level (.choice ⟨start, left⟩ below.frames) ?_ ⟨start, left⟩ below.frames rfl
    show _ ∈ r.machine.holdings
    rw [hMachine]
    exact List.mem_append_left _ (List.mem_append_right _ (List.mem_singleton_self _))
  show r.context.inner.drop (r.context.inner.length - start.innerDepth) = _
  rw [hDepth, hInner, Nat.sub_self, List.drop_zero]

/-- The frames that outlast the run are the same for a node as for the step. -/
theorem outer_opening (m : Machine) (c : Context) : (m.opening c).outer = c.outer := by
  have hOrigin : (m.origin c).outer = c.outer := by
    unfold origin
    split <;> rfl
  obtain ⟨k, walk, stack⟩ := m
  cases walk with
  | pull s =>
    show (s.opening c).outer = c.outer
    cases s with
    | loop header => cases header <;> rfl
    | _ => rfl
  | found item rest => exact hOrigin
  | drained rest => exact hOrigin

/-- What a machine step does to the ledger. -/
theorem renews_stepBy {r : Running} (h : (Stage.running r).Settled) {m : Machine} {d : Context}
    (hStep : r.machine.step retire r.context = .ok m d) :
    Renews r.machine.surroundings (r.machine.opening r.context).inner r.machine.evaluation?
      (r.machine.opening r.context) m := by
  refine renews_step hStep h.inForce fun _ hRestores => ?_
  exact h.inner_restore hRestores

/-- All frames in force around each search under way. -/
def environments (st : Stage) : List (List FrameId) :=
  st.surroundings.map (· ++ st.context.outer)

/-- Without a node that is evaluated, the last searches are given up, or none. -/
theorem environments_leads {a b : Stage} (h : a.Settled) (hLeads : Leads retire a b)
    (hNone : ∀ n born, ¬ Starts retire a b n born) :
    b.environments = a.environments.take b.surroundings.length := by
  -- with nothing started, the searches after the step are a first part of those before it
  have hKept : b.surroundings <+: a.surroundings := by
    cases hLeads with
    | step r =>
      unfold Running.stepBy
      cases hStep : r.machine.step retire r.context with
      | error t d => exact List.nil_prefix
      | ok m d =>
        cases renews_stepBy h hStep with
        | keeps hKept => exact (surroundings_stage _ _ _).trans hKept
        | starts hNode hStart hNext => exact absurd (.step hStep hNode hStart hNext) (hNone _ _)
    | resume s =>
      unfold Suspension.resume
      split
      · exact List.nil_prefix
      · exact List.prefix_rfl
    | signal r => exact List.prefix_rfl
    | expire r => exact List.prefix_rfl
    | takeOutput r => exact List.prefix_rfl
  unfold environments
  rw [take_map_eq _ hKept, outer_eq_of_leads hLeads]

/-- Where a node is evaluated, some of the last searches are given up, and those that were started
come after the rest. -/
theorem environments_starts {a b : Stage} (h : a.Settled) {n : Nat} {born : List (List FrameId)}
    (hStarts : Starts retire a b n born) : b.environments = a.environments.take n ++ born := by
  cases hStarts with
  | @step r m d e x k s stack hStep hNode hStart hNext =>
    cases renews_stepBy h hStep with
    | keeps _ hNone => exact absurd hNext (hNone _ _ _ _ _ hNode hStart)
    | @starts y k' s' e' stack' hNode' hStart' hNext' hKept hFrames =>
      rw [hNode] at hNode'
      cases hNode'
      cases hNext.symm.trans hNext'
      -- a machine that has just been made to ask a search is not at the end of a driver step
      have hStage : r.stepBy retire = .running ⟨m, d, r.scheduler⟩ := by
        unfold Running.stepBy
        rw [hStep, hNext]
        rfl
      have hOuter : d.outer = r.context.outer := by
        have hLeads : (r.stepBy retire).context.outer = r.context.outer :=
          outer_eq_of_leads (.step r)
        rw [hStage] at hLeads
        exact hLeads
      rw [hStage]
      unfold environments
      show m.surroundings.map (· ++ d.outer) = _
      rw [hNext, surroundings_pull, List.map_append, hFrames, hOuter, outer_opening]
      congr 1
      exact (take_map_eq _ hKept).symm

/-- The ledger has the frames around each search under way. -/
theorem Noted.eq_environments {st : Stage} {noted : List (List FrameId)}
    (h : Noted retire p c scheduler st noted) : noted = st.environments := by
  have hSettled {st : Stage} {noted : List (List FrameId)}
      (h : Noted retire p c scheduler st noted) : st.Settled :=
    (settled_begin p c scheduler).run h.run
  induction h with
  -- the program is the only search, asked with no frame inside the program's own
  | @begins r hr =>
    have hMachine : r.machine.surroundings = [[]] ∧ r.context.inner = [] := by
      unfold Program.begin at hr
      dsimp only at hr
      split at hr
      · rename_i s d hStart
        cases hr
        obtain ⟨u, e, hEnter, hSearch⟩ := Eval.bind_eq_ok.mp hStart
        cases hSearch
        obtain ⟨f, e₁, -, hEnter⟩ := Eval.bind_eq_ok.mp hEnter
        obtain ⟨u, e₂, -, hEnter⟩ := Eval.bind_eq_ok.mp hEnter
        cases hEnter
        refine ⟨?_, rfl⟩
        show [] ++ (Search.map .program (.sequence _)).surroundings [] = _
        rw [Search.surroundings, Search.surroundings]
        rfl
      · cases hr
    show _ = r.machine.surroundings.map (· ++ r.context.outer)
    rw [hMachine.1]
    show [r.context.inner ++ r.context.outer] = _
    rw [hMachine.2]
    rfl
  | kept h hLeads hNone ih => rw [environments_leads (hSettled h) hLeads hNone, ih]
  | started h hStarts ih => rw [environments_starts (hSettled h) hStarts, ih]

-- ---------------------------------------------------------------------------
-- Where searches are asked
-- ---------------------------------------------------------------------------

/-- The entry at the place of the search that the walk is at. -/
theorem getElem?_environments {r : Running} (h : (Stage.running r).Settled) {k : Kind}
    {s : Search k} {walk : Walk k} {stack : Stack k} (hMachine : r.machine = ⟨k, walk, stack⟩)
    (hWalk : walk.surroundings stack.frames = s.surroundings stack.frames)
    (hScope : s.isScope = false) :
    (Stage.running r).environments[stack.surroundings.length]? = some r.context.environments := by
  have hInForce : r.context.inner = stack.frames := by
    have hInForce : r.context.inner = r.machine.stack.frames := h.inForce
    rw [hInForce, hMachine]
  have hSurroundings : (Stage.running r).surroundings =
      stack.surroundings ++ s.surroundings stack.frames := by
    show r.machine.surroundings = _
    rw [hMachine, ← hWalk]
    rfl
  unfold environments
  rw [hSurroundings, List.getElem?_map, List.getElem?_append_right (Nat.le_refl _), Nat.sub_self,
    Search.surroundings_head hScope]
  show some (stack.frames ++ r.context.outer) = some (r.context.inner ++ r.context.outer)
  rw [hInForce]

/-- Whatever was started in a step was started inside the frames that were in force then. -/
theorem Starts.born {a b : Stage} {n : Nat} {born : List (List FrameId)}
    (h : Starts retire a b n born) :
    ∃ r : Running, a = .running r ∧ ∀ fs ∈ born,
      fs = (r.machine.opening r.context).environments ∨
        ∃ (block : Block) (s : Search .completion) (c d : Context) (round : FrameId),
          block.start c = .ok s d ∧
            c.inner = round :: (r.machine.opening r.context).inner ∧
            fs = round :: (r.machine.opening r.context).environments := by
  cases h with
  | @step r m d e x k s stack hStep hNode hStart hNext =>
    refine ⟨r, rfl, fun fs hfs => ?_⟩
    obtain ⟨gs, hgs, rfl⟩ := List.mem_map.mp hfs
    cases startedIn_evaluation hNode hStart with
    | even hEven => exact .inl (congrArg (· ++ _) (hEven _ gs hgs))
    -- the block of a round is inside the frame of the round, and all the rest outside of it
    | round hEven hBlock hInner =>
      rw [Search.surroundings] at hgs
      rcases List.mem_cons.mp hgs with rfl | hPart
      · exact .inl rfl
      · exact .inr ⟨_, _, _, _, _, hBlock, hInner, congrArg (· ++ _) (hEven _ gs hPart)⟩

/-- What is true of the frames in force at a moment of a run. -/
structure AskedWhereStarted (retire : {k : Kind} → Search k → Bool) (p : Program) (c : Context)
    (scheduler : Scheduler) (r : Running) : Prop where
  noted : ∃ noted, Noted retire p c scheduler (.running r) noted
  /-- A search is asked, and has found something, where it was started. -/
  asked : ∀ noted, Noted retire p c scheduler (.running r) noted →
    ∀ (k : Kind) (s : Search k) (stack : Stack k), s.isScope = false →
      (r.machine = .pull s stack ∨ ∃ item, r.machine = .found item s stack) →
        noted[stack.surroundings.length]? = some r.context.environments
  /-- What is noted are the frames in force when the node is evaluated; those of a round, with its
  frame entered for the time being, when the block inside it is. -/
  born : ∀ b n born, Starts retire (.running r) b n born → ∀ fs ∈ born,
    fs = (r.machine.opening r.context).environments ∨
      ∃ (block : Block) (s : Search .completion) (d e : Context) (round : FrameId),
        block.start d = .ok s e ∧ d.inner = round :: (r.machine.opening r.context).inner ∧
          fs = round :: (r.machine.opening r.context).environments
  /-- Whoever asks for a result gets the frames back, be there a result or not. -/
  returned : ∀ (k : Kind) (walk walk' : Walk k) (stack : Stack k) (r' : Running),
    Relation.ReflTransGen (Leads retire) (.running r) (.running r') →
      r.machine = ⟨k, walk, stack⟩ → r'.machine = ⟨k, walk', stack⟩ →
        r'.context.environments = r.context.environments
  /-- What is left when a part is done are the frames that were entered for it. -/
  left : ∀ (i o : Kind) (walk : Walk i) (q : Pending i o) (below : Stack o),
    r.machine = ⟨i, walk, .push q below⟩ → r.context.inner = q.frames ++ below.frames
  /-- A choice that goes back has no frames to leave. -/
  restored : ∀ start, r.machine.restores? = some start →
    (r.context.restore start).environments = r.context.environments

/-- A machine that runs a program asks a search inside exactly the frames that were in force when
the search was started, and whatever the search finds, or if it finds nothing more, the frames that
were in force when it was asked are in force again. -/
theorem asked_where_started {r : Running}
    (hRun : Relation.ReflTransGen (Leads retire) (p.begin c scheduler) (.running r)) :
    AskedWhereStarted retire p c scheduler r := by
  have hSettled : (Stage.running r).Settled := (settled_begin p c scheduler).run hRun
  have hInForce : r.context.inner = r.machine.stack.frames := hSettled.inForce
  have hBegun : ∃ r, p.begin c scheduler = .running r := begun_of_run hRun
  refine ⟨exists_noted hRun hBegun, ?_, ?_, ?_, ?_, ?_⟩
  -- a search asked again is in the ledger's place, and so in force where it was noted
  · rintro noted hNoted k s stack hScope (hMachine | ⟨item, hMachine⟩)
    · rw [hNoted.eq_environments]
      exact getElem?_environments hSettled hMachine rfl hScope
    · rw [hNoted.eq_environments]
      exact getElem?_environments hSettled hMachine rfl hScope
  · intro b n born hStarts
    obtain ⟨r, hr, hBorn⟩ := hStarts.born
    cases hr
    exact hBorn
  · intro k walk walk' stack r' hLater hMachine hMachine'
    have hInForce' : r'.context.inner = r'.machine.stack.frames := (hSettled.run hLater).inForce
    have hOuter : r'.context.outer = r.context.outer := outer_eq_of_run hLater
    unfold Context.environments
    rw [hInForce', hInForce, hMachine, hMachine', hOuter]
  · intro i o walk q below hMachine
    rw [hInForce, hMachine]
    rfl
  · intro start hRestores
    exact congrArg (· ++ r.context.outer) (hSettled.inner_restore hRestores)

/-- A program of one block, whose only statement is a choice between `true` and `false`. -/
def eitherInBlock : Program :=
  let alternatives : List Expr := [.bool true .synthetic, .bool false .synthetic]
  let choice : Stmt := .expr (.call (.ident ⟨"amb", .synthetic⟩) alternatives .synthetic)
  ⟨.mk [.block (.mk [choice] .synthetic)] .synthetic, .synthetic⟩

set_option maxRecDepth 4000 in
/-- The choice is started in the first driver step. After five machine steps of the second one it is
asked again, inside the frames of the block, of the program and of the globals. -/
theorem eitherInBlock_asked : ∃ (r : Running) (start : Checkpoint) (current : Search .value)
    (left : List Expr) (stack : Stack .value) (noted : List (List FrameId)),
    Relation.ReflTransGen (Leads Search.isExhausted) (eitherInBlock.begin (Context.new 4) .nonDet)
      (.running r) ∧
    r.machine = .pull (.choosing start (some current) left) stack ∧
    Noted Search.isExhausted eitherInBlock (Context.new 4) .nonDet (.running r) noted ∧
    noted[stack.surroundings.length]? = some [2, 1, 0] := by
  have hStage : ∃ (r : Running) (start : Checkpoint) (current : Search .value) (left : List Expr)
      (stack : Stack .value),
      (next Search.isExhausted)^[19] (eitherInBlock.begin (Context.new 4) .nonDet) = .running r ∧
      r.machine = .pull (.choosing start (some current) left) stack ∧
      r.context.environments = [2, 1, 0] := ⟨_, _, _, _, _, rfl, rfl, rfl⟩
  obtain ⟨r, start, current, left, stack, hRunning, hMachine, hFrames⟩ := hStage
  have hRun : Relation.ReflTransGen (Leads Search.isExhausted)
      (eitherInBlock.begin (Context.new 4) .nonDet) (.running r) :=
    hRunning ▸ leads_iterate_next 19 _
  have hAsked := asked_where_started hRun
  obtain ⟨noted, hNoted⟩ := hAsked.noted
  refine ⟨r, start, current, left, stack, noted, hRun, hMachine, hNoted, ?_⟩
  rw [← hFrames]
  exact hAsked.asked noted hNoted .value _ stack rfl (.inl hMachine)

end Stage

end AmbScript
