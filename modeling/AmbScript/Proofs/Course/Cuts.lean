import AmbScript.Proofs.Course.Sequences
import Mathlib.Logic.Relation

/-!
# Cuts

A `cut` gives up all that the statements before it could still have done: from the moment on that it
is reached, none of their searches is asked again, whatever happens to the sequence. What is left of
the sequence is the row of statements behind the `cut`.

* `Moment.Goes` — what can come next while a search is in use.
* `Moment.Placed` — which statements have been reached, and which one committed.
* `Search.cut_law` — what the completions of statements in sequence are.

That a statement is not asked again is a matter of all that can come after, including replies that
are never used. So it is shown by an invariant, `Placed`, of all moments that can follow one
another: the statement that has committed is never above one that is asked.
-/

namespace AmbScript

open Machine Eval Course

-- ---------------------------------------------------------------------------
-- A search in use
-- ---------------------------------------------------------------------------

/-- A moment while a search is in use: its replies are brought to the stack. -/
structure Moment (k : Kind) where
  stack : Stack k
  machine : Machine
  context : Context

namespace Moment

/-- A step is taken above the stack; or else, once there was a reply, the search is asked again, in
any context and for any stack. -/
inductive Goes {k : Kind} : Moment k → Moment k → Prop
  | step {stack : Stack k} {m m' : Machine} {c d : Context} (hAbove : stack.height < m.level)
      (h : m.step Search.isExhausted c = .ok m' d) : Goes ⟨stack, m, c⟩ ⟨stack, m', d⟩
  | again (reply : Reply k) (stack stack' : Stack k) (c c' : Context) :
      Goes ⟨stack, reply.machine stack, c⟩ ⟨stack', pull reply.rest stack', c'⟩

/-- The search of the statement with number `index` is asked for a completion. -/
def Asks (index : Nat) (x : Moment .completion) : Prop :=
  ∃ s rest below commit, x.machine = pull s (.push (.statement index rest below commit) x.stack)

end Moment

-- ---------------------------------------------------------------------------
-- Which statements have been reached
-- ---------------------------------------------------------------------------

/-- Behind the statement stand those that follow it; if it is a `cut`, it or a later one has
committed. -/
structure Reached.Follows (stmts : List Stmt) (commit : Option Nat) (index : Nat)
    (rest : List Stmt) : Prop where
  rest : rest = stmts.drop (index + 1)
  committed (stmt : Stmt) (h : stmts[index]? = some stmt) (hCut : stmt.isCut) :
    ∃ n ∈ commit, index ≤ n

/-- The same of all statements in a list. -/
def Reached.AllFollow (stmts : List Stmt) (commit : Option Nat) (reached : List Reached) : Prop :=
  ∀ index rest s, .mk index rest s ∈ reached → Reached.Follows stmts commit index rest

/-- Where the statements `stmts` are, `F` being known of the one that has committed. -/
inductive Moment.Placed (stmts : List Stmt) (F : Option Nat → Prop) : Moment .completion → Prop
  | begun (stack : Stack .completion) (c : Context) (hF : F none) :
      Placed stmts F ⟨stack, pull (.sequence stmts) stack, c⟩
  /-- The statement that was reached last is at work. -/
  | atWork {k : Kind} (walk : Walk k) (segment : Segment k .completion) (index : Nat)
      (rest : List Stmt) (below : List Reached) (commit : Option Nat)
      (stack : Stack .completion) (c : Context) (hF : F commit) (hCommit : ∀ n ∈ commit, n ≤ index)
      (h : Reached.Follows stmts commit index rest)
      (hBelow : Reached.AllFollow stmts commit below) :
      Placed stmts F
        ⟨stack, ⟨k, walk, segment.onto (.push (.statement index rest below commit) stack)⟩, c⟩
  | asked (reached : List Reached) (commit : Option Nat) (stack : Stack .completion) (c : Context)
      (hF : F commit) (h : Reached.AllFollow stmts commit reached) :
      Placed stmts F ⟨stack, pull (.sequenced reached commit) stack, c⟩
  | replied (reply : Reply .completion) (reached : List Reached) (commit : Option Nat)
      (stack : Stack .completion) (c : Context) (hReply : reply.rest = .sequenced reached commit)
      (hF : F commit) (h : Reached.AllFollow stmts commit reached) :
      Placed stmts F ⟨stack, reply.machine stack, c⟩

namespace Reached

variable {stmts : List Stmt} {commit : Option Nat} {below : List Reached}

/-- One more statement was reached. -/
theorem AllFollow.cons {index : Nat} {rest : List Stmt} (h : Follows stmts commit index rest)
    (hBelow : AllFollow stmts commit below) (s : Search .completion) :
    AllFollow stmts commit (.mk index rest s :: below) := by
  intro index' rest' s' hMem
  rcases List.mem_cons.mp hMem with hEq | hMem
  · cases hEq
    exact h
  · exact hBelow _ _ _ hMem

/-- Its search may be dropped. -/
theorem AllFollow.keep {index : Nat} {rest : List Stmt} (h : Follows stmts commit index rest)
    (hBelow : AllFollow stmts commit below) (dropped : Bool) (s : Search .completion) :
    AllFollow stmts commit (Machine.keep dropped (.mk index rest s) below) := by
  cases dropped with
  | true => exact hBelow
  | false => exact hBelow.cons h s

theorem allFollow_nil (stmts : List Stmt) (commit : Option Nat) : AllFollow stmts commit [] :=
  fun _ _ _ h => absurd h List.not_mem_nil

end Reached

namespace Moment

variable {stmts : List Stmt} {F : Option Nat → Prop}

/-- The last statement is asked, unless it was given up. -/
theorem placed_pullStatement {reached : List Reached} {commit : Option Nat} (hF : F commit)
    (h : Reached.AllFollow stmts commit reached) (stack : Stack .completion) (c : Context) :
    Placed stmts F ⟨stack, pullStatement reached commit stack, c⟩ := by
  match reached, h with
  | [], h => exact .replied (.drained (.sequenced [] commit)) [] commit stack c rfl hF h
  | .mk index rest s :: below, h =>
    -- either a later statement has cut, and everything is given up, or this one is asked again
    cases hGivenUp : commit.any (index < ·) with
    | true =>
      have hEq : pullStatement (.mk index rest s :: below) commit stack =
          drained (.sequenced [] commit) stack := by simp [pullStatement, hGivenUp]
      rw [hEq]
      exact .replied (.drained (.sequenced [] commit)) [] commit stack c rfl hF
        (Reached.allFollow_nil _ _)
    | false =>
      rw [pullStatement_cons rest s below hGivenUp]
      refine .atWork (.pull s) .nil index rest below commit stack c hF (fun n hn => ?_)
        (h _ _ _ List.mem_cons_self) fun _ _ _ hMem => h _ _ _ (List.mem_cons_of_mem _ hMem)
      cases hn
      simpa using hGivenUp

/-- `F` holds of every statement that commits later. -/
def Lasting (F : Option Nat → Prop) : Prop :=
  ∀ commit index, F commit → (∀ n ∈ commit, n ≤ index) → F (some index)

/-- A statement is reached; if it is a `cut`, it commits. -/
theorem placed_startStatement (hLasting : Lasting F) {index : Nat} {stmt : Stmt} {rest : List Stmt}
    (hStmts : stmt :: rest = stmts.drop index) {reached : List Reached} {commit : Option Nat}
    (hF : F commit) (hCommit : ∀ n ∈ commit, n ≤ index)
    (h : Reached.AllFollow stmts commit reached) (stack : Stack .completion) {m : Machine}
    {c d : Context} (hStart : startStatement index stmt rest reached commit stack c = .ok m d) :
    Placed stmts F ⟨stack, m, d⟩ := by
  obtain ⟨s, e, -, hPull⟩ := bind_eq_ok.mp hStart
  cases hPull
  have hStmt : stmts[index]? = some stmt := by
    rw [← Nat.add_zero index, ← List.getElem?_drop, ← hStmts]
    rfl
  have hRest : rest = stmts.drop (index + 1) := by
    rw [← List.drop_drop, ← hStmts]
    rfl
  -- either this statement commits, or the same one has committed as before
  have hCommits : Placed stmts F
      ⟨stack, pullStatement (.mk index rest s :: reached)
        (if stmt.isCut then some index else commit) stack, d⟩ := by
    cases hCut : stmt.isCut with
    | true =>
      refine placed_pullStatement (hLasting commit index hF hCommit)
        (Reached.AllFollow.cons ⟨hRest, fun _ _ _ => ⟨index, rfl, Nat.le_refl index⟩⟩ ?_ s) stack d
      intro i rest' s' hMem
      refine ⟨(h i rest' s' hMem).rest, fun stmt' hStmt' hCut' => ⟨index, rfl, ?_⟩⟩
      obtain ⟨n, hn, hLe⟩ := (h i rest' s' hMem).committed stmt' hStmt' hCut'
      exact Nat.le_trans hLe (hCommit n hn)
    | false =>
      refine placed_pullStatement hF (h.cons ⟨hRest, fun stmt' hStmt' hCut' => ?_⟩ s) stack d
      rw [hStmt] at hStmt'
      cases hStmt'
      rw [hCut] at hCut'
      cases hCut'
  cases stmt <;> exact hCommits

/-- A statement is completed, and the next one may be reached. -/
theorem placed_completeStatement (hLasting : Lasting F) {index : Nat} {rest : List Stmt}
    (hRest : rest = stmts.drop (index + 1)) (completion : Completion) {reached : List Reached}
    {commit : Option Nat} (hF : F commit) (hCommit : ∀ n ∈ commit, n ≤ index)
    (h : Reached.AllFollow stmts commit reached) (stack : Stack .completion) {m : Machine}
    {c d : Context}
    (hStep : completeStatement index rest completion reached commit stack c = .ok m d) :
    Placed stmts F ⟨stack, m, d⟩ := by
  have hCompleted : Placed stmts F
      ⟨stack, found (k := .completion) completion (.sequenced reached commit) stack, d⟩ :=
    .replied (.found completion (.sequenced reached commit)) reached commit stack d rfl hF h
  cases rest with
  | nil => cases completion <;> cases hStep <;> exact hCompleted
  | cons stmt rest =>
    cases completion with
    -- only a statement that has a value is followed by the next one
    | value v =>
      exact placed_startStatement hLasting hRest hF
        (fun n hn => Nat.le_succ_of_le (hCommit n hn)) h stack hStep
    | _ =>
      cases hStep
      exact hCompleted

/-- A reply is brought to the stack itself. -/
theorem height_machine {k : Kind} (reply : Reply k) (stack : Stack k) :
    (reply.machine stack).stack.height = stack.height := by
  cases reply <;> rfl

/-- There are two ways to go on. -/
theorem Goes.step_or_again {k : Kind} {x y : Moment k} (h : x.Goes y) :
    (∃ m d, x.stack.height < x.machine.level ∧
      x.machine.step Search.isExhausted x.context = .ok m d ∧ y = ⟨x.stack, m, d⟩) ∨
    ∃ reply stack c, x.machine = Reply.machine x.stack reply ∧
      y = ⟨stack, pull reply.rest stack, c⟩ := by
  cases h with
  | step hAbove h => exact .inl ⟨_, _, hAbove, h, rfl⟩
  | again reply stack stack' c c' => exact .inr ⟨reply, stack', c', rfl, rfl⟩

/-- A step of the statement that was reached last. -/
theorem placed_step (hLasting : Lasting F) {k : Kind} {walk : Walk k}
    {segment : Segment k .completion} {index : Nat} {rest : List Stmt} {below : List Reached}
    {commit : Option Nat} {stack : Stack .completion} {c d : Context} {m : Machine} (hF : F commit)
    (hCommit : ∀ n ∈ commit, n ≤ index) (hFollows : Reached.Follows stmts commit index rest)
    (hBelow : Reached.AllFollow stmts commit below)
    (hStep : step Search.isExhausted
      ⟨k, walk, segment.onto (.push (.statement index rest below commit) stack)⟩ c = .ok m d) :
    Placed stmts F ⟨stack, m, d⟩ := by
  by_cases hBack : ∃ reply : Reply .completion, ∀ stack,
      (⟨k, walk, segment.onto stack⟩ : Machine) = reply.machine stack
  -- the statement has an answer, and the sequence goes on from it
  · obtain ⟨reply, hReply⟩ := hBack
    rw [hReply] at hStep
    cases reply with
    | found completion s =>
      exact placed_completeStatement hLasting hFollows.rest completion hF hCommit
        (hBelow.keep hFollows _ s) stack hStep
    | drained s =>
      cases hStep
      exact placed_pullStatement hF hBelow stack c
  · rcases uniform_step walk segment (not_exists.mp hBack) c with
      ⟨t, e, hError⟩ | ⟨k', walk', segment', e, hOk⟩
    · cases (hError _).symm.trans hStep
    · cases (hOk _).symm.trans hStep
      exact .atWork walk' segment' index rest below commit stack d hF hCommit hFollows hBelow

/-- At a reply no step is taken above the stack. -/
theorem not_above_machine {k : Kind} {reply : Reply k} {stack : Stack k}
    (h : stack.height < (reply.machine stack).level) : False := by
  cases reply <;> exact Nat.lt_irrefl _ h

/-- Whatever comes next, the statements stay in their places. -/
theorem Placed.goes (hLasting : Lasting F) {x y : Moment .completion} (h : x.Placed stmts F)
    (hGoes : x.Goes y) : y.Placed stmts F := by
  rcases hGoes.step_or_again with ⟨m, d, hAbove, hStep, rfl⟩ | ⟨reply, stack', c', hReply, rfl⟩
  · cases h with
    | begun stack c hF =>
      cases stmts with
      | nil =>
        cases hStep
        exact .replied (.found (.value .undefined) (.sequenced [] none)) [] none stack c rfl hF
          (Reached.allFollow_nil _ _)
      | cons stmt rest =>
        exact placed_startStatement hLasting rfl hF (by simp) (Reached.allFollow_nil _ _) stack hStep
    | atWork walk segment index rest below commit stack c hF hCommit hFollows hBelow =>
      exact placed_step hLasting hF hCommit hFollows hBelow hStep
    | asked reached commit stack c hF h =>
      cases hStep
      exact placed_pullStatement hF h stack c
    | replied reply reached commit stack c hReply hF h => exact (not_above_machine hAbove).elim
  · cases h with
    | begun stack c hF => cases reply <;> cases hReply
    | atWork walk segment index rest below commit stack c hF hCommit hFollows hBelow =>
      have hHeight := congrArg (fun m : Machine => m.stack.height) hReply
      have hHigher := segment.height_onto (.push (.statement index rest below commit) stack)
      have hSame := height_machine reply stack
      dsimp only at hHeight
      -- A walk that is at work is higher up than one that is back, so this is no reply yet.
      simp only [Stack.height] at hHigher
      omega
    | asked reached commit stack c hF h => cases reply <;> cases hReply
    | replied reply' reached commit stack c hRest hF h =>
      have hEq : reply = reply' := by
        cases reply <;> cases reply' <;> cases hReply <;> rfl
      subst hEq
      rw [hRest]
      exact .asked reached commit stack' c' hF h

/-- The statement that is asked has not been given up. -/
theorem Placed.asks {x : Moment .completion} (h : x.Placed stmts F) {index : Nat}
    (hAsks : x.Asks index) : ∃ commit, F commit ∧ (∀ n ∈ commit, n ≤ index) ∧
      (∀ stmt, stmts[index]? = some stmt → stmt.isCut → ∃ n ∈ commit, index ≤ n) ∧
        ∀ G : Option Nat → Prop, G commit → x.Placed stmts G := by
  obtain ⟨s, rest', below', commit', hMachine⟩ := hAsks
  -- asking a statement puts exactly one search on the stack, which tells the case apart
  have hHeight := congrArg (fun m : Machine => m.stack.height) hMachine
  cases h with
  | begun stack c hF => exact absurd hHeight (Nat.ne_of_lt (Nat.lt_succ_self _))
  | atWork walk segment i rest below commit stack c hF hCommit hFollows hBelow =>
    cases segment with
    | nil =>
      cases hMachine
      exact ⟨commit', hF, hCommit, hFollows.committed, fun G hG =>
        .atWork (.pull s) .nil index rest' below' commit' stack c hG hCommit hFollows hBelow⟩
    | push p lower =>
      have hHigher := lower.height_onto (.push (.statement i rest below commit) stack)
      have hHeight : (lower.onto _).height + 1 = stack.height + 1 := hHeight
      simp only [Stack.height] at hHigher
      omega
  | asked reached commit stack c hF h => exact absurd hHeight (Nat.ne_of_lt (Nat.lt_succ_self _))
  | replied reply reached commit stack c hReply hF h =>
    have hHeight : (reply.machine stack).stack.height = stack.height + 1 := hHeight
    rw [height_machine] at hHeight
    omega

/-- From the moment on that a `cut` is reached, no statement before it is asked again. -/
theorem cut_gives_up {stmts : List Stmt} {stack : Stack .completion} {c : Context}
    {x y : Moment .completion}
    (hBefore : Relation.ReflTransGen Goes ⟨stack, pull (.sequence stmts) stack, c⟩ x) {index : Nat}
    {stmt : Stmt} (hStmt : stmts[index]? = some stmt) (hCut : stmt.isCut) (hReached : x.Asks index)
    (hAfter : Relation.ReflTransGen Goes x y) {other : Nat} (hAsked : y.Asks other) :
    index ≤ other := by
  have hPlaced {F : Option Nat → Prop} (hLasting : Lasting F) {x y : Moment .completion}
      (hGoes : Relation.ReflTransGen Goes x y) (h : x.Placed stmts F) : y.Placed stmts F := by
    induction hGoes with
    | refl => exact h
    | tail _ hGoes ih => exact ih.goes hLasting hGoes
  -- up to the cut nothing need be known of what is committed to, from there on it is the cut at
  -- least
  obtain ⟨commit, -, -, hCommitted, hAnew⟩ :=
    (hPlaced (F := fun _ => True) (fun _ _ _ _ => trivial) hBefore (.begun stack c trivial)).asks
      hReached
  obtain ⟨committed, ⟨n, hn, hLess⟩, hLe, -⟩ :=
    (hPlaced (F := fun commit => ∃ n ∈ commit, index ≤ n)
      (fun commit later ⟨n, hn, hLe⟩ hLater => ⟨later, rfl, Nat.le_trans hLe (hLater n hn)⟩) hAfter
      (hAnew _ (hCommitted stmt hStmt hCut))).asks hAsked
  exact Nat.le_trans hLess (hLe n hn)

end Moment

-- ---------------------------------------------------------------------------
-- The law
-- ---------------------------------------------------------------------------

/-- The completions of statements that are run one after the other are those of the row of the
statements, in depth-first order; once they have come to their end there are no more, however often
they are asked for. As long as no `cut` is reached the row is the full one, in which every
completion of a statement is gone on from. Once a `cut` is reached, what is left is the row of the
statements behind it, whatever had been reached before, and none of the statements before it is
asked again. -/
theorem Search.cut_law (stmts : List Stmt) (c : Context) :
    (∀ cs event, (Search.sequence stmts).Tells c cs event ↔
      ∃ n, (rows Stmt.isCut (fun stmt => Eval.course n stmt.start) stmts .done c).told cs =
        some event) ∧
    (∀ n cs event,
      (rows (fun _ => false)
        (fun stmt c => if stmt.isCut then .unknown else Eval.course n stmt.start c)
        stmts .done c).told cs = some event → (Search.sequence stmts).Tells c cs event) ∧
    (∀ index rest below, (∀ r ∈ below.head?, r.index < index) → ∀ cs event,
      (Search.sequenced (.mk index rest (.found (.value .undefined)) :: below) (some index)).Tells
        c cs event ↔
      ∃ n, (rows Stmt.isCut (fun stmt => Eval.course n stmt.start) rest .done c).told cs =
        some event) ∧
    (∀ stack x y index other stmt,
      Relation.ReflTransGen Moment.Goes ⟨stack, pull (.sequence stmts) stack, c⟩ x →
      stmts[index]? = some stmt → stmt.isCut → x.Asks index →
      Relation.ReflTransGen Moment.Goes x y → y.Asks other → index ≤ other) := by
  have hChild (n : Nat) (stmt : Stmt) (c : Context) (stack : Stack .completion) :=
    pursues_launch n stmt.start c stack
  have hTells := Search.tells_iff fun n => pursues_sequence (hChild n) stmts c
  refine ⟨hTells, fun n cs event hTold => ?_, fun index rest below hBefore => ?_, ?_⟩
  -- a row in which nothing is given up tells what the row with cuts tells, as long as no cut is
  -- reached
  · exact (hTells cs event).mpr
      ⟨n, (rows_abridges Stmt.isCut _ stmts (fun c => .refl _) c).told hTold⟩
  · exact Search.tells_iff fun n => pursues_cut (hChild n) hBefore rest c
  · intro stack x y index other stmt hBefore hStmt hCut hReached hAfter hAsked
    exact Moment.cut_gives_up hBefore hStmt hCut hReached hAfter hAsked

/-- Once `cut` is reached in `true; cut; break;`, only it and `break` are asked. -/
theorem Moment.break_after_cut :
    let stmts : List Stmt := [.expr (.bool true default), .cut default, .breakLoop default]
    ∃ x y : Moment .completion,
      Relation.ReflTransGen Goes
          ⟨baseStack .completion, pull (.sequence stmts) (baseStack .completion), default⟩ x ∧
        x.Asks 1 ∧ Relation.ReflTransGen Goes x y ∧ y.Asks 2 ∧
        ∀ other, y.Asks other → 1 ≤ other := by
  intro stmts
  -- `true` completes, and the `cut` is started
  have hBefore := Relation.ReflTransGen.refl (r := Goes)
      (a := ⟨baseStack .completion, pull (.sequence stmts) (baseStack .completion), default⟩)
    |>.tail (.step (by decide) rfl) |>.tail (.step (by decide) rfl)
    |>.tail (.step (by decide) rfl) |>.tail (.step (by decide) rfl)
    |>.tail (.step (by decide) rfl)
  -- the `cut` completes, and `break` is started
  refine ⟨_, _, hBefore, ⟨_, _, _, _, rfl⟩, Relation.ReflTransGen.refl
    |>.tail (.step (by decide) rfl) |>.tail (.step (by decide) rfl), ⟨_, _, _, _, rfl⟩,
    fun other hOther => ?_⟩
  obtain ⟨-, -, -, hNoLower⟩ := Search.cut_law stmts default
  exact hNoLower _ _ _ 1 other _ hBefore rfl rfl ⟨_, _, _, _, rfl⟩
    (Relation.ReflTransGen.refl |>.tail (.step (by decide) rfl) |>.tail (.step (by decide) rfl))
    hOther

end AmbScript
