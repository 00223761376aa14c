import AmbScript.Proofs.Machine.Fresh
import AmbScript.Proofs.Machine.Spent

/-!
# Dropping spent searches

Two machines run side by side: one drops a search as soon as it is known to be exhausted, the
other one never does. The second one carries more and more spent searches along. They cost it
steps, but make no other difference.

* `Search.Sheds` — the second search is the first one with spent searches inside.
* `Eval.Tracks` — what one computation does, the other one does with some machine steps more.
* `Machine.tracks_step` — so it is with the steps of two such machines.
* `Machine.Sheds.answers`, `Machine.Sheds.answers_inv` — hence their walks end alike.
* `Stage.dropping_is_invisible` — and so do runs of programs.

The relation is kept by one step of the first machine and a positive number of steps of the second.
That number is one unless the second machine asks a spent search, which by `Search.Spent` comes back
with nothing after a few steps and with the same context. As the number is positive, the walk of the
second machine is no shorter, which makes the argument work in both directions.
-/

namespace AmbScript

/-- The rule by which nothing is ever dropped. -/
def Search.neverExhausted {k : Kind} (_ : Search k) : Bool := false

-- ---------------------------------------------------------------------------
-- Searches with spent searches inside
-- ---------------------------------------------------------------------------

mutual

/-- The second search is the first one, but for spent searches that it still has. -/
inductive Search.Sheds : {k : Kind} → Search k → Search k → Prop
  | once {k : Kind} (item : Option k.Item) : Search.Sheds (.once item) (.once item)
  | map {i o : Kind} (f : Mapping i o) {s t : Search i} (h : Search.Sheds s t) :
      Search.Sheds (.map f s) (.map f t)
  | bind {i o : Kind} (f : Expansion i o) {s t : Search i} (h : Search.Sheds s t) :
      Search.Sheds (.bind f s) (.bind f t)
  | spentInner {i o : Kind} (f : Expansion i o) {s t : Search i} {u : Search o}
      (h : Search.Sheds s t) (hSpent : u.Spent) : Search.Sheds (.bind f s) (.binding f t u)
  | binding {i o : Kind} (f : Expansion i o) {s t : Search i} {u v : Search o}
      (hOuter : Search.Sheds s t) (hInner : Search.Sheds u v) :
      Search.Sheds (.binding f s u) (.binding f t v)
  | within {k : Kind} (frame : FrameId) {s t : Search k} (h : Search.Sheds s t) :
      Search.Sheds (.within frame s) (.within frame t)
  | choice (alternatives : List Expr) : Search.Sheds (.choice alternatives) (.choice alternatives)
  | between (start : Checkpoint) (alternatives : List Expr) :
      Search.Sheds (.choosing start none alternatives) (.choosing start none alternatives)
  | choosing (start : Checkpoint) (alternatives : List Expr) {s t : Search .value}
      (h : Search.Sheds s t) :
      Search.Sheds (.choosing start (some s) alternatives) (.choosing start (some t) alternatives)
  | product (exprs : List Expr) : Search.Sheds (.product exprs) (.product exprs)
  | producing (values : List Value) {os ps : List Operand} (h : OperandsShed os ps) :
      Search.Sheds (.producing os values) (.producing ps values)
  | sequence (statements : List Stmt) : Search.Sheds (.sequence statements) (.sequence statements)
  | sequenced (commit : Option Nat) (bound : Nat) {rs ts : List Reached}
      (h : ReachedShed bound rs ts) : Search.Sheds (.sequenced rs commit) (.sequenced ts commit)
  | loop (header : Loop) : Search.Sheds (.loop header) (.loop header)
  | looping (header : Loop) {ps qs : List Phase} (h : PhasesShed ps qs) :
      Search.Sheds (.looping header ps) (.looping header qs)

/-- Operands that were started, one by one. -/
inductive OperandsShed : List Operand → List Operand → Prop
  | nil : OperandsShed [] []
  | cons (rest : List Expr) {s t : Search .value} {os ps : List Operand} (h : Search.Sheds s t)
      (hBelow : OperandsShed os ps) : OperandsShed (.mk rest s :: os) (.mk rest t :: ps)

/-- The numbers of the statements do not grow downwards from `bound`. -/
inductive ReachedShed : Nat → List Reached → List Reached → Prop
  | nil (bound : Nat) : ReachedShed bound [] []
  | cons {bound index : Nat} (hIndex : index ≤ bound) (rest : List Stmt)
      {s t : Search .completion} {rs ts : List Reached} (h : Search.Sheds s t)
      (hBelow : ReachedShed index rs ts) :
      ReachedShed bound (.mk index rest s :: rs) (.mk index rest t :: ts)
  | spent {bound index : Nat} (hIndex : index ≤ bound) (rest : List Stmt)
      {t : Search .completion} {rs ts : List Reached} (hSpent : t.Spent)
      (hBelow : ReachedShed index rs ts) : ReachedShed bound rs (.mk index rest t :: ts)

/-- Parts of a loop under way. The second loop may have spent ones in between. -/
inductive PhasesShed : List Phase → List Phase → Prop
  | nil : PhasesShed [] []
  | cons {p q : Phase} {ps qs : List Phase} (h : Phase.Sheds p q) (hBelow : PhasesShed ps qs) :
      PhasesShed (p :: ps) (q :: qs)
  | spent {q : Phase} {ps qs : List Phase} (hSpent : q.Spent) (hBelow : PhasesShed ps qs) :
      PhasesShed ps (q :: qs)

/-- The same part of the loop. -/
inductive Phase.Sheds : Phase → Phase → Prop
  | init {s t : Search .completion} (h : Search.Sheds s t) : Phase.Sheds (.init s) (.init t)
  | test {s t : Search .value} (h : Search.Sheds s t) : Phase.Sheds (.test s) (.test t)
  | body {s t : Search .completion} (h : Search.Sheds s t) : Phase.Sheds (.body s) (.body t)
  | update {s t : Search .value} (h : Search.Sheds s t) : Phase.Sheds (.update s) (.update t)

end

/-- What was just started has nothing to drop. -/
theorem Search.Fresh.sheds {k : Kind} {s : Search k} (h : s.Fresh) : s.Sheds s := by
  induction h with
  | once item => exact .once item
  | map f _ ih => exact .map f ih
  | bind f _ ih => exact .bind f ih
  | within frame _ ih => exact .within frame ih
  | choice alternatives => exact .choice alternatives
  | product exprs => exact .product exprs
  | sequence statements => exact .sequence statements
  | loop header => exact .loop header

theorem Phase.Fresh.sheds {p : Phase} (h : p.Fresh) : p.Sheds p := by
  cases p with
  | init s => exact .init (Search.Fresh.sheds h)
  | test s => exact .test (Search.Fresh.sheds h)
  | body s => exact .body (Search.Fresh.sheds h)
  | update s => exact .update (Search.Fresh.sheds h)

/-- A bound on the numbers may be raised. -/
theorem ReachedShed.mono {b b' : Nat} {rs ts : List Reached} (h : ReachedShed b rs ts)
    (hb : b ≤ b') : ReachedShed b' rs ts := by
  cases h with
  | nil => exact .nil b'
  | cons hIndex rest h hBelow => exact .cons (Nat.le_trans hIndex hb) rest h hBelow
  | spent hIndex rest hSpent hBelow => exact .spent (Nat.le_trans hIndex hb) rest hSpent hBelow

/-- What is kept where nothing is left is spent. -/
theorem ReachedShed.spent_of_nil : ∀ {b : Nat} {ts : List Reached}, ReachedShed b [] ts →
    ReachedSpent ts
  | _, _, .nil _ => .nil
  | _, _, .spent _ rest hSpent hBelow => .cons _ rest hSpent hBelow.spent_of_nil

theorem PhasesShed.spent_of_nil : ∀ {qs : List Phase}, PhasesShed [] qs → PhasesSpent qs
  | _, .nil => .nil
  | _, .spent hSpent hBelow => .cons hSpent hBelow.spent_of_nil

mutual

/-- Where the first machine drops a search, the other one keeps a spent one. -/
theorem Search.Sheds.spent : ∀ {k : Kind} {s t : Search k}, s.Sheds t → s.isExhausted = true →
    t.Spent
  | _, _, _, .once item, hExhausted => Search.spent_of_isExhausted _ hExhausted
  | _, _, _, .map f h, hExhausted => by
    rw [Search.isExhausted] at hExhausted
    exact .map f (h.spent hExhausted)
  | _, _, _, .bind f h, hExhausted => by
    rw [Search.isExhausted] at hExhausted
    exact .bind f (h.spent hExhausted)
  -- the part that the other machine has dropped is spent, so dropping it goes unnoticed
  | _, _, _, .spentInner f h hSpent, hExhausted => by
    rw [Search.isExhausted] at hExhausted
    exact .binding f (h.spent hExhausted) hSpent
  | _, _, _, .binding f _ _, hExhausted => by
    rw [Search.isExhausted] at hExhausted
    cases hExhausted
  | _, _, _, .within frame h, hExhausted => by
    rw [Search.isExhausted] at hExhausted
    exact .within frame (h.spent hExhausted)
  | _, _, _, .choice _, hExhausted => Search.spent_of_isExhausted _ hExhausted
  | _, _, _, .between _ _, hExhausted => Search.spent_of_isExhausted _ hExhausted
  | _, _, _, .choosing _ _ _, hExhausted => by
    rw [Search.isExhausted] at hExhausted
    cases hExhausted
  | _, _, _, .product _, hExhausted => Search.spent_of_isExhausted _ hExhausted
  | _, _, _, .producing values h, hExhausted => by
    rw [Search.isExhausted] at hExhausted
    exact .producing (h.spent hExhausted) values
  | _, _, _, .sequence _, hExhausted => Search.spent_of_isExhausted _ hExhausted
  | _, _, _, .sequenced commit bound h, hExhausted => by
    rw [Search.isExhausted, List.isEmpty_iff] at hExhausted
    subst hExhausted
    exact .sequenced h.spent_of_nil commit
  | _, _, _, .loop _, hExhausted => Search.spent_of_isExhausted _ hExhausted
  | _, _, _, .looping header h, hExhausted => by
    rw [Search.isExhausted, List.isEmpty_iff] at hExhausted
    subst hExhausted
    exact .looping header h.spent_of_nil

/-- Where all operands are exhausted, the other product has spent ones. -/
theorem OperandsShed.spent : ∀ {os ps : List Operand}, OperandsShed os ps →
    allExhausted os = true → OperandsSpent ps
  | _, _, .nil, _ => .nil
  | _, _, .cons rest h hBelow, hExhausted => by
    rw [allExhausted, Operand.isExhausted, Bool.and_eq_true] at hExhausted
    exact .cons rest (h.spent hExhausted.1) (hBelow.spent hExhausted.2)

end

-- ---------------------------------------------------------------------------
-- Machines with spent searches inside
-- ---------------------------------------------------------------------------

/-- What waits for a result is the same, but for spent searches in what it will go on with. -/
inductive Pending.Sheds : {i o : Kind} → Pending i o → Pending i o → Prop
  | map {i o : Kind} (f : Mapping i o) : Sheds (.map f) (.map f)
  | outer {i o : Kind} (f : Expansion i o) : Sheds (.outer f) (.outer f)
  | inner {i o : Kind} (f : Expansion i o) {s t : Search i} (h : s.Sheds t) :
      Sheds (.inner f s) (.inner f t)
  | within {k : Kind} (frame : FrameId) : Sheds (.within (k := k) frame) (.within frame)
  | choosing (start : Checkpoint) (alternatives : List Expr) :
      Sheds (.choosing start alternatives) (.choosing start alternatives)
  | operand (rest : List Expr) (values : List Value) {os ps : List Operand}
      (h : OperandsShed os ps) : Sheds (.operand rest os values) (.operand rest ps values)
  | statement (index : Nat) (rest : List Stmt) (commit : Option Nat) {rs ts : List Reached}
      (h : ReachedShed index rs ts) :
      Sheds (.statement index rest rs commit) (.statement index rest ts commit)
  | init (header : Loop) {ps qs : List Phase} (h : PhasesShed ps qs) :
      Sheds (.init header ps) (.init header qs)
  | test (header : Loop) {ps qs : List Phase} (h : PhasesShed ps qs) :
      Sheds (.test header ps) (.test header qs)
  | body (header : Loop) {ps qs : List Phase} (h : PhasesShed ps qs) :
      Sheds (.body header ps) (.body header qs)
  | update (header : Loop) {ps qs : List Phase} (h : PhasesShed ps qs) :
      Sheds (.update header ps) (.update header qs)

/-- The same things wait, in the same order. -/
inductive Stack.Sheds : {k : Kind} → Stack k → Stack k → Prop
  | nil : Sheds .nil .nil
  | push {i o : Kind} {p q : Pending i o} {below below' : Stack o} (h : p.Sheds q)
      (hBelow : Sheds below below') : Sheds (.push p below) (.push q below')

/-- What is left of a search that has no more results is of no interest. -/
inductive Walk.Sheds {k : Kind} : Walk k → Walk k → Prop
  | pull {s t : Search k} (h : s.Sheds t) : Sheds (.pull s) (.pull t)
  | found (item : k.Item) {s t : Search k} (h : s.Sheds t) : Sheds (.found item s) (.found item t)
  | drained (s t : Search k) : Sheds (.drained s) (.drained t)

/-- The two machines stand at the same point of their walks. -/
inductive Machine.Sheds : Machine → Machine → Prop
  | mk {k : Kind} {w w' : Walk k} {stack stack' : Stack k} (hWalk : w.Sheds w')
      (hStack : stack.Sheds stack') : Sheds ⟨k, w, stack⟩ ⟨k, w', stack'⟩

namespace Machine

/-- Both are about to ask. -/
theorem sheds_pull {k : Kind} {s t : Search k} {stack stack' : Stack k} (h : s.Sheds t)
    (hStack : stack.Sheds stack') : (pull s stack).Sheds (pull t stack') := .mk (.pull h) hStack

/-- Both have found the item. -/
theorem sheds_found {k : Kind} (item : k.Item) {s t : Search k} {stack stack' : Stack k}
    (h : s.Sheds t) (hStack : stack.Sheds stack') :
    (found item s stack).Sheds (found item t stack') := .mk (.found item h) hStack

/-- Both have found that there is no more. -/
theorem sheds_drained {k : Kind} (s t : Search k) {stack stack' : Stack k}
    (hStack : stack.Sheds stack') : (drained s stack).Sheds (drained t stack') :=
  .mk (.drained s t) hStack

/-- Where the walk of one is not over, that of the other is not. -/
theorem Sheds.unfinished {m m' : Machine} (h : m.Sheds m') (hUnfinished : m.finished? = none) :
    m'.finished? = none := by
  obtain ⟨hWalk, hStack⟩ := h
  cases hWalk with
  | pull h => rfl
  | found item h =>
    cases hStack with
    | nil => cases hUnfinished
    | push hp hBelow => rfl
  | drained s t =>
    cases hStack with
    | nil => cases hUnfinished
    | push hp hBelow => rfl

end Machine

-- ---------------------------------------------------------------------------
-- Computations that do the same
-- ---------------------------------------------------------------------------

/-- The same fault, or machines of which the second one has spent searches inside. -/
inductive Tracked : EStateM.Result Fault Context Machine → EStateM.Result Fault Context Machine → Prop
  | ok {m m' : Machine} (h : m.Sheds m') (d : Context) : Tracked (.ok m d) (.ok m' d)
  | error (t : Fault) (d : Context) : Tracked (.error t d) (.error t d)

/-- What `x` does, `y` does with some machine steps more. -/
def Eval.Tracks (x y : Eval Machine) : Prop :=
  ∀ c, ∃ n, Tracked (x c) ((y >>= Machine.run Search.neverExhausted n) c)

namespace Eval

variable {α : Type}

/-- Results that are related. -/
theorem tracks_pure {m m' : Machine} (h : m.Sheds m') : Tracks (pure m) (pure m') :=
  fun c => ⟨0, .ok h c⟩

theorem tracks_throw (t : Fault) : Tracks (throw t) (throw t) := fun c => ⟨0, .error t c⟩

/-- What is known of the results of the first part may be used. -/
theorem Returns.tracks {P : α → Prop} {x : Eval α} {f g : α → Eval Machine} (hx : Returns P x)
    (h : ∀ a, P a → Tracks (f a) (g a)) : Tracks (x >>= f) (x >>= g) := by
  intro c
  show ∃ n, Tracked (EStateM.bind x f c) (EStateM.bind (EStateM.bind x g) _ c)
  unfold EStateM.bind
  cases hEq : x c with
  | error t d => exact ⟨0, .error t d⟩
  | ok a d =>
    obtain ⟨n, hn⟩ := h a (hx _ _ _ hEq) d
    exact ⟨n, hn⟩

/-- Both do the same first. -/
theorem tracks_bind {x : Eval α} {f g : α → Eval Machine} (h : ∀ a, Tracks (f a) (g a)) :
    Tracks (x >>= f) (x >>= g) :=
  Returns.tracks (P := fun _ => True) (fun _ _ _ _ => trivial) fun a _ => h a

/-- A spent search that the second machine asks for a result does not matter. -/
theorem tracks_spent {x : Eval Machine} {k o : Kind} {t : Search k} (hSpent : t.Spent)
    {p : Pending k o} {stack : Stack o} (h : ∀ rest, Tracks x (Machine.stepDrained rest p stack)) :
    Tracks x (pure (Machine.pull t (.push p stack))) := by
  intro c
  obtain ⟨rest, ⟨j, hDrained⟩, -⟩ :
      Machine.Drained Search.neverExhausted (.push p stack) _ c c :=
    Machine.drains_of_spent hSpent (.push p stack) c
  obtain ⟨n, hn⟩ := h rest c
  refine ⟨j + (n + 1), ?_⟩
  rw [pure_bind, Machine.run_add hDrained]
  exact hn

end Eval

open Eval

namespace Machine

variable {stack stack' : Stack .completion}

-- ---------------------------------------------------------------------------
-- Parts of a step
-- ---------------------------------------------------------------------------

/-- The operand started last is asked. -/
theorem sheds_pullOperand {os ps : List Operand} (h : OperandsShed os ps) (values : List Value)
    {stack stack' : Stack .tuple} (hStack : stack.Sheds stack') :
    (pullOperand os values stack).Sheds (pullOperand ps values stack') := by
  cases h with
  | nil => exact sheds_drained _ _ hStack
  | cons rest h hBelow => exact sheds_pull h (.push (.operand rest values hBelow) hStack)

/-- A product that begins has nothing to drop. -/
theorem tracks_startProduct (exprs : List Expr) {stack stack' : Stack .tuple}
    (hStack : stack.Sheds stack') :
    Tracks (startProduct exprs stack) (startProduct exprs stack') := by
  cases exprs with
  | nil => exact tracks_pure (sheds_found _ (.producing [] .nil) hStack)
  | cons e rest =>
    exact e.fresh_start.tracks fun s hFresh =>
      tracks_pure (sheds_pullOperand (.cons rest hFresh.sheds .nil) [] hStack)

/-- The next operand is started behind those that are there. -/
theorem tracks_fillOperand (rest : List Expr) {s t : Search .value} (h : s.Sheds t)
    {os ps : List Operand} (hBelow : OperandsShed os ps) (values : List Value) (v : Value)
    {stack stack' : Stack .tuple} (hStack : stack.Sheds stack') :
    Tracks (fillOperand (.mk rest s) os values v stack)
      (fillOperand (.mk rest t) ps values v stack') := by
  cases rest with
  | nil => exact tracks_pure (sheds_found _ (.producing values (.cons [] h hBelow)) hStack)
  | cons e rest =>
    exact e.fresh_start.tracks fun u hFresh => tracks_pure
      (sheds_pullOperand (.cons rest hFresh.sheds (.cons (e :: rest) h hBelow)) (v :: values)
        hStack)

/-- The next alternative has nothing to drop. -/
theorem tracks_nextAlternative (start : Checkpoint) (alternatives : List Expr)
    {stack stack' : Stack .value} (hStack : stack.Sheds stack') :
    Tracks (nextAlternative start alternatives stack)
      (nextAlternative start alternatives stack') := by
  cases alternatives with
  | nil => exact tracks_pure (sheds_drained _ _ hStack)
  | cons e rest =>
    exact e.fresh_start.tracks fun s hFresh =>
      tracks_pure (sheds_pull hFresh.sheds (.push (.choosing start rest) hStack))

/-- The last statement that the first machine has reached is not behind any that the second one
has. -/
theorem index_le_of_shed : ∀ {bound index : Nat} {rest : List Stmt} {s : Search .completion}
    {rs ts : List Reached}, ReachedShed bound (.mk index rest s :: rs) ts → index ≤ bound
  | _, _, _, _, _, _, .cons hIndex _ _ _ => hIndex
  | _, _, _, _, _, _, .spent hIndex _ _ hBelow =>
    Nat.le_trans (index_le_of_shed hBelow) hIndex

/-- If a statement beyond `bound` has committed, all statements up to there are given up. -/
theorem pullStatement_of_committed {bound : Nat} {rs ts : List Reached}
    (h : ReachedShed bound rs ts) {commit : Option Nat} (hCommit : commit.any (bound < ·) = true) :
    pullStatement rs commit stack = drained (.sequenced [] commit) stack := by
  cases rs with
  | nil => rfl
  | cons r rs =>
    obtain ⟨index, rest, s⟩ := r
    have hIndex := index_le_of_shed h
    unfold pullStatement
    dsimp only
    rw [if_pos]
    cases commit with
    | none => cases hCommit
    | some n =>
      simp only [Option.any_some, decide_eq_true_eq] at hCommit ⊢
      exact Nat.lt_of_le_of_lt hIndex hCommit

/-- The last statement that was reached is asked. The second machine may have spent ones behind it:
it asks these first, or a commitment gives up all of them at once. -/
theorem tracks_pullStatement (commit : Option Nat) (hStack : stack.Sheds stack') :
    ∀ {bound : Nat} {rs ts : List Reached}, ReachedShed bound rs ts →
      Tracks (pure (pullStatement rs commit stack)) (pure (pullStatement ts commit stack'))
  | _, _, _, .nil _ => tracks_pure (sheds_drained _ _ hStack)
  | _, _, _, .cons _ rest h hBelow => by
    unfold pullStatement
    dsimp only
    split
    · exact tracks_pure (sheds_drained _ _ hStack)
    · exact tracks_pure (sheds_pull h (.push (.statement _ rest commit hBelow) hStack))
  | _, rs, .mk index rest t :: ts, .spent _ _ hSpent hBelow => by
    -- the spent statement is beyond the commitment, or it is asked in vain
    by_cases hCommit : commit.any (index < ·) = true
    · rw [pullStatement_of_committed hBelow hCommit]
      unfold pullStatement
      dsimp only
      rw [if_pos hCommit]
      exact tracks_pure (sheds_drained _ _ hStack)
    · have hPull : pullStatement (.mk index rest t :: ts) commit stack' =
          pull t (.push (.statement index rest ts commit) stack') := by
        unfold pullStatement
        dsimp only
        rw [if_neg hCommit]
      rw [hPull]
      exact tracks_spent hSpent fun _ => tracks_pullStatement commit hStack hBelow

/-- A statement that was just started has nothing to drop. -/
theorem tracks_startStatement (index : Nat) (stmt : Stmt) (rest : List Stmt) {rs ts : List Reached}
    (h : ReachedShed index rs ts) (commit : Option Nat) (hStack : stack.Sheds stack') :
    Tracks (startStatement index stmt rest rs commit stack)
      (startStatement index stmt rest ts commit stack') := by
  refine stmt.fresh_start.tracks fun _ hFresh => ?_
  exact tracks_pullStatement _ hStack (.cons (Nat.le_refl index) rest hFresh.sheds h)

/-- The next statement is started, or the sequence has a result. -/
theorem tracks_completeStatement (index : Nat) (rest : List Stmt) (completion : Completion)
    {rs ts : List Reached} (h : ReachedShed index rs ts) (commit : Option Nat)
    (hStack : stack.Sheds stack') :
    Tracks (completeStatement index rest completion rs commit stack)
      (completeStatement index rest completion ts commit stack') := by
  unfold completeStatement
  split
  · exact tracks_startStatement _ _ _ (h.mono (Nat.le_succ index)) _ hStack
  · exact tracks_pure (sheds_found _ (.sequenced commit index h) hStack)

/-- The last part of a loop is asked; spent ones behind it are asked before. -/
theorem tracks_pullPhase (header : Loop) (hStack : stack.Sheds stack') :
    ∀ {ps qs : List Phase}, PhasesShed ps qs →
      Tracks (pullPhase header ps stack) (pullPhase header qs stack')
  -- an exhausted phase is kept on one side only: pulling it drains there and comes to the phase
  -- below
  | _, _, .nil => by
    refine tracks_bind fun _ => ?_
    exact tracks_pure (sheds_drained _ _ hStack)
  | _, _, .cons (.init h) hBelow => tracks_pure (sheds_pull h (.push (.init header hBelow) hStack))
  | _, _, .cons (.test h) hBelow => tracks_pure (sheds_pull h (.push (.test header hBelow) hStack))
  | _, _, .cons (.body h) hBelow => tracks_pure (sheds_pull h (.push (.body header hBelow) hStack))
  | _, _, .cons (.update h) hBelow =>
    tracks_pure (sheds_pull h (.push (.update header hBelow) hStack))
  | _, _, .spent (.init h) hBelow => by
    refine tracks_spent h fun _ => ?_
    exact tracks_pullPhase header hStack hBelow
  | _, _, .spent (.test h) hBelow => by
    refine tracks_spent h fun _ => ?_
    exact tracks_pullPhase header hStack hBelow
  | _, _, .spent (.body h) hBelow => by
    refine tracks_spent h fun _ => ?_
    exact tracks_pullPhase header hStack hBelow
  | _, _, .spent (.update h) hBelow => by
    refine tracks_spent h fun _ => ?_
    exact tracks_pullPhase header hStack hBelow

/-- The loop has a result. -/
theorem tracks_completeLoop (header : Loop) (completion : Completion) {ps qs : List Phase}
    (h : PhasesShed ps qs) (hStack : stack.Sheds stack') :
    Tracks (completeLoop header ps completion stack) (completeLoop header qs completion stack') := by
  refine tracks_bind fun _ => ?_
  exact tracks_pure (sheds_found _ (.looping header h) hStack)

/-- The body is started, or the loop is over. -/
theorem tracks_afterTest (header : Loop) (test : Value) {ps qs : List Phase}
    (h : PhasesShed ps qs) (hStack : stack.Sheds stack') :
    Tracks (afterTest header ps test stack) (afterTest header qs test stack') := by
  unfold afterTest
  split
  · exact (fresh_startBody header).tracks fun _ hFresh =>
      tracks_pullPhase header hStack (.cons hFresh.sheds h)
  · exact tracks_completeLoop _ _ h hStack
  · exact tracks_throw _

/-- The next round is begun, or the loop is left. -/
theorem tracks_afterBody (header : Loop) (completion : Completion) {ps qs : List Phase}
    (h : PhasesShed ps qs) (hStack : stack.Sheds stack') :
    Tracks (afterBody header ps completion stack) (afterBody header qs completion stack') := by
  unfold afterBody
  split
  · exact (fresh_startUpdate header).tracks fun _ hFresh =>
      tracks_pullPhase header hStack (.cons hFresh.sheds h)
  · exact (fresh_startUpdate header).tracks fun _ hFresh =>
      tracks_pullPhase header hStack (.cons hFresh.sheds h)
  · exact tracks_completeLoop _ _ h hStack
  · exact tracks_completeLoop _ _ h hStack

/-- What one machine drops, the other one keeps. -/
theorem phasesShed_keep {p q : Phase} {dropped : Bool} (hKept : p.Sheds q)
    (hDropped : dropped = true → q.Spent) {ps qs : List Phase} (h : PhasesShed ps qs) :
    PhasesShed (keep dropped p ps) (q :: qs) := by
  cases dropped with
  | false => exact .cons hKept h
  | true => exact .spent (hDropped rfl) h

theorem reachedShed_keep (index : Nat) (rest : List Stmt) {s t : Search .completion}
    (hSheds : s.Sheds t) {rs ts : List Reached} (h : ReachedShed index rs ts) :
    ReachedShed index (keep s.isExhausted (.mk index rest s) rs) (.mk index rest t :: ts) := by
  cases hExhausted : s.isExhausted with
  | false => exact .cons (Nat.le_refl index) rest hSheds h
  | true => exact .spent (Nat.le_refl index) rest (hSheds.spent hExhausted) h

-- ---------------------------------------------------------------------------
-- The step
-- ---------------------------------------------------------------------------

/-- A search is asked for a result. -/
theorem tracks_stepPull {k : Kind} {s t : Search k} {stack stack' : Stack k} (h : s.Sheds t)
    (hStack : stack.Sheds stack') : Tracks (stepPull s stack) (stepPull t stack') := by
  cases h with
  | once item =>
    cases item with
    | none => exact tracks_pure (sheds_drained _ _ hStack)
    | some item => exact tracks_pure (sheds_found item (.once none) hStack)
  | map f h => exact tracks_pure (sheds_pull h (.push (.map f) hStack))
  | bind f h => exact tracks_pure (sheds_pull h (.push (.outer f) hStack))
  -- the machine that has kept the spent part asks it first, which takes it more steps
  | spentInner f h hSpent =>
    exact tracks_spent hSpent fun _ => tracks_pure (sheds_pull h (.push (.outer f) hStack))
  | binding f hOuter hInner => exact tracks_pure (sheds_pull hInner (.push (.inner f hOuter) hStack))
  | within frame h =>
    exact tracks_bind fun _ => tracks_pure (sheds_pull h (.push (.within frame) hStack))
  | choice alternatives => exact tracks_bind fun _ => tracks_nextAlternative _ _ hStack
  | between start alternatives => exact tracks_nextAlternative _ _ hStack
  | choosing start alternatives h =>
    exact tracks_pure (sheds_pull h (.push (.choosing start alternatives) hStack))
  | product exprs => exact tracks_startProduct exprs hStack
  | producing values h => exact tracks_pure (sheds_pullOperand h values hStack)
  | sequence statements =>
    cases statements with
    | nil => exact tracks_pure (sheds_found _ (.sequenced none 0 (.nil 0)) hStack)
    | cons stmt rest => exact tracks_startStatement _ _ _ (.nil 0) _ hStack
  | sequenced commit bound h => exact tracks_pullStatement commit hStack h
  | loop header =>
    exact tracks_bind fun _ => (fresh_startLoop header).tracks fun _ hFresh =>
      tracks_pullPhase header hStack (.cons hFresh.sheds .nil)
  | looping header h => exact tracks_bind fun _ => tracks_pullPhase header hStack h

/-- Whatever waits for a result goes on with it, and this is where one machine drops what is
exhausted. -/
theorem tracks_stepFound {i o : Kind} (item : i.Item) {s t : Search i} (h : s.Sheds t)
    {p q : Pending i o} (hPending : p.Sheds q) {stack stack' : Stack o}
    (hStack : stack.Sheds stack') :
    Tracks (stepFound Search.isExhausted item s p stack)
      (stepFound Search.neverExhausted item t q stack') := by
  cases hPending with
  | map f => exact tracks_bind fun _ => tracks_pure (sheds_found _ (.map f h) hStack)
  | outer f =>
    exact (f.fresh_apply item).tracks fun _ hFresh =>
      tracks_pure (sheds_pull hFresh.sheds (.push (.inner f h) hStack))
  | inner f hOuter =>
    refine tracks_pure (sheds_found item ?_ hStack)
    rw [if_neg (show ¬ Search.neverExhausted t = true from Bool.false_ne_true)]
    split
    -- here the first machine drops the search, and the second one keeps it spent
    · rename_i hExhausted
      exact .spentInner f hOuter (h.spent hExhausted)
    · exact .binding f hOuter h
  | within frame => exact tracks_bind fun _ => tracks_pure (sheds_found item (.within frame h) hStack)
  | choosing start alternatives =>
    exact tracks_pure (sheds_found _ (.choosing start alternatives h) hStack)
  | operand rest values hBelow => exact tracks_fillOperand rest h hBelow values item hStack
  | statement index rest commit hBelow =>
    exact tracks_completeStatement index rest item (reachedShed_keep index rest h hBelow) commit
      hStack
  | init header hBelow =>
    exact (fresh_startTest header).tracks fun _ hFresh => tracks_pullPhase header hStack
      (.cons hFresh.sheds (phasesShed_keep (.init h) (fun hEx => .init (h.spent hEx)) hBelow))
  | test header hBelow =>
    exact tracks_afterTest header item
      (phasesShed_keep (.test h) (fun hEx => .test (h.spent hEx)) hBelow) hStack
  | body header hBelow =>
    exact tracks_afterBody header item
      (phasesShed_keep (.body h) (fun hEx => .body (h.spent hEx)) hBelow) hStack
  | update header hBelow =>
    exact (fresh_startTest header).tracks fun _ hFresh => tracks_pullPhase header hStack
      (.cons hFresh.sheds (phasesShed_keep (.update h) (fun hEx => .update (h.spent hEx)) hBelow))

/-- A search has no more results. -/
theorem tracks_stepDrained {i o : Kind} (s t : Search i) {p q : Pending i o}
    (hPending : p.Sheds q) {stack stack' : Stack o} (hStack : stack.Sheds stack') :
    Tracks (stepDrained s p stack) (stepDrained t q stack') := by
  cases hPending with
  | map f => exact tracks_pure (sheds_drained _ _ hStack)
  | outer f => exact tracks_pure (sheds_drained _ _ hStack)
  | inner f hOuter => exact tracks_pure (sheds_pull hOuter (.push (.outer f) hStack))
  | within frame => exact tracks_bind fun _ => tracks_pure (sheds_drained _ _ hStack)
  | choosing start alternatives => exact tracks_bind fun _ => tracks_nextAlternative _ _ hStack
  | operand rest values hBelow => exact tracks_pure (sheds_pullOperand hBelow values.tail hStack)
  | statement index rest commit hBelow => exact tracks_pullStatement commit hStack hBelow
  | init header hBelow => exact tracks_pullPhase header hStack hBelow
  | test header hBelow => exact tracks_pullPhase header hStack hBelow
  | body header hBelow => exact tracks_pullPhase header hStack hBelow
  | update header hBelow => exact tracks_pullPhase header hStack hBelow

/-- A step of one machine, and as many as it takes of the other one. -/
theorem tracks_step {m m' : Machine} (h : m.Sheds m') (hUnfinished : m.finished? = none) :
    Tracks (m.step Search.isExhausted) (m'.step Search.neverExhausted) := by
  obtain ⟨hWalk, hStack⟩ := h
  cases hWalk with
  | pull h => exact tracks_stepPull h hStack
  | found item h =>
    cases hStack with
    | nil => cases hUnfinished
    | push hPending hBelow => exact tracks_stepFound item h hPending hBelow
  | drained s t =>
    cases hStack with
    | nil => cases hUnfinished
    | push hPending hBelow => exact tracks_stepDrained s t hPending hBelow

-- ---------------------------------------------------------------------------
-- Walks
-- ---------------------------------------------------------------------------

end Machine

/-- The same answer, but for what is left of the search. -/
inductive Answer.Sheds : Answer → Answer → Prop
  | fault (t : Fault) (d : Context) : Sheds (.error t d) (.error t d)
  | drained (s t : Search .value) (d : Context) : Sheds (.ok (none, s) d) (.ok (none, t) d)
  | found (v : Value) {s t : Search .value} (h : s.Sheds t) (d : Context) :
      Sheds (.ok (some v, s) d) (.ok (some v, t) d)

namespace Machine

/-- Searches for the values of a program. -/
theorem sheds_ofSearch {s t : Search .value} (h : s.Sheds t) :
    (ofSearch s).Sheds (ofSearch t) := sheds_pull h .nil

/-- Walks that are over ended alike. -/
theorem Sheds.finished {m m' : Machine} (h : m.Sheds m') {x : Option Value × Search .value}
    (hFinished : m.finished? = some x) :
    ∃ x', m'.finished? = some x' ∧ ∀ d, Answer.Sheds (.ok x d) (.ok x' d) := by
  obtain ⟨hWalk, hStack⟩ := h
  -- both walks are of the same kind, and nothing waits for either
  cases hWalk with
  | pull h => cases hFinished
  | found item h =>
    cases hStack with
    | nil =>
      cases hFinished
      exact ⟨_, rfl, fun d => .found item h d⟩
    | push hp hBelow => cases hFinished
  | drained s t =>
    cases hStack with
    | nil =>
      cases hFinished
      exact ⟨_, rfl, fun d => .drained s t d⟩
    | push hp hBelow => cases hFinished

/-- The step of one machine is followed by the other one in at least one step. -/
theorem Sheds.step {m m' : Machine} (h : m.Sheds m') (hUnfinished : m.finished? = none)
    (c : Context) :
    ∃ n, Tracked (m.step Search.isExhausted c) (m'.run Search.neverExhausted (n + 1) c) := by
  obtain ⟨n, hn⟩ := tracks_step h hUnfinished c
  refine ⟨n, ?_⟩
  unfold run
  rw [h.unfinished hUnfinished]
  exact hn

/-- The walk of the second machine ends as that of the first one does. -/
theorem Sheds.answers {n : Nat} {m m' : Machine} {c : Context} {x : Answer}
    (hAnswers : m.Answers Search.isExhausted n c x) (h : m.Sheds m') :
    ∃ n' x', m'.Answers Search.neverExhausted n' c x' ∧ x.Sheds x' := by
  induction hAnswers generalizing m' with
  | finished hFinished =>
    obtain ⟨x', hFinished', hSheds⟩ := h.finished hFinished
    exact ⟨0, _, .finished hFinished', hSheds _⟩
  | @fault m c d t hUnfinished hStep =>
    obtain ⟨n, hn⟩ := h.step hUnfinished c
    rw [hStep] at hn
    -- one step of the machine that sheds is one or more of the machine that keeps
    generalize hRun : m'.run Search.neverExhausted (n + 1) c = y at hn
    cases hn with
    | error =>
      obtain ⟨n', hAnswers'⟩ := answers_of_run_error hRun
      exact ⟨n', _, hAnswers', .fault t d⟩
  | @step n m m₁ c d x hUnfinished hStep hRest ih =>
    obtain ⟨j, hj⟩ := h.step hUnfinished c
    rw [hStep] at hj
    generalize hRun : m'.run Search.neverExhausted (j + 1) c = y at hj
    cases hj with
    | ok hSheds =>
      obtain ⟨n', x', hAnswers', hx⟩ := ih hSheds
      obtain ⟨n'', hAnswers''⟩ := answers_of_run hRun hAnswers'
      exact ⟨n'', x', hAnswers'', hx⟩

theorem Sheds.answers_inv {n : Nat} {m m' : Machine} {c : Context} {x' : Answer}
    (hAnswers : m'.Answers Search.neverExhausted n c x') (h : m.Sheds m') :
    ∃ n' x, m.Answers Search.isExhausted n' c x ∧ x.Sheds x' := by
  -- each step of `m` takes at least one of the `n` steps of `m'`
  induction n using Nat.strongRecOn generalizing m m' c with
  | ind n ih =>
    cases hFinished : m.finished? with
    | some x =>
      obtain ⟨y, hFinished', hSheds⟩ := h.finished hFinished
      rw [hAnswers.unique (.finished hFinished')]
      exact ⟨0, _, .finished hFinished, hSheds c⟩
    | none =>
      obtain ⟨j, hj⟩ := h.step hFinished c
      generalize hStep : m.step Search.isExhausted c = y at hj
      generalize hRun : m'.run Search.neverExhausted (j + 1) c = y' at hj
      cases hj with
      | error t d =>
        obtain ⟨_, hAnswers'⟩ := answers_of_run_error hRun
        rw [hAnswers.unique hAnswers']
        exact ⟨0, _, .fault hFinished hStep, .fault t d⟩
      | ok hSheds d =>
        obtain ⟨n', hAnswers', -, hLess⟩ := hAnswers.run hRun
        obtain ⟨j', x, hRest, hx⟩ :=
          ih n' (hLess (h.unfinished hFinished) (Nat.succ_pos j)) hAnswers' hSheds
        exact ⟨j' + 1, x, .step hFinished hStep hRest, hx⟩

theorem Sheds.drains_iff {m m' : Machine} (h : m.Sheds m') {c : Context}
    {x : EStateM.Result Fault Context Unit} :
    m.Drains Search.isExhausted c x ↔ m'.Drains Search.neverExhausted c x := by
  -- both ways by induction on the searches drained, each answer being matched by one that shed
  constructor
  · intro hDrains
    induction hDrains generalizing m' with
    | fault hAnswers =>
      obtain ⟨_, _, hAnswers', hx⟩ := h.answers hAnswers
      cases hx
      exact .fault hAnswers'
    | done hAnswers =>
      obtain ⟨_, _, hAnswers', hx⟩ := h.answers hAnswers
      cases hx
      exact .done hAnswers'
    | more hAnswers _ ih =>
      obtain ⟨_, _, hAnswers', hx⟩ := h.answers hAnswers
      cases hx with
      | found v hRest => exact .more hAnswers' (ih (sheds_ofSearch hRest))
  · intro hDrains
    induction hDrains generalizing m with
    | fault hAnswers =>
      obtain ⟨_, _, hAnswers', hx⟩ := h.answers_inv hAnswers
      cases hx
      exact .fault hAnswers'
    | done hAnswers =>
      obtain ⟨_, _, hAnswers', hx⟩ := h.answers_inv hAnswers
      cases hx
      exact .done hAnswers'
    | more hAnswers _ ih =>
      obtain ⟨_, _, hAnswers', hx⟩ := h.answers_inv hAnswers
      cases hx with
      | found v hRest => exact .more hAnswers' (ih (sheds_ofSearch hRest))

end Machine

-- ---------------------------------------------------------------------------
-- Runs of programs
-- ---------------------------------------------------------------------------

/-- The search for the values of a program has nothing under way at first. -/
theorem Program.fresh_start (p : Program) : Eval.Returns Search.Fresh p.start := by
  refine Eval.returns_bind fun _ => ?_
  exact Eval.returns_pure (.map _ (.sequence _))

/-- Asking for all values of a program comes to the same. -/
theorem Program.drain_eq (p : Program) (c : Context) :
    p.drain Search.isExhausted c = p.drain Search.neverExhausted c := by
  unfold Program.drain
  split
  · rename_i s d hStart
    have hSheds := Machine.sheds_ofSearch (p.fresh_start _ _ _ hStart).sheds
    apply Option.ext
    intro x
    rw [Machine.drain_eq_some_iff, Machine.drain_eq_some_iff]
    exact hSheds.drains_iff
  · rfl

theorem Context.loadLibrary_eq (library : Parsed) (c : Context) :
    c.loadLibrary Search.isExhausted library = c.loadLibrary Search.neverExhausted library := by
  unfold Context.loadLibrary
  split
  · rfl
  · dsimp only
    split
    · rfl
    · rw [Program.drain_eq]

theorem Context.loadPreludeBy_eq (c : Context) :
    c.loadPreludeBy Search.isExhausted = c.loadPreludeBy Search.neverExhausted :=
  c.loadLibrary_eq Prelude.parsed

namespace Outcome

/-- What can be told of an outcome without resuming it: all but what is left of the search. -/
def visible : Outcome → Outcome
  | .suspended s => .suspended { s with rest := .failed }
  | o => o

/-- The same outcome, but for what is left of the search. -/
inductive Sheds : Outcome → Outcome → Prop
  | finished (v : Value) (c : Context) : Sheds (.finished v c) (.finished v c)
  | errored (diagnostics : List Diagnostic) (c : Context) :
      Sheds (.errored diagnostics c) (.errored diagnostics c)
  | suspended (v : Value) (c : Context) (scheduler : Scheduler) {s t : Search .value}
      (h : s.Sheds t) : Sheds (.suspended ⟨v, c, s, scheduler⟩) (.suspended ⟨v, c, t, scheduler⟩)

/-- What can be seen of a context is the same on both sides. -/
theorem Sheds.visible_eq {o o' : Outcome} (h : o.Sheds o') : o.visible = o'.visible := by
  cases h <;> rfl

end Outcome

/-- Answers that agree but for what was dropped give outcomes that do. -/
theorem Answer.Sheds.outcome {x x' : Answer} (h : x.Sheds x') (scheduler : Scheduler) :
    (scheduler.outcome x).Sheds (scheduler.outcome x') := by
  cases h with
  | fault t d => exact .errored _ _
  | drained s t d => exact .finished _ _
  | found v h d =>
    cases scheduler with
    | nonDet => exact .suspended v d _ h
    | preemptive => exact .finished _ _

namespace Stage

/-- The same stage, but for spent searches. -/
inductive Sheds : Stage → Stage → Prop
  | running {m m' : Machine} (h : m.Sheds m') (c : Context) (scheduler : Scheduler) :
      Sheds (.running ⟨m, c, scheduler⟩) (.running ⟨m', c, scheduler⟩)
  | ended {o o' : Outcome} (h : o.Sheds o') : Sheds (.ended o) (.ended o')

/-- If one driver step ends, so does the other, and with an outcome that agrees. -/
theorem Sheds.ends {st st' : Stage} (h : st.Sheds st') {o : Outcome}
    (hEnds : st.Ends Search.isExhausted o) :
    ∃ o', st'.Ends Search.neverExhausted o' ∧ o.Sheds o' := by
  cases h with
  | running h c scheduler =>
    obtain ⟨n, x, hAnswers, rfl⟩ := ends_running_iff.mp hEnds
    obtain ⟨n', x', hAnswers', hx⟩ := h.answers hAnswers
    exact ⟨_, ends_running_iff.mpr ⟨n', x', hAnswers', rfl⟩, hx.outcome scheduler⟩
  | ended h =>
    cases hEnds
    exact ⟨_, rfl, h⟩

theorem Sheds.ends_inv {st st' : Stage} (h : st.Sheds st') {o' : Outcome}
    (hEnds : st'.Ends Search.neverExhausted o') :
    ∃ o, st.Ends Search.isExhausted o ∧ o.Sheds o' := by
  cases h with
  | running h c scheduler =>
    obtain ⟨n, x, hAnswers, rfl⟩ := ends_running_iff.mp hEnds
    obtain ⟨n', x', hAnswers', hx⟩ := h.answers_inv hAnswers
    exact ⟨_, ends_running_iff.mpr ⟨n', x', hAnswers', rfl⟩, hx.outcome scheduler⟩
  | ended h =>
    cases hEnds
    exact ⟨_, rfl, h⟩

/-- A suspension and one that agrees with it are resumed to stages that agree. -/
theorem sheds_resume {s t : Search .value} (h : s.Sheds t) (v : Value) (c : Context)
    (scheduler : Scheduler) :
    Sheds (Suspension.resume ⟨v, c, s, scheduler⟩) (Suspension.resume ⟨v, c, t, scheduler⟩) := by
  unfold Suspension.resume
  dsimp only
  split
  · exact .ended (.errored _ _)
  · exact .running (Machine.sheds_ofSearch h) _ _

theorem sheds_begin (p : Program) (c : Context) (scheduler : Scheduler) :
    Sheds (p.begin c scheduler) (p.begin c scheduler) := by
  unfold Program.begin
  dsimp only
  split
  · rename_i s d hStart
    exact .running (Machine.sheds_ofSearch (p.fresh_start _ _ _ hStart).sheds) _ _
  · exact .ended (.errored _ _)

/-- A program that is run without having been read from a text. -/
theorem sheds_runProgramBy (p : Program) (c : Context) (options : Options) :
    Sheds (runProgramBy Search.isExhausted p c options)
      (runProgramBy Search.neverExhausted p c options) := by
  unfold runProgramBy
  rw [Context.loadPreludeBy_eq]
  cases (c.prepare options.limits).loadPreludeBy Search.neverExhausted with
  | error d => exact .ended (.errored _ _)
  | ok d => exact sheds_begin _ _ _

/-- A program that is read from its text first, after the library if that is still to come. -/
theorem sheds_runBy (code : String) (c : Context) (options : Options) :
    Sheds (runBy Search.isExhausted code c options)
      (runBy Search.neverExhausted code c options) := by
  unfold runBy
  rw [Context.loadPreludeBy_eq]
  cases (c.prepare options.limits).loadPreludeBy Search.neverExhausted with
  | error d => exact .ended (.errored _ _)
  | ok d =>
    dsimp only
    split
    · exact .ended (.errored _ _)
    · exact sheds_begin _ _ _

/-- What one run yields, after any number of resumptions, so does the other. -/
theorem Sheds.yields {st st' : Stage} (h : st.Sheds st') {n : Nat} {o : Outcome}
    (hYields : st.Yields Search.isExhausted n o) :
    ∃ o', st'.Yields Search.neverExhausted n o' ∧ o.Sheds o' := by
  induction hYields generalizing st' with
  | first hEnds =>
    obtain ⟨o', hEnds', ho⟩ := h.ends hEnds
    exact ⟨o', .first hEnds', ho⟩
  | later hFirst _ ih =>
    obtain ⟨_, hFirst', hSuspended⟩ := h.ends hFirst
    cases hSuspended with
    | suspended v c scheduler hRest =>
      obtain ⟨o', hYields', ho⟩ := ih (sheds_resume hRest v c scheduler)
      exact ⟨o', .later hFirst' hYields', ho⟩

theorem Sheds.yields_inv {st st' : Stage} (h : st.Sheds st') {n : Nat} {o' : Outcome}
    (hYields : st'.Yields Search.neverExhausted n o') :
    ∃ o, st.Yields Search.isExhausted n o ∧ o.Sheds o' := by
  induction hYields generalizing st with
  | first hEnds =>
    obtain ⟨o, hEnds', ho⟩ := h.ends_inv hEnds
    exact ⟨o, .first hEnds', ho⟩
  | later hFirst _ ih =>
    obtain ⟨_, hFirst', hSuspended⟩ := h.ends_inv hFirst
    cases hSuspended with
    | suspended v c scheduler hRest =>
      obtain ⟨o, hYields', ho⟩ := ih (sheds_resume hRest v c scheduler)
      exact ⟨o, .later hFirst' hYields', ho⟩

/-- The same outcomes can be seen with both rules. -/
theorem Sheds.yields_iff {st st' : Stage} (h : st.Sheds st') {n : Nat} {o : Outcome} :
    (∃ o', st.Yields Search.isExhausted n o' ∧ o'.visible = o) ↔
      ∃ o', st'.Yields Search.neverExhausted n o' ∧ o'.visible = o := by
  constructor
  · rintro ⟨o₁, hYields, rfl⟩
    obtain ⟨o₂, hYields', ho⟩ := h.yields hYields
    exact ⟨o₂, hYields', ho.visible_eq.symm⟩
  · rintro ⟨o₂, hYields, rfl⟩
    obtain ⟨o₁, hYields', ho⟩ := h.yields_inv hYields
    exact ⟨o₁, hYields', ho.visible_eq⟩

/-- Asked for a result, an exhausted search has none, whatever waits for it, and the context is as
it was. So a run that drops exhausted searches has, in every driver step, the same outcome as one
that never drops any: the same value or diagnostics and the same context. -/
theorem dropping_is_invisible :
    (∀ (retire : {k : Kind} → Search k → Bool) (k : Kind) (s : Search k) (stack : Stack k)
      (c : Context), s.isExhausted = true →
        ∃ n rest, (Machine.pull s stack).run retire n c = .ok (.drained rest stack) c ∧
          rest.isExhausted = true) ∧
    (∀ (code : String) (c : Context) (options : Options) (n : Nat) (o : Outcome),
      (∃ o', (run code c options).Yields Search.isExhausted n o' ∧ o'.visible = o) ↔
        ∃ o', (runBy Search.neverExhausted code c options).Yields Search.neverExhausted n o' ∧
          o'.visible = o) ∧
    (∀ (p : Program) (c : Context) (options : Options) (n : Nat) (o : Outcome),
      (∃ o', (runProgram p c options).Yields Search.isExhausted n o' ∧ o'.visible = o) ↔
        ∃ o', (runProgramBy Search.neverExhausted p c options).Yields Search.neverExhausted n o' ∧
          o'.visible = o) := by
  refine ⟨?_, fun code c options n o => (sheds_runBy code c options).yields_iff,
    fun p c options n o => (sheds_runProgramBy p c options).yields_iff⟩
  intro retire k s stack c hExhausted
  -- what is exhausted is spent, and a spent search is drained without a node being evaluated
  obtain ⟨rest, ⟨n, hDrained⟩, hRest⟩ :=
    Machine.drains_of_spent (Search.spent_of_isExhausted s hExhausted) stack c
  exact ⟨n, rest, hDrained, hRest⟩

/-- A block whose statements have no more results drains; its frame is entered and left again. -/
theorem spent_block_drains : ∃ n rest,
    (Machine.pull (.within 0 (.sequenced [] none)) (.push (.map .program) .nil)).run
        Search.isExhausted n (Context.new 4) =
      .ok (.drained rest (.push (.map .program) .nil)) (Context.new 4) ∧
    rest.isExhausted = true :=
  dropping_is_invisible.1 _ _ _ _ _ rfl

end Stage

end AmbScript
