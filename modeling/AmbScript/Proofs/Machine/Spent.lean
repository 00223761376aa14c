import AmbScript.Proofs.Machine.Run

/-!
# Spent searches

A search that has no more results, and would tell so without doing anything. Every search that is
known to be exhausted is of this sort; others are as well, such as one for a pair of results with
nothing left on either side.

* `Search.Spent` — the search is spent.
* `Search.spent_of_isExhausted` — an exhausted search is.
* `Machine.drains_of_spent` — asked for a result, a spent search has none, and the context is as it
  was.

The machine drops a search when it is known to be exhausted, and keeps one that is merely spent.
That a dropped search would have told nothing, and done nothing, is the reason why it makes no
difference which of the two happens.
-/

namespace AmbScript

variable {retire : {k : Kind} → Search k → Bool}

mutual

/-- The search has no more results, and nothing is left to undo. -/
inductive Search.Spent : {k : Kind} → Search k → Prop
  | once {k : Kind} : Search.Spent (.once none : Search k)
  | map {i o : Kind} (f : Mapping i o) {s : Search i} (h : Search.Spent s) : Search.Spent (.map f s)
  | bind {i o : Kind} (f : Expansion i o) {s : Search i} (h : Search.Spent s) : Search.Spent (.bind f s)
  | binding {i o : Kind} (f : Expansion i o) {outer : Search i} {inner : Search o}
      (hOuter : Search.Spent outer) (hInner : Search.Spent inner) : Search.Spent (.binding f outer inner)
  | within {k : Kind} (frame : FrameId) {s : Search k} (h : Search.Spent s) : Search.Spent (.within frame s)
  | choosing (start : Checkpoint) : Search.Spent (.choosing start none [])
  | producing {operands : List Operand} (h : OperandsSpent operands) (values : List Value) :
      Search.Spent (.producing operands values)
  | sequenced {reached : List Reached} (h : ReachedSpent reached) (commit : Option Nat) :
      Search.Spent (.sequenced reached commit)
  | looping (header : Loop) {phases : List Phase} (h : PhasesSpent phases) :
      Search.Spent (.looping header phases)

/-- All operands are spent. -/
inductive OperandsSpent : List Operand → Prop
  | nil : OperandsSpent []
  | cons (rest : List Expr) {s : Search .value} {below : List Operand} (h : s.Spent)
      (hBelow : OperandsSpent below) : OperandsSpent (.mk rest s :: below)

/-- All statements that were reached are spent. -/
inductive ReachedSpent : List Reached → Prop
  | nil : ReachedSpent []
  | cons (index : Nat) (rest : List Stmt) {s : Search .completion} {below : List Reached}
      (h : s.Spent) (hBelow : ReachedSpent below) : ReachedSpent (.mk index rest s :: below)

/-- All parts of a loop are spent. -/
inductive PhasesSpent : List Phase → Prop
  | nil : PhasesSpent []
  | cons {p : Phase} {below : List Phase} (h : p.Spent) (hBelow : PhasesSpent below) :
      PhasesSpent (p :: below)

/-- The part of a loop is spent. -/
inductive Phase.Spent : Phase → Prop
  | init {s : Search .completion} (h : s.Spent) : Phase.Spent (.init s)
  | test {s : Search .value} (h : s.Spent) : Phase.Spent (.test s)
  | body {s : Search .completion} (h : s.Spent) : Phase.Spent (.body s)
  | update {s : Search .value} (h : s.Spent) : Phase.Spent (.update s)

end

-- ---------------------------------------------------------------------------
-- Exhausted searches
-- ---------------------------------------------------------------------------

mutual

/-- The forms of search that are never known to be exhausted are ruled out; for the others the test
is read. -/
theorem Search.spent_of_isExhausted {k : Kind} : ∀ s : Search k, s.isExhausted = true → s.Spent
  | .once none, _ => .once
  | .once (some _), h => by
    rw [Search.isExhausted] at h
    cases h
  | .map f inner, h => by
    rw [Search.isExhausted] at h
    exact .map f (inner.spent_of_isExhausted h)
  | .bind f outer, h => by
    rw [Search.isExhausted] at h
    exact .bind f (outer.spent_of_isExhausted h)
  -- with a part for the last result, the answer is no, even if nothing comes of it
  | .binding .., h => by
    rw [Search.isExhausted] at h
    cases h
  | .within frame inner, h => by
    rw [Search.isExhausted] at h
    exact .within frame (inner.spent_of_isExhausted h)
  | .choice _, h => by
    rw [Search.isExhausted] at h
    cases h
  | .choosing start none [], _ => .choosing start
  | .choosing _ none (_ :: _), h => by
    rw [Search.isExhausted] at h
    cases h
  | .choosing _ (some _) _, h => by
    rw [Search.isExhausted] at h
    cases h
  | .product _, h => by
    rw [Search.isExhausted] at h
    cases h
  | .producing operands values, h => by
    rw [Search.isExhausted] at h
    exact .producing (spent_of_allExhausted operands h) values
  | .sequence _, h => by
    rw [Search.isExhausted] at h
    cases h
  -- statements and parts of loops are looked at by their number only
  | .sequenced [] commit, _ => .sequenced .nil commit
  | .sequenced (_ :: _) _, h => by
    rw [Search.isExhausted] at h
    cases h
  | .loop _, h => by
    rw [Search.isExhausted] at h
    cases h
  | .looping header [], _ => .looping header .nil
  | .looping _ (_ :: _), h => by
    rw [Search.isExhausted] at h
    cases h

/-- Operands are known to be exhausted if each of them is. -/
theorem spent_of_allExhausted : ∀ operands : List Operand,
    allExhausted operands = true → OperandsSpent operands
  | [], _ => .nil
  | .mk rest s :: below, h => by
    rw [allExhausted, Operand.isExhausted, Bool.and_eq_true] at h
    exact .cons rest (s.spent_of_isExhausted h.1) (spent_of_allExhausted below h.2)

end

-- ---------------------------------------------------------------------------
-- Draining
-- ---------------------------------------------------------------------------

/-- The context inside the frame of a loop's variables, if it has one. -/
def Loop.entered : Loop → Context → Context
  | .whileLoop .., c => c
  | .forLoop _ _ _ _ frame, c => c.enter frame

namespace Machine

open Search

/-- A `for` loop enters the frame of its variables, and a `while` loop has none. -/
theorem enterLoop_apply (header : Loop) (c : Context) :
    enterLoop header c = .ok () (header.entered c) := by
  cases header <;> rfl

/-- What was entered is left again. -/
theorem leaveLoop_entered (header : Loop) (c : Context) :
    leaveLoop header (header.entered c) = .ok () c := by
  cases header <;> rfl

/-- Without any effect the machine comes back to `stack` with no result and an exhausted search. -/
def Drained (retire : {k : Kind} → Search k → Bool) {k : Kind} (stack : Stack k) (m : Machine)
    (c d : Context) : Prop :=
  ∃ rest, m.Reaches retire c (drained rest stack) d ∧ rest.isExhausted = true

/-- Some steps may come first. -/
theorem Drained.of_reaches {k : Kind} {stack : Stack k} {m m' : Machine} {c d e : Context}
    (h : m.Reaches retire c m' d) (hDrained : Drained retire stack m' d e) :
    Drained retire stack m c e := by
  obtain ⟨rest, hReaches, hExhausted⟩ := hDrained
  exact ⟨rest, h.trans hReaches, hExhausted⟩

/-- The search has already been found to have no more results. -/
theorem drained_self {k : Kind} (stack : Stack k) {rest : Search k}
    (h : rest.isExhausted = true) (c : Context) :
    Drained retire stack (drained rest stack) c c := ⟨rest, .refl _ _, h⟩

mutual

/-- Asked for a result, a spent search has none, and the context is as it was. -/
theorem drains_of_spent : ∀ {k : Kind} {s : Search k}, s.Spent → ∀ (stack : Stack k)
    (c : Context), Drained retire stack (pull s stack) c c
  | _, _, .once, stack, c => .of_reaches (reaches_of_step rfl rfl) (drained_self stack rfl c)
  | _, _, .map f hInner, stack, c => by
    obtain ⟨rest, hReaches, hExhausted⟩ := drains_of_spent hInner (.push (.map f) stack) c
    refine .of_reaches (reaches_of_step rfl rfl) (.of_reaches hReaches ?_)
    refine .of_reaches (reaches_of_step rfl rfl) (drained_self stack ?_ c)
    rw [isExhausted]
    exact hExhausted
  | _, _, .bind f hOuter, stack, c => by
    obtain ⟨rest, hReaches, hExhausted⟩ := drains_of_spent hOuter (.push (.outer f) stack) c
    refine .of_reaches (reaches_of_step rfl rfl) (.of_reaches hReaches ?_)
    refine .of_reaches (reaches_of_step rfl rfl) (drained_self stack ?_ c)
    rw [isExhausted]
    exact hExhausted
  | _, _, .binding f hOuter hInner, stack, c => by
    -- first the part for the last result, then the search for further ones
    obtain ⟨_, hReaches, -⟩ := drains_of_spent hInner (.push (.inner f _) stack) c
    refine .of_reaches (reaches_of_step rfl rfl) (.of_reaches hReaches ?_)
    obtain ⟨rest, hReachesOuter, hExhausted⟩ :=
      drains_of_spent hOuter (.push (.outer f) stack) c
    refine .of_reaches (reaches_of_step rfl rfl) (.of_reaches hReachesOuter ?_)
    refine .of_reaches (reaches_of_step rfl rfl) (drained_self stack ?_ c)
    rw [isExhausted]
    exact hExhausted
  | _, _, .within frame hInner, stack, c => by
    obtain ⟨rest, hReaches, hExhausted⟩ :=
      drains_of_spent hInner (.push (.within frame) stack) (c.enter frame)
    refine .of_reaches (reaches_of_step rfl rfl) (.of_reaches hReaches ?_)
    refine .of_reaches (reaches_of_step rfl rfl) (drained_self stack ?_ c)
    rw [isExhausted]
    exact hExhausted
  | _, _, .choosing start, stack, c => .of_reaches (reaches_of_step rfl rfl) (drained_self stack rfl c)
  | _, _, .producing hOperands values, stack, c =>
    .of_reaches (reaches_of_step rfl rfl) (drains_pullOperand hOperands values stack c)
  | _, _, .sequenced hReached commit, stack, c =>
    .of_reaches (reaches_of_step rfl rfl) (drains_pullStatement hReached commit stack c)
  | _, _, .looping header hPhases, stack, c => by
    obtain ⟨m, d, hPull, hDrained⟩ := drains_pullPhase header hPhases stack c
    refine .of_reaches (reaches_of_step rfl ?_) hDrained
    exact Eval.bind_eq_ok.mpr ⟨(), _, enterLoop_apply header c, hPull⟩

/-- Asked for another combination, spent operands are asked one after the other, from the last to
the first. -/
theorem drains_pullOperand : ∀ {operands : List Operand}, OperandsSpent operands →
    ∀ (values : List Value) (stack : Stack .tuple) (c : Context),
      Drained retire stack (pullOperand operands values stack) c c
  | _, .nil, values, stack, c => drained_self stack rfl c
  | _, .cons rest hSpent hBelow, values, stack, c => by
    obtain ⟨_, hReaches, -⟩ := drains_of_spent hSpent (.push (.operand rest _ values) stack) c
    refine .of_reaches hReaches (.of_reaches (reaches_of_step rfl rfl) ?_)
    exact drains_pullOperand hBelow values.tail stack c

/-- So are spent statements, unless a `cut` has given up the earlier ones. -/
theorem drains_pullStatement : ∀ {reached : List Reached}, ReachedSpent reached →
    ∀ (commit : Option Nat) (stack : Stack .completion) (c : Context),
      Drained retire stack (pullStatement reached commit stack) c c
  | _, .nil, commit, stack, c => drained_self stack rfl c
  | _, .cons index rest hSpent hBelow, commit, stack, c => by
    unfold pullStatement
    dsimp only
    split
    · exact drained_self stack rfl c
    · obtain ⟨_, hReaches, -⟩ :=
        drains_of_spent hSpent (.push (.statement index rest _ commit) stack) c
      refine .of_reaches hReaches (.of_reaches (reaches_of_step rfl rfl) ?_)
      exact drains_pullStatement hBelow commit stack c

theorem drains_pullPhase (header : Loop) : ∀ {phases : List Phase}, PhasesSpent phases →
    ∀ (stack : Stack .completion) (c : Context), ∃ m d,
      pullPhase header phases stack (header.entered c) = .ok m d ∧ Drained retire stack m d c
  | _, .nil, stack, c => ⟨_, _, Eval.bind_eq_ok.mpr ⟨(), c, leaveLoop_entered header c, rfl⟩,
      drained_self stack rfl c⟩
  | _, .cons hSpent hBelow, stack, c => by
    obtain ⟨m, d, hPull, hDrained⟩ := drains_pullPhase header hBelow stack c
    -- whichever part it is, what follows when it has no more results is the same
    cases hSpent with
    | init hSpent =>
      obtain ⟨_, hReaches, -⟩ := drains_of_spent hSpent (.push (.init header _) stack) _
      exact ⟨_, _, rfl, .of_reaches hReaches (.of_reaches (reaches_of_step rfl hPull) hDrained)⟩
    | test hSpent =>
      obtain ⟨_, hReaches, -⟩ := drains_of_spent hSpent (.push (.test header _) stack) _
      exact ⟨_, _, rfl, .of_reaches hReaches (.of_reaches (reaches_of_step rfl hPull) hDrained)⟩
    | body hSpent =>
      obtain ⟨_, hReaches, -⟩ := drains_of_spent hSpent (.push (.body header _) stack) _
      exact ⟨_, _, rfl, .of_reaches hReaches (.of_reaches (reaches_of_step rfl hPull) hDrained)⟩
    | update hSpent =>
      obtain ⟨_, hReaches, -⟩ := drains_of_spent hSpent (.push (.update header _) stack) _
      exact ⟨_, _, rfl, .of_reaches hReaches (.of_reaches (reaches_of_step rfl hPull) hDrained)⟩

end

end Machine

end AmbScript
