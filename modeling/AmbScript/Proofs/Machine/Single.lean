import AmbScript.Proofs.Machine.Fresh
import AmbScript.Proofs.Machine.Spent

/-!
# Evaluation without choices

As long as no call to `amb` is evaluated, a search that has found a result has no other one, and it
is known at once that it has none. So what has been found is dropped, and neither the statements
of a sequence nor the parts of a loop pile up.

* `Machine.asksAmb` — the search that a call to `amb` evaluates to is asked.
* `Machine.Single` — all searches that have found a result are exhausted; `Machine.single_step` is
  the step.
* `Machine.pile` — how many statements of one sequence, or parts of one loop, are under way;
  `Machine.Single.pile_le` bounds it.

The rule by which searches are dropped matters here: a search that is dropped is not asked again,
and this is what keeps a loop from holding on to all of its rounds. Without choices the rule sees at
once that a search is spent, because nothing in it waits for a second result.
-/

namespace AmbScript

open Eval

-- ---------------------------------------------------------------------------
-- Calls to `amb`
-- ---------------------------------------------------------------------------

/-- A call to `amb` evaluates to this. -/
def Search.isChoice {k : Kind} : Search k → Bool
  | .choice _ => true
  | _ => false

/-- With the next step a call to `amb` is evaluated: the search for its values is asked. -/
def Machine.asksAmb : Machine → Bool
  | ⟨_, .pull s, _⟩ => s.isChoice
  | _ => false

-- ---------------------------------------------------------------------------
-- Single results
-- ---------------------------------------------------------------------------

/-- The search has not been asked yet, or is known to have no more results. -/
def Search.Single {k : Kind} (s : Search k) : Prop := s.Fresh ∨ s.isExhausted = true

/-- Whatever was found is all that there is. -/
def Walk.Single {k : Kind} : Walk k → Prop
  | .pull s => s.Single
  | .found _ rest => rest.isExhausted = true
  | .drained rest => rest.isExhausted = true

/-- What is kept beside the part that is waited for has no more results. -/
def Pending.Single {i o : Kind} : Pending i o → Prop
  | .map _ => True
  | .outer _ => True
  | .inner _ further => further.isExhausted = true
  | .within _ => True
  | .choosing .. => False
  | .operand _ below _ => allExhausted below = true
  | .statement _ _ below _ => below = []
  | .init _ below => below = []
  | .test _ below => below = []
  | .body _ below => below = []
  | .update _ below => below = []

/-- What waits at any depth keeps nothing that has more results. -/
def Stack.Single {k : Kind} : Stack k → Prop
  | .nil => True
  | .push p below => p.Single ∧ below.Single

/-- All searches under way that have found a result have no more. -/
def Machine.Single (m : Machine) : Prop := m.walk.Single ∧ m.stack.Single

namespace Search.Single

variable {i o : Kind}

/-- What is around a search does not change whether it is spent. -/
theorem of_map {f : Mapping i o} {s : Search i} (h : (Search.map f s).Single) : s.Single := by
  rcases h with hFresh | hExhausted
  · cases hFresh with
    | map _ hInner => exact .inl hInner
  · rw [isExhausted] at hExhausted
    exact .inr hExhausted

/-- A search that has given no result yet has not been expanded. -/
theorem of_bind {f : Expansion i o} {s : Search i} (h : (Search.bind f s).Single) : s.Single := by
  rcases h with hFresh | hExhausted
  · cases hFresh with
    | bind _ hOuter => exact .inl hOuter
  · rw [isExhausted] at hExhausted
    exact .inr hExhausted

theorem of_within {frame : FrameId} {s : Search o} (h : (Search.within frame s).Single) :
    s.Single := by
  rcases h with hFresh | hExhausted
  · cases hFresh with
    | within _ hInner => exact .inl hInner
  · rw [isExhausted] at hExhausted
    exact .inr hExhausted

/-- What is under way in a search of this sort is exhausted. -/
theorem exhausted {s : Search o} (h : s.Single) (hUsed : ¬ s.Fresh) : s.isExhausted = true :=
  h.resolve_left hUsed

end Search.Single

namespace Machine

variable {k : Kind} {stack : Stack k}

-- ---------------------------------------------------------------------------
-- Parts of a step
-- ---------------------------------------------------------------------------

/-- A search that was just started is asked. -/
theorem single_pull {s : Search k} (h : s.Fresh) (hStack : stack.Single) :
    (pull s stack).Single := ⟨.inl h, hStack⟩

/-- The result of a search that has no more. -/
theorem single_found {item : k.Item} {rest : Search k} (h : rest.isExhausted = true)
    (hStack : stack.Single) : (found item rest stack).Single := ⟨h, hStack⟩

/-- The end of a search. -/
theorem single_drained {rest : Search k} (h : rest.isExhausted = true) (hStack : stack.Single) :
    (drained rest stack).Single := ⟨h, hStack⟩

/-- The operands have no more results, so asking them comes to nothing. -/
theorem single_pullOperand {operands : List Operand} (h : allExhausted operands = true)
    (values : List Value) {stack : Stack .tuple} (hStack : stack.Single) :
    (pullOperand operands values stack).Single := by
  cases operands with
  | nil => exact single_drained rfl hStack
  | cons operand below =>
    obtain ⟨rest, s⟩ := operand
    rw [allExhausted, Operand.isExhausted, Bool.and_eq_true] at h
    exact ⟨.inr h.1, h.2, hStack⟩

/-- The first operand was just started. -/
theorem single_startProduct (exprs : List Expr) {stack : Stack .tuple} (hStack : stack.Single) :
    Returns Single (startProduct exprs stack) := by
  cases exprs with
  | nil => exact returns_pure (single_found rfl hStack)
  | cons e rest =>
    refine e.fresh_start.bind fun s hFresh => returns_pure ?_
    exact ⟨.inl hFresh, rfl, hStack⟩

/-- The next operand was just started, or the product has its only result. -/
theorem single_fillOperand {exprs : List Expr} {s : Search .value} {below : List Operand}
    (h : s.isExhausted = true) (hBelow : allExhausted below = true) (values : List Value)
    (v : Value) {stack : Stack .tuple} (hStack : stack.Single) :
    Returns Single (fillOperand (.mk exprs s) below values v stack) := by
  have hAll : allExhausted (.mk exprs s :: below) = true := by
    rw [allExhausted, Operand.isExhausted, h, hBelow]
    rfl
  cases exprs with
  | nil =>
    refine returns_pure (single_found ?_ hStack)
    rw [Search.isExhausted]
    exact hAll
  | cons e rest =>
    refine e.fresh_start.bind fun next hFresh => returns_pure ?_
    exact ⟨.inl hFresh, hAll, hStack⟩

/-- The one statement under way is asked, unless it has committed already. -/
theorem single_pullStatement {index : Nat} {rest : List Stmt} {s : Search .completion}
    (h : s.Single) (commit : Option Nat) {stack : Stack .completion} (hStack : stack.Single) :
    (pullStatement [.mk index rest s] commit stack).Single := by
  unfold pullStatement
  dsimp only
  split
  · exact single_drained rfl hStack
  · exact ⟨h, rfl, hStack⟩

/-- A statement is reached when the ones before it are spent. -/
theorem single_startStatement (index : Nat) (stmt : Stmt) (rest : List Stmt)
    (commit : Option Nat) {stack : Stack .completion} (hStack : stack.Single) :
    Returns Single (startStatement index stmt rest [] commit stack) := by
  refine stmt.fresh_start.bind fun _ hFresh => ?_
  exact returns_pure (single_pullStatement (.inl hFresh) _ hStack)

/-- The first statement was just started. -/
theorem single_startSequence (statements : List Stmt) {stack : Stack .completion}
    (hStack : stack.Single) : Returns Single (startSequence statements stack) := by
  cases statements with
  | nil => exact returns_pure (single_found rfl hStack)
  | cons stmt rest => exact single_startStatement 0 stmt rest none hStack

/-- The next one was just started, or the sequence has its only result. -/
theorem single_completeStatement (index : Nat) (rest : List Stmt) (completion : Completion)
    (commit : Option Nat) {stack : Stack .completion} (hStack : stack.Single) :
    Returns Single (completeStatement index rest completion [] commit stack) := by
  unfold completeStatement
  split
  · exact single_startStatement _ _ _ _ hStack
  · exact returns_pure (single_found rfl hStack)

/-- A part of a loop was just started. -/
theorem single_pullPhase (header : Loop) {p : Phase} (h : p.Fresh) {stack : Stack .completion}
    (hStack : stack.Single) : Returns Single (pullPhase header [p] stack) := by
  cases p <;> exact returns_pure ⟨.inl h, rfl, hStack⟩

/-- A loop without parts under way is over. -/
theorem single_pullPhase_nil (header : Loop) {stack : Stack .completion} (hStack : stack.Single) :
    Returns Single (pullPhase header [] stack) := by
  refine returns_bind fun _ => ?_
  exact returns_pure (single_drained rfl hStack)

/-- The loop has its only result. -/
theorem single_completeLoop (header : Loop) (completion : Completion) {stack : Stack .completion}
    (hStack : stack.Single) : Returns Single (completeLoop header [] completion stack) := by
  refine returns_bind fun _ => ?_
  exact returns_pure (single_found rfl hStack)

/-- The body was just started, or the loop has its only result. -/
theorem single_afterTest (header : Loop) (test : Value) {stack : Stack .completion}
    (hStack : stack.Single) : Returns Single (afterTest header [] test stack) := by
  unfold afterTest
  split
  · exact (fresh_startBody header).bind fun _ hFresh => single_pullPhase header hFresh hStack
  · exact single_completeLoop header _ hStack
  · exact returns_throw _

/-- The next part was just started, or the loop has its only result. -/
theorem single_afterBody (header : Loop) (completion : Completion) {stack : Stack .completion}
    (hStack : stack.Single) : Returns Single (afterBody header [] completion stack) := by
  unfold afterBody
  split
  · exact (fresh_startUpdate header).bind fun _ hFresh => single_pullPhase header hFresh hStack
  · exact (fresh_startUpdate header).bind fun _ hFresh => single_pullPhase header hFresh hStack
  · exact single_completeLoop header _ hStack
  · exact single_completeLoop header _ hStack

-- ---------------------------------------------------------------------------
-- The step
-- ---------------------------------------------------------------------------

/-- A search is asked that was just started or is known to be spent. -/
theorem single_stepPull {s : Search k} (h : s.Single) (hStack : stack.Single)
    (hPlain : s.isChoice = false) : Returns Single (stepPull s stack) := by
  cases s with
  | once item =>
    cases item with
    | none => exact returns_pure (single_drained rfl hStack)
    | some item => exact returns_pure (single_found rfl hStack)
  | map f inner => exact returns_pure ⟨h.of_map, trivial, hStack⟩
  | bind f outer => exact returns_pure ⟨h.of_bind, trivial, hStack⟩
  | within frame inner =>
    exact returns_bind fun _ => returns_pure ⟨h.of_within, trivial, hStack⟩
  | choice alternatives => cases hPlain
  | product exprs => exact single_startProduct exprs hStack
  | sequence statements => exact single_startSequence statements hStack
  | loop header =>
    exact returns_bind fun _ => (fresh_startLoop header).bind fun _ hFresh =>
      single_pullPhase header hFresh hStack
  -- the others are under way, so they are exhausted
  | binding f outer inner => cases h.exhausted nofun
  | choosing start current alternatives =>
    have hExhausted := h.exhausted nofun
    rw [Search.isExhausted, Bool.and_eq_true, Option.isNone_iff_eq_none,
      List.isEmpty_iff] at hExhausted
    obtain ⟨rfl, rfl⟩ := hExhausted
    exact returns_pure (single_drained rfl hStack)
  | producing operands values =>
    have hExhausted := h.exhausted nofun
    rw [Search.isExhausted] at hExhausted
    exact returns_pure (single_pullOperand hExhausted values hStack)
  | sequenced reached commit =>
    have hExhausted := h.exhausted nofun
    rw [Search.isExhausted, List.isEmpty_iff] at hExhausted
    subst hExhausted
    exact returns_pure (single_drained rfl hStack)
  | looping header phases =>
    have hExhausted := h.exhausted nofun
    rw [Search.isExhausted, List.isEmpty_iff] at hExhausted
    subst hExhausted
    exact returns_bind fun _ => single_pullPhase_nil header hStack

/-- What is exhausted is dropped, and nothing lies below it. -/
theorem keep_of_single {α : Type} {s : Search k} (h : s.isExhausted = true) {top : α}
    {below : List α} (hBelow : below = []) : keep s.isExhausted top below = [] := by
  rw [h, hBelow]
  rfl

/-- A result is used, and its search is dropped. -/
theorem single_stepFound {i o : Kind} (item : i.Item) {rest : Search i} {p : Pending i o}
    {stack : Stack o} (h : rest.isExhausted = true) (hPending : p.Single) (hStack : stack.Single) :
    Returns Single (stepFound Search.isExhausted item rest p stack) := by
  cases p with
  | map f =>
    refine returns_bind fun _ => returns_pure (single_found ?_ hStack)
    rw [Search.isExhausted]
    exact h
  | outer f => exact (f.fresh_apply item).bind fun _ hFresh => returns_pure ⟨.inl hFresh, h, hStack⟩
  | inner f outer =>
    refine returns_pure (single_found ?_ hStack)
    rw [if_pos h, Search.isExhausted]
    exact hPending
  | within frame =>
    refine returns_bind fun _ => returns_pure (single_found ?_ hStack)
    rw [Search.isExhausted]
    exact h
  | choosing start alternatives => exact hPending.elim
  | operand exprs below values => exact single_fillOperand h hPending values item hStack
  -- what has been found in the other cases is dropped, and there is nothing below
  | statement index stmts below commit =>
    show Returns Single (completeStatement index stmts item (keep rest.isExhausted _ below) _ _)
    rw [keep_of_single h hPending]
    exact single_completeStatement index stmts item commit hStack
  | init header below =>
    show Returns Single (startTest header >>= fun p =>
      pullPhase header (p :: keep rest.isExhausted _ below) stack)
    rw [keep_of_single h hPending]
    exact (fresh_startTest header).bind fun _ hFresh => single_pullPhase header hFresh hStack
  | test header below =>
    show Returns Single (afterTest header (keep rest.isExhausted _ below) item stack)
    rw [keep_of_single h hPending]
    exact single_afterTest header item hStack
  | body header below =>
    show Returns Single (afterBody header (keep rest.isExhausted _ below) item stack)
    rw [keep_of_single h hPending]
    exact single_afterBody header item hStack
  | update header below =>
    show Returns Single (startTest header >>= fun p =>
      pullPhase header (p :: keep rest.isExhausted _ below) stack)
    rw [keep_of_single h hPending]
    exact (fresh_startTest header).bind fun _ hFresh => single_pullPhase header hFresh hStack

/-- A search without more results is given up; what is kept beside it has none either. -/
theorem single_stepDrained {i o : Kind} {rest : Search i} {p : Pending i o} {stack : Stack o}
    (h : rest.isExhausted = true) (hPending : p.Single) (hStack : stack.Single) :
    Returns Single (stepDrained rest p stack) := by
  cases p with
  | map f =>
    refine returns_pure (single_drained ?_ hStack)
    rw [Search.isExhausted]
    exact h
  | outer f =>
    refine returns_pure (single_drained ?_ hStack)
    rw [Search.isExhausted]
    exact h
  | inner f outer => exact returns_pure ⟨.inr hPending, trivial, hStack⟩
  | within frame =>
    refine returns_bind fun _ => returns_pure (single_drained ?_ hStack)
    rw [Search.isExhausted]
    exact h
  | choosing start alternatives => exact hPending.elim
  | operand exprs below values => exact returns_pure (single_pullOperand hPending _ hStack)
  -- with no choice made nothing is kept below, so there is nothing to go back to
  | statement index stmts below commit =>
    rw [show below = [] from hPending]
    exact returns_pure (single_drained rfl hStack)
  | init header below =>
    rw [show below = [] from hPending]
    exact single_pullPhase_nil header hStack
  | test header below =>
    rw [show below = [] from hPending]
    exact single_pullPhase_nil header hStack
  | body header below =>
    rw [show below = [] from hPending]
    exact single_pullPhase_nil header hStack
  | update header below =>
    rw [show below = [] from hPending]
    exact single_pullPhase_nil header hStack

/-- A step that evaluates no call to `amb` leaves all that was found exhausted. -/
theorem single_step {m : Machine} (h : m.Single) (hPlain : m.asksAmb = false) :
    Returns Single (m.step Search.isExhausted) := by
  obtain ⟨k, walk, stack⟩ := m
  obtain ⟨hWalk, hStack⟩ := h
  cases walk with
  | pull s => exact single_stepPull hWalk hStack hPlain
  | found item rest =>
    cases stack with
    | nil => exact returns_pure ⟨hWalk, hStack⟩
    | push p stack => exact single_stepFound item hWalk hStack.1 hStack.2
  | drained rest =>
    cases stack with
    | nil => exact returns_pure ⟨hWalk, hStack⟩
    | push p stack => exact single_stepDrained hWalk hStack.1 hStack.2

end Machine

-- ---------------------------------------------------------------------------
-- Piles
-- ---------------------------------------------------------------------------

mutual

/-- The most statements of one sequence, or parts of one loop, that are under way in the search. -/
def Search.pile {k : Kind} : Search k → Nat
  | .once _ => 0
  | .map _ inner => inner.pile
  | .bind _ outer => outer.pile
  | .binding _ outer inner => max outer.pile inner.pile
  | .within _ inner => inner.pile
  | .choice _ => 0
  | .choosing _ none _ => 0
  | .choosing _ (some s) _ => s.pile
  | .product _ => 0
  | .producing operands _ => operandsPile operands
  | .sequence _ => 0
  | .sequenced reached _ => max reached.length (reachedPile reached)
  | .loop _ => 0
  | .looping _ phases => max phases.length (phasesPile phases)

/-- The most in any of the operands. -/
def operandsPile : List Operand → Nat
  | [] => 0
  | .mk _ s :: below => max s.pile (operandsPile below)

/-- The most in any of the statements. -/
def reachedPile : List Reached → Nat
  | [] => 0
  | .mk _ _ s :: below => max s.pile (reachedPile below)

/-- The most in any of the parts of a loop. -/
def phasesPile : List Phase → Nat
  | [] => 0
  | p :: below => max p.pile (phasesPile below)

/-- The most in the search for a part of a loop. -/
def Phase.pile : Phase → Nat
  | .init s => s.pile
  | .test s => s.pile
  | .body s => s.pile
  | .update s => s.pile

end

/-- The same of a pending search; the statement, or the part of a loop, that is waited for
counts. -/
def Pending.pile {i o : Kind} : Pending i o → Nat
  | .map _ => 0
  | .outer _ => 0
  | .inner _ further => further.pile
  | .within _ => 0
  | .choosing .. => 0
  | .operand _ below _ => operandsPile below
  | .statement _ _ below _ => max (below.length + 1) (reachedPile below)
  | .init _ below => max (below.length + 1) (phasesPile below)
  | .test _ below => max (below.length + 1) (phasesPile below)
  | .body _ below => max (below.length + 1) (phasesPile below)
  | .update _ below => max (below.length + 1) (phasesPile below)

/-- The most in anything that waits. -/
def Stack.pile {k : Kind} : Stack k → Nat
  | .nil => 0
  | .push p below => max p.pile below.pile

/-- The most in the search that is asked. -/
def Walk.pile {k : Kind} : Walk k → Nat
  | .pull s => s.pile
  | .found _ rest => rest.pile
  | .drained rest => rest.pile

/-- The most statements of one sequence, or parts of one loop, that are under way anywhere. -/
def Machine.pile (m : Machine) : Nat := max m.walk.pile m.stack.pile

/-- Nothing is under way in a search that was just started. -/
theorem Search.Fresh.pile_eq {k : Kind} {s : Search k} (h : s.Fresh) : s.pile = 0 := by
  induction h with
  | map _ _ ih => rw [pile, ih]
  | bind _ _ ih => rw [pile, ih]
  | within _ _ ih => rw [pile, ih]
  | _ => rw [pile]

mutual

/-- Nothing is under way in an exhausted search. -/
theorem Search.pile_of_isExhausted {k : Kind} : ∀ s : Search k, s.isExhausted = true → s.pile = 0
  | .once _, _ => by rw [Search.pile]
  | .map _ inner, h => by
    rw [Search.isExhausted] at h
    rw [Search.pile, inner.pile_of_isExhausted h]
  | .bind _ outer, h => by
    rw [Search.isExhausted] at h
    rw [Search.pile, outer.pile_of_isExhausted h]
  -- a search that is under way answers no before it is looked into
  | .binding .., h => by
    rw [Search.isExhausted] at h
    cases h
  | .within _ inner, h => by
    rw [Search.isExhausted] at h
    rw [Search.pile, inner.pile_of_isExhausted h]
  | .choice _, _ => by rw [Search.pile]
  | .choosing _ none _, _ => by rw [Search.pile]
  | .choosing _ (some _) _, h => by
    rw [Search.isExhausted] at h
    cases h
  | .product _, _ => by rw [Search.pile]
  | .producing operands _, h => by
    rw [Search.isExhausted] at h
    rw [Search.pile, operandsPile_of_allExhausted operands h]
  | .sequence _, _ => by rw [Search.pile]
  | .sequenced [] _, _ => by
    rw [Search.pile, reachedPile]
    rfl
  | .sequenced (_ :: _) _, h => by
    rw [Search.isExhausted] at h
    cases h
  | .loop _, _ => by rw [Search.pile]
  | .looping _ [], _ => by
    rw [Search.pile, phasesPile]
    rfl
  | .looping _ (_ :: _), h => by
    rw [Search.isExhausted] at h
    cases h

/-- Nothing is under way in operands that are exhausted. -/
theorem operandsPile_of_allExhausted : ∀ operands : List Operand,
    allExhausted operands = true → operandsPile operands = 0
  | [], _ => by rw [operandsPile]
  | .mk _ s :: below, h => by
    rw [allExhausted, Operand.isExhausted, Bool.and_eq_true] at h
    rw [operandsPile, s.pile_of_isExhausted h.1, operandsPile_of_allExhausted below h.2]
    rfl

end

/-- Nothing is under way in the search that is asked. -/
theorem Walk.Single.pile_eq {k : Kind} {walk : Walk k} (h : walk.Single) : walk.pile = 0 := by
  cases walk with
  | pull s =>
    rcases h with hFresh | hExhausted
    · exact hFresh.pile_eq
    · exact s.pile_of_isExhausted hExhausted
  | found item rest => exact rest.pile_of_isExhausted h
  | drained rest => exact rest.pile_of_isExhausted h

/-- Only the one statement, or the one part of a loop, that is waited for. -/
theorem Pending.Single.pile_le {i o : Kind} {p : Pending i o} (h : p.Single) : p.pile ≤ 1 := by
  cases p with
  | map f => exact Nat.zero_le 1
  | outer f => exact Nat.zero_le 1
  | inner f further =>
    rw [pile, further.pile_of_isExhausted h]
    exact Nat.zero_le 1
  | within frame => exact Nat.zero_le 1
  | choosing start alternatives => exact Nat.zero_le 1
  | operand rest below values =>
    rw [pile, operandsPile_of_allExhausted below h]
    exact Nat.zero_le 1
  | statement index rest below commit =>
    rw [show below = [] from h, pile, reachedPile]
    exact Nat.le_refl 1
  -- the one that is being asked is all there is
  | init header below | test header below | body header below | update header below =>
    rw [show below = [] from h, pile, phasesPile]
    exact Nat.le_refl 1

theorem Stack.Single.pile_le {k : Kind} {stack : Stack k} (h : stack.Single) : stack.pile ≤ 1 := by
  induction stack with
  | nil => exact Nat.zero_le 1
  | push p below ih => exact Nat.max_le.mpr ⟨h.1.pile_le, ih h.2⟩

/-- One statement of a sequence, or part of a loop, is under way at most. -/
theorem Machine.Single.pile_le {m : Machine} (h : m.Single) : m.pile ≤ 1 := by
  have hWalk : m.walk.pile = 0 := h.1.pile_eq
  exact Nat.max_le.mpr ⟨hWalk ▸ Nat.zero_le 1, h.2.pile_le⟩

end AmbScript
