import AmbScript.Proofs.Machine.Fresh
import AmbScript.Proofs.Machine.Run

/-!
# Work between two counts

Every start of a node is counted against the limits. What the machine can do without one is
bounded by a weight, which each such step makes smaller: pulls and drained parts are paid for by
the parts themselves, and a result that is found by what it may still cost on its way up. Only one
sort of loop escapes this, a bare `for (;;) {}`, which tests nothing, does nothing and counts
nothing.

* `Machine.weight` — a bound of the steps that count nothing.
* `Machine.atBareTest` — the machine is at the test of a bare loop.
* `Machine.lighter_step` — a step counts a node, makes the machine lighter, or comes to the test
  of a bare loop.

The weight of a search depends on what one of its results costs above it, so it is a function of
that cost. The constants are not tight. They only have to leave room: the cost of a result pays for
what is started with it, and the cost of a test pays for a round of a loop whose body is empty.
-/

namespace AmbScript

variable {α β : Type} {retire : {k : Kind} → Search k → Bool}

-- ---------------------------------------------------------------------------
-- Costs of results
-- ---------------------------------------------------------------------------

/-- What a result of the outer search may cost until it has been expanded, beyond the cost of the
results that come of it. -/
def Expansion.cost {i o : Kind} : Expansion i o → Nat
  | .callee .. => 40
  | _ => 20

namespace Loop

/-- The body of the loop. -/
def body : Loop → Block
  | .whileLoop _ body => body
  | .forLoop _ _ _ body _ => body

/-- The test of the loop; the header of a `for` loop may have none. -/
def test? : Loop → Option Expr
  | .whileLoop test _ => some test
  | .forLoop _ test _ _ _ => test

/-- The part after the body, if there is one. -/
def update? : Loop → Option Expr
  | .whileLoop .. => none
  | .forLoop _ _ update _ _ => update

/-- A loop that tests nothing, updates nothing and has nothing to do. -/
def isBare (header : Loop) : Bool :=
  header.test?.isNone && header.update?.isNone && header.body.statements.isEmpty

/-- What a value of the test may cost; of an empty body there is a completion at once. -/
def testCost (header : Loop) : Nat := if header.body.statements.isEmpty then 20 else 10

/-- What a completion of the body may cost; in a loop that is not bare, an empty body is followed
by a node. -/
def bodyCost (header : Loop) : Nat := if header.body.statements.isEmpty then 4 else 20

/-- What a result of the first part or of the update may cost. -/
def partCost : Nat := 30

end Loop

-- ---------------------------------------------------------------------------
-- Weights
-- ---------------------------------------------------------------------------

mutual

/-- A bound of the steps that a search takes without counting a node, when it is asked for results
until there are no more, and each result costs `cost` steps elsewhere. -/
def Search.weight {k : Kind} : Search k → Nat → Nat
  | .once none, _ => 1
  | .once (some _), cost => cost + 2
  | .map _ inner, cost => inner.weight (cost + 2) + 2
  | .bind f outer, cost => outer.weight (cost + f.cost) + 2
  | .binding f outer inner, cost => inner.weight (cost + 2) + outer.weight (cost + f.cost) + 3
  | .within _ inner, cost => inner.weight (cost + 2) + 2
  | .choice _, _ => 1
  | .choosing _ none _, _ => 1
  | .choosing _ (some s) _, cost => s.weight (cost + 2) + 2
  | .product _, cost => cost + 3
  | .producing operands _, cost => operandsWeight operands cost + 1
  | .sequence statements, cost => if statements.isEmpty then cost + 3 else 1
  | .sequenced reached _, cost => reachedWeight reached cost + 1
  | .loop _, cost => cost + 40
  | .looping header phases, cost => phasesWeight header phases cost + 1

/-- The operands of a product that are under way. -/
def operandsWeight : List Operand → Nat → Nat
  | [], _ => 0
  | .mk _ s :: below, cost => s.weight (cost + 2) + operandsWeight below cost + 1

/-- The statements of a sequence that are under way. -/
def reachedWeight : List Reached → Nat → Nat
  | [], _ => 0
  | .mk _ _ s :: below, cost => s.weight (cost + 2) + reachedWeight below cost + 1

/-- The parts of a loop that are under way. -/
def phasesWeight (header : Loop) : List Phase → Nat → Nat
  | [], _ => 0
  | p :: below, cost => p.weight header cost + phasesWeight header below cost + 1

/-- A part of a loop; what a result of it costs depends on which part it is. -/
def Phase.weight (header : Loop) : Phase → Nat → Nat
  | .init s, cost => s.weight (cost + Loop.partCost)
  | .test s, cost => s.weight (cost + header.testCost)
  | .body s, cost => s.weight (cost + header.bodyCost)
  | .update s, cost => s.weight (cost + Loop.partCost)

end

attribute [simp] Search.weight operandsWeight reachedWeight phasesWeight Phase.weight

/-- What a result of the part may cost, if one of the whole costs `cost`. -/
def Pending.foundCost {i o : Kind} (cost : Nat) : Pending i o → Nat
  | .outer f => cost + f.cost
  | .init .. => cost + Loop.partCost
  | .test header _ => cost + header.testCost
  | .body header _ => cost + header.bodyCost
  | .update .. => cost + Loop.partCost
  | _ => cost + 2

/-- What is still to come once the part has no more results. -/
def Pending.weight {i o : Kind} (cost : Nat) : Pending i o → Nat
  | .map _ => 1
  | .outer _ => 1
  | .inner f s => s.weight (cost + f.cost) + 2
  | .within _ => 1
  | .choosing .. => 1
  | .operand _ below _ => operandsWeight below cost + 1
  | .statement _ _ below _ => reachedWeight below cost + 1
  | .init header below => phasesWeight header below cost + 1
  | .test header below => phasesWeight header below cost + 1
  | .body header below => phasesWeight header below cost + 1
  | .update header below => phasesWeight header below cost + 1

/-- What a result may cost that is found on top of the stack. -/
def Stack.foundCost {k : Kind} : Stack k → Nat
  | .nil => 0
  | .push p below => p.foundCost below.foundCost

/-- What is still to come once the search on top of the stack has no more results. -/
def Stack.weight {k : Kind} : Stack k → Nat
  | .nil => 0
  | .push p below => p.weight below.foundCost + below.weight

namespace Machine

/-- A bound of the steps that the machine takes before it counts a node or is finished. -/
def weight : Machine → Nat
  | ⟨_, .pull s, stack⟩ => s.weight stack.foundCost + stack.weight
  | ⟨_, .found _ rest, stack⟩ => stack.foundCost + rest.weight stack.foundCost + stack.weight
  | ⟨_, .drained _, stack⟩ => stack.weight

/-- A search that is about to be asked. -/
theorem weight_pull {k : Kind} (s : Search k) (stack : Stack k) :
    (pull s stack).weight = s.weight stack.foundCost + stack.weight := rfl

/-- A result pays for its way up, and the search for what is left of it. -/
theorem weight_found {k : Kind} (item : k.Item) (rest : Search k) (stack : Stack k) :
    (found item rest stack).weight =
      stack.foundCost + rest.weight stack.foundCost + stack.weight := rfl

/-- A search without more results weighs nothing. -/
theorem weight_drained {k : Kind} (rest : Search k) (stack : Stack k) :
    (drained rest stack).weight = stack.weight := rfl

/-- The machine is at the test of a bare loop. -/
def atBareTest : Machine → Bool
  | ⟨.value, .pull (.once (some (Value.bool true))), .push (.test header _) _⟩ => header.isBare
  | _ => false

/-- The machine weighs less than `n`, or it is at the test of a bare loop. -/
def Lighter (n : Nat) (m : Machine) : Prop := m.weight < n ∨ m.atBareTest = true

end Machine

-- ---------------------------------------------------------------------------
-- Computations that count
-- ---------------------------------------------------------------------------

/-- `x` counts a node, or it counts nothing and its result has the property. -/
def Eval.CountsOr (P : α → Prop) (x : Eval α) : Prop :=
  ∀ (c : Context) (a : α) (d : Context), x c = .ok a d →
    c.steps < d.steps ∨ c.steps = d.steps ∧ P a

namespace Eval

/-- What goes on in time counts or does not; in the latter case something is known of its
results. -/
theorem Onward.countsOr {P : α → Prop} {x : Eval α} (hx : Onward x) (h : Returns P x) :
    CountsOr P x := by
  intro c a d hEq
  rcases Nat.lt_or_eq_of_le (hx _ _ _ hEq).steps with hCounts | hSame
  · exact .inl hCounts
  · exact .inr ⟨hSame, h _ _ _ hEq⟩

theorem countsOr_pure {P : α → Prop} {a : α} (h : P a) : CountsOr P (pure a) :=
  (onward_pure a).countsOr (returns_pure h)

/-- Where there is no result, there is nothing to show. -/
theorem countsOr_throw {P : α → Prop} (t : Fault) : CountsOr P (throw t) := by
  intro c a d hEq
  cases hEq

/-- Where a node is counted, nothing else matters. -/
theorem Counts.countsOr {P : α → Prop} {x : Eval α} (h : Counts x) : CountsOr P x :=
  fun _ _ _ hEq => .inl (h _ _ _ hEq).2

theorem CountsOr.imp {P Q : α → Prop} {x : Eval α} (hx : CountsOr P x) (h : ∀ a, P a → Q a) :
    CountsOr Q x := by
  intro c a d hEq
  exact (hx c a d hEq).imp_right fun ⟨hSame, hP⟩ => ⟨hSame, h a hP⟩

/-- What the first part has counted stays counted. -/
theorem CountsOr.bind {P : α → Prop} {Q : β → Prop} {x : Eval α} {f : α → Eval β}
    (hx : CountsOr P x) (hf : ∀ a, P a → CountsOr Q (f a)) (hOnward : ∀ a, Onward (f a)) :
    CountsOr Q (x >>= f) := by
  intro c b d h
  obtain ⟨a, e, hFirst, hSecond⟩ := bind_eq_ok.mp h
  rcases hx _ _ _ hFirst with hCounts | ⟨hSame, hP⟩
  · exact .inl (Nat.lt_of_lt_of_le hCounts (hOnward a _ _ _ hSecond).steps)
  · rcases hf a hP _ _ _ hSecond with hCounts | ⟨hSame', hQ⟩
    · exact .inl (hSame ▸ hCounts)
    · exact .inr ⟨hSame.trans hSame', hQ⟩

/-- A node is counted first. -/
theorem Counts.bind {Q : β → Prop} {x : Eval α} {f : α → Eval β} (hx : Counts x)
    (hOnward : ∀ a, Onward (f a)) : CountsOr Q (x >>= f) :=
  CountsOr.bind (P := fun _ => False) hx.countsOr (fun _ h => h.elim) hOnward

/-- Something is done first that does not matter here. -/
theorem Onward.bind {Q : β → Prop} {x : Eval α} {f : α → Eval β} (hx : Onward x)
    (hf : ∀ a, CountsOr Q (f a)) (hOnward : ∀ a, Onward (f a)) : CountsOr Q (x >>= f) :=
  CountsOr.bind (P := fun _ => True) (hx.countsOr fun _ _ _ _ => trivial) (fun a _ => hf a) hOnward

end Eval

open Eval

/-- What is started for a result is paid for by the cost of the result. -/
theorem Expansion.countsOr_apply {i o : Kind} (f : Expansion i o) (item : i.Item) :
    CountsOr (fun s => ∀ cost, s.weight (cost + 2) + 1 < cost + f.cost) (f.apply item) := by
  cases f with
  | binary op right span => exact right.counts_start.bind fun _ => onward_pure _
  | logical op right leftSpan =>
    show CountsOr _ (continueLogical _ _ _ _)
    unfold continueLogical
    split
    · exact right.counts_start.countsOr
    · exact right.counts_start.countsOr
    · refine countsOr_pure fun cost => ?_
      simp only [Search.found, Search.weight, Expansion.cost]
      omega
    · exact countsOr_throw _
  | conditional consequent alternate testSpan =>
    show CountsOr _ (continueConditional _ _ _ _)
    unfold continueConditional
    split
    · exact consequent.counts_start.countsOr
    · exact alternate.counts_start.countsOr
    · exact countsOr_throw _
  | callee args span =>
    refine countsOr_pure fun cost => ?_
    simp only [Search.weight, Expansion.cost]
    omega
  | arguments function span =>
    show CountsOr _ (startCall _ _ _)
    unfold startCall
    split
    -- a call counts nothing by itself: the cost of the arguments pays for the empty body of a
    -- closure
    · refine (opening_openCall _ _ _ _).forward.onward.bind (fun frame => countsOr_pure fun cost => ?_)
        fun _ => onward_pure _
      simp only [Search.weight, Expansion.cost]
      split <;> omega
    · refine (filling_applyPrimitive 0 _ _ _).forward.onward.bind (fun v => countsOr_pure fun cost => ?_)
        fun _ => onward_pure _
      simp only [Search.found, Search.weight, Expansion.cost]
      omega
    · exact countsOr_throw _
  | index key span => exact key.counts_start.bind fun _ => onward_pure _
  | require span =>
    show CountsOr _ (continueRequire _ _)
    unfold continueRequire
    split
    · refine countsOr_pure fun cost => ?_
      simp only [Search.found, Search.weight, Expansion.cost]
      omega
    · refine countsOr_pure fun cost => ?_
      simp only [Search.failed, Search.weight, Expansion.cost]
      omega
    · exact countsOr_throw _
  | branch consequent alternate testSpan =>
    show CountsOr _ (continueBranch _ _ _ _)
    have hBlock (b : Block) : CountsOr (fun s : Search .completion =>
        ∀ cost, s.weight (cost + 2) + 1 <
          cost + (Expansion.branch consequent alternate testSpan).cost) b.start := by
      refine (opening_openBlock b).forward.onward.bind (fun frame => countsOr_pure fun cost => ?_)
        fun _ => onward_pure _
      simp only [Search.weight, Expansion.cost]
      split <;> omega
    unfold continueBranch
    split
    · exact hBlock _
    · cases alternate with
      | absent =>
        refine countsOr_pure fun cost => ?_
        simp only [Search.found, Search.weight, Expansion.cost]
        omega
      | block b => exact hBlock _
      | branch b => exact b.counts_start.countsOr
    · exact countsOr_throw _

namespace Machine

-- ---------------------------------------------------------------------------
-- Parts of a step
-- ---------------------------------------------------------------------------

/-- A machine that weighs less. -/
theorem lighter_of_weight {n : Nat} {m : Machine} (h : m.weight < n) : m.Lighter n := .inl h

/-- The next alternative counts a node, or the choice is over. -/
theorem lighter_nextAlternative (start : Checkpoint) (alternatives : List Expr)
    (stack : Stack .value) :
    CountsOr (Lighter (stack.weight + 1)) (nextAlternative start alternatives stack) := by
  cases alternatives with
  | nil => exact countsOr_pure (lighter_of_weight (Nat.lt_succ_self _))
  | cons e rest => exact e.counts_start.bind fun _ => onward_pure _

/-- The operand started last is asked. -/
theorem weight_pullOperand (operands : List Operand) (values : List Value)
    (stack : Stack .tuple) :
    (pullOperand operands values stack).weight =
      operandsWeight operands stack.foundCost + stack.weight := by
  cases operands with
  | nil => simp [pullOperand, weight_drained, operandsWeight]
  | cons operand below =>
    obtain ⟨rest, s⟩ := operand
    simp only [pullOperand, weight_pull, operandsWeight, Stack.foundCost, Stack.weight,
      Pending.foundCost, Pending.weight]
    omega

/-- The first operand counts a node; a product without operands has a result. -/
theorem lighter_startProduct (exprs : List Expr) (stack : Stack .tuple) :
    CountsOr (Lighter (stack.foundCost + 3 + stack.weight)) (startProduct exprs stack) := by
  cases exprs with
  | nil =>
    refine countsOr_pure (lighter_of_weight ?_)
    simp only [weight_found, Search.weight, operandsWeight]
    omega
  | cons e rest => exact e.counts_start.bind fun _ => onward_pure _

/-- The next operand counts a node, or the product has a result. -/
theorem lighter_fillOperand (rest : List Expr) (s : Search .value) (below : List Operand)
    (values : List Value) (v : Value) (stack : Stack .tuple) :
    CountsOr (Lighter (stack.foundCost + operandsWeight (.mk rest s :: below) stack.foundCost +
        stack.weight + 2)) (fillOperand (.mk rest s) below values v stack) := by
  cases rest with
  | nil =>
    refine countsOr_pure (lighter_of_weight ?_)
    simp only [weight_found, Search.weight]
    omega
  | cons e rest => exact e.counts_start.bind fun _ => onward_pure _

/-- The statement reached last is asked, or all are given up. -/
theorem weight_pullStatement (reached : List Reached) (commit : Option Nat)
    (stack : Stack .completion) :
    (pullStatement reached commit stack).weight ≤
      reachedWeight reached stack.foundCost + stack.weight := by
  unfold pullStatement
  split
  · rw [weight_drained]
    exact Nat.le_add_left _ _
  · split
    · rw [weight_drained]
      exact Nat.le_add_left _ _
    · simp only [weight_pull, reachedWeight, Stack.foundCost, Stack.weight, Pending.foundCost,
        Pending.weight]
      omega

/-- The first statement counts a node; a sequence without statements has a result. -/
theorem lighter_startSequence (statements : List Stmt) (stack : Stack .completion) :
    CountsOr (Lighter ((Search.sequence statements).weight stack.foundCost + stack.weight))
      (startSequence statements stack) := by
  cases statements with
  | nil =>
    refine countsOr_pure (lighter_of_weight ?_)
    simp only [weight_found, Search.weight, reachedWeight, List.isEmpty_nil, if_true]
    omega
  | cons stmt rest => exact stmt.counts_start.bind fun _ => onward_pure _

/-- The next statement counts a node, or the sequence has a result. -/
theorem lighter_completeStatement (index : Nat) (rest : List Stmt) (completion : Completion)
    (reached : List Reached) (commit : Option Nat) (stack : Stack .completion) :
    CountsOr (Lighter (stack.foundCost + reachedWeight reached stack.foundCost + stack.weight + 2))
      (completeStatement index rest completion reached commit stack) := by
  unfold completeStatement
  split
  · exact (Stmt.counts_start _).bind fun _ => onward_pure _
  · refine countsOr_pure (lighter_of_weight ?_)
    simp only [weight_found, Search.weight]
    omega

/-- Only a missing test counts no node. -/
theorem countsOr_startTest (header : Loop) :
    CountsOr (fun p => p = .test (.found (.bool true)) ∧ header.test? = none)
      (startTest header) := by
  cases header with
  | whileLoop test body => exact test.counts_start.bind fun _ => onward_pure _
  | forLoop init test update body frame =>
    cases test with
    | none => exact countsOr_pure ⟨rfl, rfl⟩
    | some test => exact test.counts_start.bind fun _ => onward_pure _

/-- The part that a loop begins with counts a node, unless it is a missing test. -/
theorem countsOr_startLoop (header : Loop) :
    CountsOr (fun p => p = .test (.found (.bool true))) (startLoop header) := by
  unfold startLoop
  split
  · exact (Stmt.counts_start _).bind fun _ => onward_pure _
  · exact (countsOr_startTest _).imp fun _ hMissing => hMissing.1

/-- What comes after the body counts a node, unless there is neither an update nor a test. -/
theorem countsOr_startUpdate (header : Loop) :
    CountsOr (fun p => p = .test (.found (.bool true)) ∧ header.test? = none ∧
      header.update? = none) (startUpdate header) := by
  cases header with
  | whileLoop test body => exact test.counts_start.bind fun _ => onward_pure _
  | forLoop init test update body frame =>
    cases update with
    | some update => exact update.counts_start.bind fun _ => onward_pure _
    | none =>
      exact (countsOr_startTest (.forLoop init test none body frame)).imp
        fun _ ⟨hFound, hTest⟩ => ⟨hFound, hTest, rfl⟩

/-- The body that is started for a round. -/
theorem returns_startBody (header : Loop) :
    Returns (fun p => ∃ s, p = .body s ∧ ∀ cost,
      s.weight cost ≤ if header.body.statements.isEmpty then cost + 11 else 5)
      (startBody header) := by
  cases header with
  | whileLoop test body =>
    have hBlock : Returns (fun s : Search .completion => ∀ cost,
        s.weight cost ≤ if body.statements.isEmpty then cost + 11 else 5) body.start := by
      refine returns_bind fun frame => returns_pure fun cost => ?_
      simp only [Search.weight]
      split <;> omega
    exact hBlock.bind fun s h => returns_pure ⟨s, rfl, h⟩
  | forLoop init test update body frame =>
    have hBlock : Returns (fun s : Search .completion => ∀ cost,
        s.weight (cost + 2) + 2 ≤ if body.statements.isEmpty then cost + 11 else 5) body.start := by
      refine returns_bind fun frame => returns_pure fun cost => ?_
      simp only [Search.weight]
      split <;> omega
    -- leaving the round's frame costs two more
    refine returns_bind fun round => returns_bind fun _ => hBlock.bind fun s h =>
      returns_bind fun _ => returns_pure ⟨.within round s, rfl, fun cost => ?_⟩
    rw [Search.weight]
    exact h cost

/-- The part of the loop that was started last is asked. -/
theorem weight_pullPhase (header : Loop) (phases : List Phase) (stack : Stack .completion) :
    Returns (fun m => m.weight ≤ phasesWeight header phases stack.foundCost + stack.weight)
      (pullPhase header phases stack) := by
  unfold pullPhase
  split
  · refine returns_bind fun _ => returns_pure ?_
    rw [weight_drained]
    exact Nat.le_add_left _ _
  all_goals
    refine returns_pure ?_
    simp only [weight_pull, phasesWeight, Phase.weight, Stack.foundCost, Stack.weight,
      Pending.foundCost, Pending.weight]
    omega

/-- So asking it takes no more than it weighs. -/
theorem lighter_pullPhase (header : Loop) (phases : List Phase) (stack : Stack .completion)
    {n : Nat} (h : phasesWeight header phases stack.foundCost + stack.weight < n) :
    CountsOr (Lighter n) (pullPhase header phases stack) := by
  refine (onward_pullPhase _ _ _).countsOr ?_
  intro c m d hPull
  exact lighter_of_weight (Nat.lt_of_le_of_lt (weight_pullPhase _ _ _ _ _ _ hPull) h)

/-- A result of the loop is paid for. -/
theorem lighter_completeLoop (header : Loop) (phases : List Phase) (completion : Completion)
    (stack : Stack .completion) {n : Nat}
    (h : stack.foundCost + phasesWeight header phases stack.foundCost + 1 + stack.weight < n) :
    CountsOr (Lighter n) (completeLoop header phases completion stack) := by
  refine (onward_leaveLoop _).bind (fun _ => countsOr_pure (lighter_of_weight ?_))
    fun _ => onward_pure _
  simp only [weight_found, Search.weight]
  omega

/-- The test costs no more than the parts before it. -/
theorem testCost_le (header : Loop) : header.testCost ≤ 20 := by
  unfold Loop.testCost
  split <;> omega

/-- The one part that counts nothing is a missing test, which is lighter, once started, than a
result of the part before it. -/
theorem lighter_launchPhase {x : Eval Phase}
    (hx : CountsOr (fun p => p = .test (.found (.bool true))) x) (header : Loop)
    (phases : List Phase) (stack : Stack .completion) {n : Nat}
    (h : stack.foundCost + Loop.partCost + phasesWeight header phases stack.foundCost +
      stack.weight ≤ n) :
    CountsOr (Lighter n) (x >>= fun p => pullPhase header (p :: phases) stack) := by
  refine CountsOr.bind hx ?_ fun _ => onward_pullPhase _ _ _
  rintro _ rfl
  have hTest := testCost_le header
  refine lighter_pullPhase _ _ _ ?_
  simp only [phasesWeight, Phase.weight, Search.found, Search.weight, Loop.partCost] at h ⊢
  omega

/-- The cost of the test pays for the body, also for an empty one. -/
theorem lighter_afterTest (header : Loop) (phases : List Phase) (test : Value)
    (stack : Stack .completion) {n : Nat}
    (h : stack.foundCost + header.testCost + phasesWeight header phases stack.foundCost +
      stack.weight ≤ n) :
    CountsOr (Lighter n) (afterTest header phases test stack) := by
  unfold afterTest
  split
  · refine CountsOr.bind ((onward_startBody header).countsOr (returns_startBody header)) ?_
      fun _ => onward_pullPhase _ _ _
    rintro _ ⟨s, rfl, hBody⟩
    have hWeight := hBody (stack.foundCost + header.bodyCost)
    refine lighter_pullPhase _ _ _ ?_
    simp only [phasesWeight, Phase.weight]
    -- an empty body completes at once, so it must be cheaper than the test; another one counts a
    -- node
    by_cases hEmpty : header.body.statements.isEmpty = true
    · rw [Loop.testCost, if_pos hEmpty] at h
      rw [if_pos hEmpty, Loop.bodyCost, if_pos hEmpty] at hWeight
      rw [Loop.bodyCost, if_pos hEmpty]
      omega
    · rw [Loop.testCost, if_neg hEmpty] at h
      rw [if_neg hEmpty] at hWeight
      omega
  · refine lighter_completeLoop _ _ _ _ ?_
    have hTest : 10 ≤ header.testCost := by
      unfold Loop.testCost
      split <;> omega
    omega
  · exact countsOr_throw _

/-- The cost of the body pays for the next round, unless the loop is bare. -/
theorem lighter_afterBody (header : Loop) (phases : List Phase) (completion : Completion)
    (stack : Stack .completion) {n : Nat}
    (h : stack.foundCost + header.bodyCost + phasesWeight header phases stack.foundCost +
      stack.weight ≤ n) :
    CountsOr (Lighter n) (afterBody header phases completion stack) := by
  have hComplete : stack.foundCost + phasesWeight header phases stack.foundCost + 1 +
      stack.weight < n := by
    unfold Loop.bodyCost at h
    split at h <;> omega
  have hUpdate : CountsOr (Lighter n)
      (startUpdate header >>= fun p => pullPhase header (p :: phases) stack) := by
    refine CountsOr.bind (countsOr_startUpdate header) ?_ fun _ => onward_pullPhase _ _ _
    rintro _ ⟨rfl, hTest, hNoUpdate⟩
    -- either the loop is bare, or its body is not empty
    by_cases hEmpty : header.body.statements.isEmpty = true
    · refine countsOr_pure (.inr ?_)
      show header.isBare = true
      rw [Loop.isBare, hTest, hNoUpdate, hEmpty]
      rfl
    · refine lighter_pullPhase _ _ _ ?_
      rw [Loop.bodyCost, if_neg hEmpty] at h
      simp only [phasesWeight, Phase.weight, Loop.testCost, if_neg hEmpty, Search.found,
        Search.weight]
      omega
  unfold afterBody
  split
  · exact hUpdate
  · exact hUpdate
  · exact lighter_completeLoop _ _ _ _ hComplete
  · exact lighter_completeLoop _ _ _ _ hComplete

/-- A part that is dropped weighs nothing any more. -/
theorem phasesWeight_keep (header : Loop) (dropped : Bool) (p : Phase) (below : List Phase)
    (cost : Nat) :
    phasesWeight header (keep dropped p below) cost ≤
      p.weight header cost + phasesWeight header below cost + 1 := by
  cases dropped with
  | false => exact Nat.le_of_eq (by rw [← phasesWeight]; rfl)
  | true =>
    show phasesWeight header below cost ≤ _
    omega

theorem reachedWeight_keep (dropped : Bool) (index : Nat) (rest : List Stmt)
    (s : Search .completion) (below : List Reached) (cost : Nat) :
    reachedWeight (keep dropped (.mk index rest s) below) cost ≤
      s.weight (cost + 2) + reachedWeight below cost + 1 := by
  cases dropped with
  | false => exact Nat.le_of_eq (by rw [← reachedWeight]; rfl)
  | true =>
    show reachedWeight below cost ≤ _
    omega

-- ---------------------------------------------------------------------------
-- The step
-- ---------------------------------------------------------------------------

/-- A search that is asked is taken apart, which is paid for by the search. -/
theorem lighter_stepPull {k : Kind} (s : Search k) (stack : Stack k) :
    CountsOr (Lighter (pull s stack).weight) (stepPull s stack) := by
  -- every case weighs the machine before and after by its definition; only what starts a statement
  -- or an operand may count instead
  rw [weight_pull]
  cases s with
  | once item =>
    cases item with
    | none =>
      refine countsOr_pure (lighter_of_weight ?_)
      simp only [weight_drained, Search.weight]
      omega
    | some item =>
      refine countsOr_pure (lighter_of_weight ?_)
      simp only [weight_found, Search.failed, Search.weight]
      omega
  | map f inner =>
    refine countsOr_pure (lighter_of_weight ?_)
    simp only [weight_pull, Search.weight, Stack.foundCost, Stack.weight, Pending.foundCost,
      Pending.weight]
    omega
  | bind f outer =>
    refine countsOr_pure (lighter_of_weight ?_)
    simp only [weight_pull, Search.weight, Stack.foundCost, Stack.weight, Pending.foundCost,
      Pending.weight]
    omega
  | binding f outer inner =>
    refine countsOr_pure (lighter_of_weight ?_)
    simp only [weight_pull, Search.weight, Stack.foundCost, Stack.weight, Pending.foundCost,
      Pending.weight]
    omega
  | within frame inner =>
    refine (onward_enter _).bind (fun _ => countsOr_pure (lighter_of_weight ?_))
      fun _ => onward_pure _
    simp only [weight_pull, Search.weight, Stack.foundCost, Stack.weight, Pending.foundCost,
      Pending.weight]
    omega
  | choice alternatives =>
    rw [Search.weight, Nat.add_comm]
    exact onward_checkpoint.bind (fun _ => lighter_nextAlternative _ _ _)
      fun _ => (forward_nextAlternative _ _ _).onward
  | choosing start current alternatives =>
    cases current with
    | none =>
      rw [Search.weight, Nat.add_comm]
      exact lighter_nextAlternative _ _ _
    | some s =>
      refine countsOr_pure (lighter_of_weight ?_)
      simp only [weight_pull, Search.weight, Stack.foundCost, Stack.weight, Pending.foundCost,
        Pending.weight]
      omega
  | product exprs =>
    rw [Search.weight]
    exact lighter_startProduct exprs stack
  | producing operands values =>
    refine countsOr_pure (lighter_of_weight ?_)
    rw [weight_pullOperand, Search.weight]
    omega
  | sequence statements => exact lighter_startSequence statements stack
  | sequenced reached commit =>
    refine countsOr_pure (lighter_of_weight ?_)
    have h := weight_pullStatement reached commit stack
    rw [Search.weight]
    omega
  | loop header =>
    refine (onward_enterLoop header).bind (fun _ => ?_) fun _ =>
      onward_bind (forward_startLoop header).onward fun _ => onward_pullPhase _ _ _
    -- the one start that counts nothing is the test a loop has not got
    refine lighter_launchPhase (countsOr_startLoop header) _ _ _ ?_
    simp only [phasesWeight, Search.weight, Loop.partCost]
    omega
  | looping header phases =>
    refine (onward_enterLoop header).bind (fun _ => lighter_pullPhase _ _ _ ?_)
      fun _ => onward_pullPhase _ _ _
    rw [Search.weight]
    omega

/-- A result is used, which is paid for by what the result may cost. -/
theorem lighter_stepFound {i o : Kind} (item : i.Item) (rest : Search i) (p : Pending i o)
    (stack : Stack o) :
    CountsOr (Lighter (found item rest (.push p stack)).weight)
      (stepFound retire item rest p stack) := by
  rw [weight_found]
  cases p with
  | map f =>
    refine (f.forward_apply item).onward.bind (fun _ => countsOr_pure (lighter_of_weight ?_))
      fun _ => onward_pure _
    simp only [weight_found, Search.weight, Stack.foundCost, Stack.weight, Pending.foundCost,
      Pending.weight]
    omega
  -- only here and where a part of a loop, an operand or a statement is started is a node evaluated;
  -- what it starts weighs less than what waited for it
  | outer f =>
    refine CountsOr.bind (f.countsOr_apply item) (fun s h => countsOr_pure (lighter_of_weight ?_))
      fun _ => onward_pure _
    have hStarted := h stack.foundCost
    simp only [weight_pull, Stack.foundCost, Stack.weight, Pending.foundCost, Pending.weight]
    omega
  | inner f outer =>
    refine countsOr_pure (lighter_of_weight ?_)
    simp only [weight_found, Stack.foundCost, Stack.weight, Pending.foundCost, Pending.weight]
    split
    · rw [Search.weight]
      omega
    · rw [Search.weight]
      omega
  | within frame =>
    refine onward_leave.bind (fun _ => countsOr_pure (lighter_of_weight ?_)) fun _ => onward_pure _
    simp only [weight_found, Search.weight, Stack.foundCost, Stack.weight, Pending.foundCost,
      Pending.weight]
    omega
  | choosing start alternatives =>
    refine countsOr_pure (lighter_of_weight ?_)
    simp only [weight_found, Search.weight, Stack.foundCost, Stack.weight, Pending.foundCost,
      Pending.weight]
    omega
  | operand exprs below values =>
    intro c m d h
    have hWeight : stack.foundCost + operandsWeight (.mk exprs rest :: below) stack.foundCost +
        stack.weight + 2 = (Stack.push (.operand exprs below values) stack).foundCost +
          rest.weight (Stack.push (.operand exprs below values) stack).foundCost +
          (Stack.push (.operand exprs below values) stack).weight := by
      simp only [operandsWeight, Stack.foundCost, Stack.weight, Pending.foundCost, Pending.weight]
      omega
    rw [← hWeight]
    exact lighter_fillOperand exprs rest below values item stack c m d h
  -- whatever is kept of the statement that was reached, it weighs no more than what was there
  | statement index stmts below commit =>
    intro c m d h
    have hKeep := reachedWeight_keep (retire rest) index stmts rest below stack.foundCost
    refine (lighter_completeStatement index stmts item _ commit stack c m d h).imp_right ?_
    rintro ⟨hSame, hLighter⟩
    refine ⟨hSame, hLighter.imp_left fun hWeight => Nat.lt_of_lt_of_le hWeight ?_⟩
    simp only [Stack.foundCost, Stack.weight, Pending.foundCost, Pending.weight]
    omega
  | init header below =>
    have hKeep := phasesWeight_keep header (retire rest) (.init rest) below stack.foundCost
    refine lighter_launchPhase ((countsOr_startTest header).imp fun _ h => h.1) _ _ _ ?_
    simp only [Phase.weight, Stack.foundCost, Stack.weight, Pending.foundCost, Pending.weight]
      at hKeep ⊢
    omega
  | test header below =>
    have hKeep := phasesWeight_keep header (retire rest) (.test rest) below stack.foundCost
    refine lighter_afterTest _ _ _ _ ?_
    simp only [Phase.weight, Stack.foundCost, Stack.weight, Pending.foundCost, Pending.weight]
      at hKeep ⊢
    omega
  | body header below =>
    have hKeep := phasesWeight_keep header (retire rest) (.body rest) below stack.foundCost
    refine lighter_afterBody _ _ _ _ ?_
    simp only [Phase.weight, Stack.foundCost, Stack.weight, Pending.foundCost, Pending.weight]
      at hKeep ⊢
    omega
  | update header below =>
    have hKeep := phasesWeight_keep header (retire rest) (.update rest) below stack.foundCost
    refine lighter_launchPhase ((countsOr_startTest header).imp fun _ h => h.1) _ _ _ ?_
    simp only [Phase.weight, Stack.foundCost, Stack.weight, Pending.foundCost, Pending.weight]
      at hKeep ⊢
    omega

/-- A part without more results makes way for what lies below it. -/
theorem lighter_stepDrained {i o : Kind} (rest : Search i) (p : Pending i o) (stack : Stack o) :
    CountsOr (Lighter (drained rest (.push p stack)).weight) (stepDrained rest p stack) := by
  rw [weight_drained]
  cases p with
  | map f =>
    refine countsOr_pure (lighter_of_weight ?_)
    simp only [weight_drained, Stack.weight, Pending.weight]
    omega
  | outer f =>
    refine countsOr_pure (lighter_of_weight ?_)
    simp only [weight_drained, Stack.weight, Pending.weight]
    omega
  | inner f outer =>
    refine countsOr_pure (lighter_of_weight ?_)
    simp only [weight_pull, Stack.foundCost, Stack.weight, Pending.foundCost, Pending.weight]
    omega
  | within frame =>
    refine onward_leave.bind (fun _ => countsOr_pure (lighter_of_weight ?_)) fun _ => onward_pure _
    simp only [weight_drained, Stack.weight, Pending.weight]
    omega
  -- what is gone back to plays no part in the weight, only the alternatives that are left
  | choosing start alternatives =>
    intro c m d h
    obtain ⟨u, e, hRestore, hNext⟩ := bind_eq_ok.mp h
    cases hRestore
    rw [Stack.weight, Pending.weight, Nat.add_comm]
    exact lighter_nextAlternative start alternatives stack (c.restore start) m d hNext
  | operand exprs below values =>
    refine countsOr_pure (lighter_of_weight ?_)
    rw [weight_pullOperand]
    simp only [Stack.weight, Pending.weight]
    omega
  | statement index stmts below commit =>
    refine countsOr_pure (lighter_of_weight ?_)
    have h := weight_pullStatement below commit stack
    simp only [Stack.weight, Pending.weight]
    omega
  -- the part that has no more results is gone, the ones below it are still there
  | init header below | test header below | body header below | update header below =>
    refine lighter_pullPhase _ _ _ ?_
    simp only [Stack.weight, Pending.weight]
    omega

/-- A step counts a node, makes the machine lighter, or comes to the test of a bare loop. -/
theorem lighter_step {m : Machine} (hUnfinished : m.finished? = none) :
    CountsOr (Lighter m.weight) (m.step retire) := by
  obtain ⟨k, walk, stack⟩ := m
  cases walk with
  | pull s => exact lighter_stepPull s stack
  | found item rest =>
    cases stack with
    | nil => cases hUnfinished
    | push p below => exact lighter_stepFound item rest p below
  | drained rest =>
    cases stack with
    | nil => cases hUnfinished
    | push p below => exact lighter_stepDrained rest p below

end Machine

end AmbScript
