import AmbScript.Machine.Step
import AmbScript.Proofs.Machine.Effect

/-!
# Searches that were just started

Starting a node makes searches of a few kinds only. None of them has alternatives, statements,
operands or parts of loops under way.

* `Search.Fresh` — nothing is under way in the search.
* `Eval.Returns` — a computation has results with a property only.
* `Expr.fresh_start`, `Stmt.fresh_start`, `Expansion.fresh_apply` — what is started is fresh.
* `Machine.fresh_startLoop`, …, `Machine.fresh_startBody` — so are the parts of a loop.

The kinds are the constructors of `Search.Fresh`: a search that waits for the first answer of its
operand, and the four that hold a list of nodes none of which was started. Facts about everything
that a start can make are proved by induction on `Fresh` and need no look at the nodes.
-/

namespace AmbScript

variable {α β : Type}

/-- Every result of `x` has the property. -/
def Eval.Returns (P : α → Prop) (x : Eval α) : Prop :=
  ∀ (c : Context) (a : α) (d : Context), x c = .ok a d → P a

namespace Eval

/-- An item that is given at once is the only result. -/
theorem returns_pure {P : α → Prop} {a : α} (h : P a) : Returns P (pure a) := by
  intro c b d hEq
  cases hEq
  exact h

/-- A fault is not a result. -/
theorem returns_throw {P : α → Prop} (t : Fault) : Returns P (throw t) := by
  intro c b d hEq
  cases hEq

/-- A property of the results of the second part alone, whatever the first part gives. -/
theorem returns_bind {P : β → Prop} {x : Eval α} {f : α → Eval β} (hf : ∀ a, Returns P (f a)) :
    Returns P (x >>= f) := by
  intro c b d h
  obtain ⟨a, e, -, hSecond⟩ := bind_eq_ok.mp h
  exact hf a _ _ _ hSecond

/-- The second part may rely on what is known of the results of the first. -/
theorem Returns.bind {P : α → Prop} {Q : β → Prop} {x : Eval α} {f : α → Eval β}
    (hx : Returns P x) (hf : ∀ a, P a → Returns Q (f a)) : Returns Q (x >>= f) := by
  intro c b d h
  obtain ⟨a, e, hFirst, hSecond⟩ := bind_eq_ok.mp h
  exact hf a (hx _ _ _ hFirst) _ _ _ hSecond

end Eval

open Eval

/-- Nothing is under way in the search. -/
inductive Search.Fresh : {k : Kind} → Search k → Prop
  | once {k : Kind} (item : Option k.Item) : Fresh (.once item)
  | map {i o : Kind} (f : Mapping i o) {s : Search i} (h : Fresh s) : Fresh (.map f s)
  | bind {i o : Kind} (f : Expansion i o) {s : Search i} (h : Fresh s) : Fresh (.bind f s)
  | within {k : Kind} (frame : FrameId) {s : Search k} (h : Fresh s) : Fresh (.within frame s)
  | choice (alternatives : List Expr) : Fresh (.choice alternatives)
  | product (exprs : List Expr) : Fresh (.product exprs)
  | sequence (statements : List Stmt) : Fresh (.sequence statements)
  | loop (header : Loop) : Fresh (.loop header)

open Search

/-- Nothing is under way in the part of the loop. -/
def Phase.Fresh : Phase → Prop
  | .init s => s.Fresh
  | .test s => s.Fresh
  | .body s => s.Fresh
  | .update s => s.Fresh

/-- A block is started as the sequence of its statements in a frame of its own. -/
theorem Block.fresh_start (b : Block) : Returns Fresh b.start := by
  refine returns_bind fun frame => ?_
  exact returns_pure (.within frame (.sequence _))

mutual

/-- An expression is started as one item, as a choice, or as a search over its first operand. The
operand is a smaller expression, which is what the recursion rests on. -/
theorem Expr.fresh_start : ∀ e : Expr, Returns Fresh e.start
  | .number .. => returns_bind fun _ => returns_pure (.once _)
  | .string .. => returns_bind fun _ => returns_pure (.once _)
  | .bool .. => returns_bind fun _ => returns_pure (.once _)
  | .null _ => returns_bind fun _ => returns_pure (.once _)
  | .undefined _ => returns_bind fun _ => returns_pure (.once _)
  | .array .. => by
    refine returns_bind fun _ => ?_
    exact returns_pure (.map _ (.product _))
  | .ident _ => by
    refine returns_bind fun _ => ?_
    refine returns_bind fun _ => ?_
    exact returns_pure (.once _)
  | .assign _ value _ => by
    refine returns_bind fun _ => ?_
    refine value.fresh_start.bind fun _ h => ?_
    exact returns_pure (.map _ h)
  | .unary _ operand _ => by
    refine returns_bind fun _ => ?_
    refine operand.fresh_start.bind fun _ h => ?_
    exact returns_pure (.map _ h)
  | .binary _ left _ _ => by
    refine returns_bind fun _ => ?_
    refine left.fresh_start.bind fun _ h => ?_
    exact returns_pure (.bind _ h)
  | .logical _ left _ _ => by
    refine returns_bind fun _ => ?_
    refine left.fresh_start.bind fun _ h => ?_
    exact returns_pure (.bind _ h)
  | .conditional test _ _ _ => by
    refine returns_bind fun _ => ?_
    refine test.fresh_start.bind fun _ h => ?_
    exact returns_pure (.bind _ h)
  | .call callee args span => by
    unfold Expr.start
    refine returns_bind fun _ => ?_
    split
    · exact returns_pure (.choice _)
    · exact fresh_startRequire args span
    · exact callee.fresh_start.bind fun _ h => returns_pure (.bind _ h)
  | .index object _ _ => by
    refine returns_bind fun _ => ?_
    refine object.fresh_start.bind fun _ h => ?_
    exact returns_pure (.bind _ h)
  | .member object _ _ => by
    refine returns_bind fun _ => ?_
    refine object.fresh_start.bind fun _ h => ?_
    exact returns_pure (.map _ h)
  | .function _ => by
    refine returns_bind fun _ => ?_
    refine returns_bind fun _ => ?_
    refine returns_bind fun _ => ?_
    exact returns_pure (.once _)

/-- `require` is a search over its predicate; with another number of arguments it is a fault. -/
theorem fresh_startRequire : ∀ (args : List Expr) (span : Span),
    Returns Fresh (startRequire args span)
  | [predicate], _ => by
    refine predicate.fresh_start.bind fun _ h => ?_
    exact returns_pure (.bind _ h)
  | [], _ => returns_throw _
  | _ :: _ :: _, _ => returns_throw _

end

/-- A branch is a search over its test. -/
theorem Branch.fresh_start (b : Branch) : Returns Fresh b.start := by
  cases b with
  | mk test _ _ _ =>
    exact returns_bind fun _ => test.fresh_start.bind fun _ h => returns_pure (.bind _ h)

/-- What a statement starts is fresh. Statements without an expression are one completion, loops
have only their header. -/
theorem Stmt.fresh_start (s : Stmt) : Returns Fresh s.start := by
  cases s with
  | expr e => exact returns_bind fun _ => e.fresh_start.bind fun _ h => returns_pure (.map _ h)
  | declare _ _ init _ =>
    exact returns_bind fun _ => init.fresh_start.bind fun _ h => returns_pure (.map _ h)
  | function _ => exact returns_bind fun _ => returns_pure (.once _)
  | returns value _ =>
    exact returns_bind fun _ => value.fresh_start.bind fun _ h => returns_pure (.map _ h)
  | branch b => exact b.fresh_start
  | block b => exact returns_bind fun _ => b.fresh_start
  -- only the header is held: the test and the body are started when the loop is pulled
  | whileLoop _ _ _ => exact returns_bind fun _ => returns_pure (.loop _)
  | forLoop _ _ _ _ _ =>
    exact returns_bind fun _ => returns_bind fun _ => returns_pure (.loop _)
  | breakLoop _ => exact returns_bind fun _ => returns_pure (.once _)
  | continueLoop _ => exact returns_bind fun _ => returns_pure (.once _)
  | cut _ => exact returns_bind fun _ => returns_pure (.once _)

theorem Alternate.fresh_start (a : Alternate) : Returns Fresh a.start := by
  cases a with
  | absent => exact returns_pure (.once _)
  | block b => exact b.fresh_start
  | branch b => exact b.fresh_start

/-- A call starts the body of a closure in a new frame; a primitive answers at once. -/
theorem fresh_startCall (function : Value) (args : List Value) (span : Span) :
    Returns Fresh (startCall function args span) := by
  unfold startCall
  split
  · exact returns_bind fun frame => returns_pure (.map _ (.within frame (.sequence _)))
  · exact returns_bind fun _ => returns_pure (.once _)
  · exact returns_throw _

/-- What an item of one search starts, such as the right operand after the left one, is fresh
too. -/
theorem Expansion.fresh_apply {i o : Kind} (f : Expansion i o) (item : i.Item) :
    Returns Fresh (f.apply item) := by
  cases f with
  | binary op right span => exact right.fresh_start.bind fun _ h => returns_pure (.map _ h)
  | logical op right leftSpan =>
    show Returns Fresh (continueLogical _ _ _ _)
    unfold continueLogical
    split
    · exact right.fresh_start
    · exact right.fresh_start
    · exact returns_pure (.once _)
    · exact returns_throw _
  | conditional consequent alternate testSpan =>
    show Returns Fresh (continueConditional _ _ _ _)
    unfold continueConditional
    split
    · exact consequent.fresh_start
    · exact alternate.fresh_start
    · exact returns_throw _
  -- the arguments are a product, of which no operand was started
  | callee args span => exact returns_pure (.bind _ (.product _))
  | arguments function span => exact fresh_startCall _ _ _
  | index key span => exact key.fresh_start.bind fun _ h => returns_pure (.map _ h)
  | require span =>
    show Returns Fresh (continueRequire _ _)
    unfold continueRequire
    split
    · exact returns_pure (.once _)
    · exact returns_pure (.once _)
    · exact returns_throw _
  | branch consequent alternate testSpan =>
    show Returns Fresh (continueBranch _ _ _ _)
    unfold continueBranch
    split
    · exact consequent.fresh_start
    · exact alternate.fresh_start
    · exact returns_throw _

-- ---------------------------------------------------------------------------
-- Parts of loops
-- ---------------------------------------------------------------------------

namespace Machine

/-- The test of a loop; without one, the loop goes on at once. -/
theorem fresh_startTest (header : Loop) :
    Returns Phase.Fresh (startTest header) := by
  cases header with
  | whileLoop test body => exact test.fresh_start.bind fun _ h => returns_pure h
  | forLoop init test update body frame =>
    cases test with
    | none => exact returns_pure (Search.Fresh.once (k := .value) _)
    | some test => exact test.fresh_start.bind fun _ h => returns_pure h

/-- The part a loop begins with: its first part, or the test if there is none. -/
theorem fresh_startLoop (header : Loop) :
    Returns Phase.Fresh (startLoop header) := by
  unfold startLoop
  split
  · exact (Stmt.fresh_start _).bind fun _ h => returns_pure h
  · exact fresh_startTest _

/-- The part after the body. -/
theorem fresh_startUpdate (header : Loop) :
    Returns Phase.Fresh (startUpdate header) := by
  unfold startUpdate
  split
  · exact (Expr.fresh_start _).bind fun _ h => returns_pure h
  · exact fresh_startTest _

/-- The body, which is started in the frame of its round. -/
theorem fresh_startBody (header : Loop) :
    Returns Phase.Fresh (startBody header) := by
  cases header with
  | whileLoop test body => exact body.fresh_start.bind fun _ h => returns_pure h
  | forLoop init test update body frame =>
    exact returns_bind fun _ => returns_bind fun _ => body.fresh_start.bind fun _ h =>
      returns_bind fun _ => returns_pure (.within _ h)

end Machine

end AmbScript
