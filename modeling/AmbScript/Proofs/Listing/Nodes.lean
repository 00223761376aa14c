import AmbScript.Session.Basic
import AmbScript.Proofs.Listing.Basic

/-!
# What nodes evaluate to

A semantics of programs without a machine, a trail or a shared store. A node evaluated in a
context has a listing of its results, each with a context of its own: the alternatives of an `amb`
are all evaluated in the context in which the `amb` is, and nothing is ever taken back.

A call and a further round of a loop are listed by a function `deeper` that is given, so everything
else is a recursion on the tree of the program. `Activity.list` closes the circle for so many calls
and rounds inside one another; where they go deeper, the listing is unknown.

* `Expr.list`, `Stmt.list` — the results of a node.
* `statementsList` — the completions of statements in a row; a `cut` keeps the first completion of
  the statements before it.
* `Loop.roundsList` — the completions of a loop from a test on.
* `Program.list` — the values of a program.
-/

namespace AmbScript

open Listing

/-- What goes deeper than the tree of the program: the body of a function that is called, and the
rounds of a loop that are still to come. -/
inductive Activity
  | body (statements : List Stmt)
  | rounds (header : Loop)

/-- The statement gives up what is left of the statements before it. -/
def Stmt.isCut : Stmt → Bool
  | .cut _ => true
  | _ => false

section

variable (deeper : Activity → Context → Listing Completion)

/-- The values of a call. -/
def callList (function : Value) (args : List Value) (span : Span) (c : Context) : Listing Value :=
  match function with
  | .closure _ f env =>
    (perform (Eval.openCall f env args span) c).bind fun frame c =>
      (inside frame (deeper (.body f.body.statements)) c).bind fun completion c =>
        one completion.ofCall c
  | .primitive p => perform (Eval.applyPrimitive p args span) c
  | v => .fault (.callingNonFunction v.render span)

/-- The values after a declared variable or an assigned one has its value. -/
def settle (x : Eval Unit) (a : α) (c : Context) : Listing α :=
  (perform x c).bind fun _ c => one a c

mutual

/-- The values of an expression. -/
def Expr.list : Expr → Context → Listing Value
  | .number x _, c => one (.number x) c
  | .string text _, c => one (.string text) c
  | .bool b _, c => one (.bool b) c
  | .null _, c => one .null c
  | .undefined _, c => one .undefined c
  | .array items _, c =>
    (tuplesList items c).bind fun vs c => (perform Eval.newCell c).bind fun cell c =>
      one (.array cell vs) c
  | .ident name, c => perform (Eval.lookup name) c
  | .assign target value _, c =>
    (value.list c).bind fun v c => settle (Eval.assign target v) v c
  | .unary op operand span, c =>
    (operand.list c).bind fun v c => perform (Eval.ofExcept (v.unary op span)) c
  | .binary op left right span, c =>
    (left.list c).bind fun l c => (right.list c).bind fun r c =>
      perform (Eval.ofExcept (Value.binary op l r span)) c
  | .logical op left right _, c =>
    (left.list c).bind fun l c =>
      match op, l with
      | .and, .bool true => right.list c
      | .or, .bool false => right.list c
      | _, .bool b => one (.bool b) c
      | _, v => .fault (.nonBooleanCondition v.typeName left.span)
  | .conditional test consequent alternate _, c =>
    (test.list c).bind fun v c =>
      match v with
      | .bool true => consequent.list c
      | .bool false => alternate.list c
      | v => .fault (.nonBooleanCondition v.typeName test.span)
  | .call callee args span, c =>
    match callee.ident?.map (·.name) with
    | some "amb" => alternativesList args c
    | some "require" => requireList args span c
    | _ =>
      (callee.list c).bind fun f c => (tuplesList args c).bind fun vs c =>
        callList deeper f vs span c
  | .index object key span, c =>
    (object.list c).bind fun o c => (key.list c).bind fun k c =>
      perform (Eval.ofExcept (o.index k span)) c
  | .member object property span, c =>
    (object.list c).bind fun o _ => .fault (o.property property.name span)
  | .function f, c => perform (do Eval.newClosure f (← get).current) c

/-- The values of all alternatives in turn, each of them evaluated in the same context. -/
def alternativesList : List Expr → Context → Listing Value
  | [], _ => .done
  | e :: rest, c => (e.list c).append (alternativesList rest c)

/-- All combinations of the expressions' values, the first one varying slowest. -/
def tuplesList : List Expr → Context → Listing (List Value)
  | [], c => one [] c
  | e :: rest, c =>
    (e.list c).bind fun v c => (tuplesList rest c).bind fun vs c => one (v :: vs) c

/-- Nothing, if what is required does not hold. -/
def requireList : List Expr → Span → Context → Listing Value
  | [predicate], _, c =>
    (predicate.list c).bind fun v c =>
      match v with
      | .bool true => one .undefined c
      | .bool false => .done
      | v => .fault (.typeMismatch "boolean" " as argument to require" v.typeName predicate.span)
  | args, span, _ => .fault (.invalidNumberOfArguments "require" "1" args.length span)

end

mutual

/-- The completions of a statement. -/
def Stmt.list : Stmt → Context → Listing Completion
  | .expr e, c => (e.list deeper c).bind fun v c => one (.value v) c
  | .declare isConst name init _, c =>
    (init.list deeper c).bind fun v c => settle (Eval.define name v isConst) (.value v) c
  | .function _, c => one (.value .undefined) c
  | .returns value _, c => (value.list deeper c).bind fun v c => one (.returns v) c
  | .branch b, c => b.list c
  | .block b, c => b.list c
  | .whileLoop test body _, c => deeper (.rounds (.whileLoop test body)) c
  | .forLoop init test update body _, c =>
    (perform (Eval.openLoop init) c).bind fun frame c =>
      inside frame (fun c => (initList init c).bind fun _ c =>
        deeper (.rounds (.forLoop init test update body frame)) c) c
  | .breakLoop _, c => one .breakLoop c
  | .continueLoop _, c => one .continueLoop c
  | .cut _, c => one (.value .undefined) c

/-- The completions of statements in a row that go on from those of the statements before. A `cut`
keeps the first of these that leads on to it. -/
def statementsList : List Stmt → Listing Completion → Listing Completion
  | [], L => L
  | s :: rest, L =>
    statementsList rest
      (if s.isCut then L.first.andThen (one (.value .undefined)) else L.andThen s.list)

/-- The completions of a block, inside a new frame. -/
def Block.list : Block → Context → Listing Completion
  | .mk statements span, c =>
    (perform (Eval.openBlock (.mk statements span)) c).bind fun frame c =>
      inside frame (fun c => statementsList statements (one (.value .undefined) c)) c

/-- The completions of the block that the condition leads to. -/
def Branch.list : Branch → Context → Listing Completion
  | .mk test consequent alternate _, c =>
    (test.list deeper c).bind fun v c =>
      match v with
      | .bool true => consequent.list c
      | .bool false => alternate.list c
      | v => .fault (.nonBooleanCondition v.typeName test.span)

/-- The completions of what stands after `else`. -/
def Alternate.list : Alternate → Context → Listing Completion
  | .absent, c => one (.value .undefined) c
  | .block b, c => b.list c
  | .branch b, c => b.list c

/-- The first part of a `for` header. -/
def initList : Option LoopInit → Context → Listing Completion
  | none, c => one (.value .undefined) c
  | some (.declare name init _), c =>
    (init.list deeper c).bind fun v c => settle (Eval.define name v false) (.value v) c
  | some (.expr e), c => (e.list deeper c).bind fun v c => one (.value v) c

end

namespace Loop

/-- The values of the test; a missing one holds. -/
def testList : Loop → Context → Listing Value
  | .whileLoop test _, c => test.list deeper c
  | .forLoop _ (some test) _ _ _, c => test.list deeper c
  | .forLoop _ none _ _ _, c => one (.bool true) c

/-- The completions of the body; in a `for` loop it sees copies of the loop's variables. -/
def bodyList : Loop → Context → Listing Completion
  | .whileLoop _ body, c => body.list deeper c
  | .forLoop init _ _ body frame, c =>
    (perform (Eval.openRound init frame) c).bind fun round c =>
      inside round (body.list deeper) c

/-- The values of the update, if there is one. -/
def updateList : Loop → Context → Listing Value
  | .forLoop _ _ (some update) _ _, c => update.list deeper c
  | _, c => one .undefined c

/-- The completions of the loop from the test on. -/
def roundsList (header : Loop) (c : Context) : Listing Completion :=
  (header.testList deeper c).bind fun v c =>
    match v with
    | .bool true =>
      (header.bodyList deeper c).bind fun completion c =>
        match completion with
        | .value _ => (header.updateList deeper c).bind fun _ c => deeper (.rounds header) c
        | .continueLoop => (header.updateList deeper c).bind fun _ c => deeper (.rounds header) c
        | .breakLoop => one (.value .undefined) c
        | .returns v => one (.returns v) c
    | .bool false => one (.value .undefined) c
    | v => .fault (.nonBooleanCondition v.typeName (Machine.testSpan header))

end Loop

end

/-- The completions of an activity, followed through so many calls and rounds inside one
another. -/
def Activity.list : Nat → Activity → Context → Listing Completion
  | 0, _, _ => .unknown
  | depth + 1, .body statements, c =>
    statementsList (Activity.list depth) statements (one (.value .undefined) c)
  | depth + 1, .rounds header, c => header.roundsList (Activity.list depth) c

/-- The values of a program, followed through so many calls and rounds inside one another. -/
def Program.list (depth : Nat) (p : Program) (c : Context) : Listing Value :=
  (perform p.enter c).bind fun _ c =>
    (statementsList (Activity.list depth) p.body.statements (one (.value .undefined) c)).bind
      fun completion c => one completion.ofProgram c

end AmbScript
