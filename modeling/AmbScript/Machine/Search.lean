import AmbScript.Store.Basic
import AmbScript.Machine.Context

/-!
# Searches

What a node evaluates to: a sequence of results that are found one at a time, on demand. A search
is data; it says what is left to do. Most kinds of search come in two states, one before the first
result was asked for and one with work under way.

* `Search.isExhausted` tells of some searches that they have no more results, without asking.
-/

namespace AmbScript

/-- What a search finds: values, completions of statements, or the items of a list of
expressions. -/
inductive Kind
  | value | completion | tuple
deriving DecidableEq, Inhabited

/-- How a statement ends. -/
inductive Completion
  | value (v : Value)
  | returns (v : Value)
  | breakLoop
  | continueLoop
deriving Inhabited

/-- The results of a search. -/
abbrev Kind.Item : Kind → Type
  | .value => Value
  | .completion => Completion
  | .tuple => List Value

/-- What becomes of each result: one other result. -/
inductive Mapping : Kind → Kind → Type
  /-- The array of the items. -/
  | array : Mapping .tuple .value
  | assign (target : Ident) : Mapping .value .value
  | unary (op : UnaryOp) (span : Span) : Mapping .value .value
  /-- The right operand follows. -/
  | binary (op : BinaryOp) (left : Value) (span : Span) : Mapping .value .value
  /-- The key follows. -/
  | index (object : Value) (span : Span) : Mapping .value .value
  | member (property : String) (span : Span) : Mapping .value .value
  | statement : Mapping .value .completion
  | declare (isConst : Bool) (name : Ident) : Mapping .value .completion
  | returns : Mapping .value .completion
  /-- The value of a call whose body has completed. -/
  | call : Mapping .completion .value
  /-- The value of a program that has completed. -/
  | program : Mapping .completion .value

/-- What becomes of each result: a search of its own. -/
inductive Expansion : Kind → Kind → Type
  /-- The right operand is next. -/
  | binary (op : BinaryOp) (right : Expr) (span : Span) : Expansion .value .value
  | logical (op : LogicalOp) (right : Expr) (leftSpan : Span) : Expansion .value .value
  | conditional (consequent alternate : Expr) (testSpan : Span) : Expansion .value .value
  /-- The arguments are next. -/
  | callee (args : List Expr) (span : Span) : Expansion .value .value
  /-- The call is next. -/
  | arguments (function : Value) (span : Span) : Expansion .tuple .value
  /-- The key is next. -/
  | index (key : Expr) (span : Span) : Expansion .value .value
  | require (span : Span) : Expansion .value .value
  | branch (consequent : Block) (alternate : Alternate) (testSpan : Span) :
      Expansion .value .completion

/-- A loop that is run. -/
inductive Loop
  | whileLoop (test : Expr) (body : Block)
  /-- The frame holds the loop's variables. -/
  | forLoop (init : Option LoopInit) (test update : Option Expr) (body : Block) (frame : FrameId)

mutual

inductive Search : Kind → Type
  /-- One result, or none. -/
  | once {k : Kind} (item : Option k.Item) : Search k
  | map {i o : Kind} (f : Mapping i o) (inner : Search i) : Search o
  /-- All results of the search for the first result, then of that for the second, and so on. -/
  | bind {i o : Kind} (f : Expansion i o) (outer : Search i) : Search o
  /-- The same in the midst of a result of `outer`. -/
  | binding {i o : Kind} (f : Expansion i o) (outer : Search i) (inner : Search o) : Search o
  /-- The results of `inner` inside a frame. -/
  | within {k : Kind} (frame : FrameId) (inner : Search k) : Search k
  /-- The values of all alternatives in turn. -/
  | choice (alternatives : List Expr) : Search .value
  /-- The same once `start` has been noted; each alternative begins as of then. -/
  | choosing (start : Checkpoint) (current : Option (Search .value))
      (alternatives : List Expr) : Search .value
  /-- All combinations of the expressions' values, the first one varying slowest. -/
  | product (exprs : List Expr) : Search .tuple
  /-- The same under way: the searches for the first items, the last one first, and the values
  that all but the last have found, also in reverse. -/
  | producing (operands : List Operand) (values : List Value) : Search .tuple
  /-- The completions of statements that are run one after the other. -/
  | sequence (statements : List Stmt) : Search .completion
  /-- The same under way, the last statement reached being first. -/
  | sequenced (reached : List Reached) (commit : Option Nat) : Search .completion
  | loop (header : Loop) : Search .completion
  /-- The same under way, the last part of it reached being first. -/
  | looping (header : Loop) (phases : List Phase) : Search .completion

/-- The search at one position of a list of expressions, and the expressions behind it. -/
inductive Operand : Type
  | mk (rest : List Expr) (search : Search .value)

/-- The search of one statement, its number, and the statements behind it. -/
inductive Reached : Type
  | mk (index : Nat) (rest : List Stmt) (search : Search .completion)

/-- The search of one part of a loop. -/
inductive Phase : Type
  | init (search : Search .completion)
  | test (search : Search .value)
  | body (search : Search .completion)
  | update (search : Search .value)

end

namespace Search

/-- The one result `item`. -/
def found {k : Kind} (item : k.Item) : Search k := .once (some item)

/-- No result. -/
def failed {k : Kind} : Search k := .once none

end Search

mutual

/-- The search is known to have no more results, so that to ask for one would change nothing. -/
def Search.isExhausted {k : Kind} : Search k → Bool
  | .once item => item.isNone
  | .map _ inner => inner.isExhausted
  | .bind _ outer => outer.isExhausted
  | .binding .. => false
  | .within _ inner => inner.isExhausted
  | .choice _ => false
  | .choosing _ current alternatives => current.isNone && alternatives.isEmpty
  | .product _ => false
  | .producing operands _ => allExhausted operands
  | .sequence _ => false
  | .sequenced reached _ => reached.isEmpty
  | .loop _ => false
  | .looping _ phases => phases.isEmpty

def allExhausted : List Operand → Bool
  | [] => true
  | o :: os => o.isExhausted && allExhausted os

def Operand.isExhausted : Operand → Bool
  | .mk _ s => s.isExhausted

end

end AmbScript
