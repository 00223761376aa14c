import AmbScript.Machine.Search
import AmbScript.Primitive.Call
import AmbScript.Value.Operators

/-!
# Starting searches

From a node of a program to its search. Starting counts the node and, first of all, the nodes
that stand at its beginning, whose results it needs first; everything else waits until a result
is asked for.

* `Expr.start` and `Stmt.start` begin the search of a node; `Block.start` enters a block.
* `Mapping.apply` and `Expansion.apply` go on from a result.
-/

namespace AmbScript

namespace Eval

/-- The closure of a function in a frame. -/
def newClosure (f : Function) (frame : FrameId) : Eval Value := do
  return .closure (← newCell) f frame

/-! ## Scopes -/

def declareAll (frame : FrameId) : List Ident → Eval Unit
  | [] => return
  | name :: names => do
    declare frame name
    declareAll frame names

/-- Gives the functions declared by statements their closures. -/
def defineFunctions (frame : FrameId) : List Stmt → Eval Unit
  | [] => return
  | .function f :: rest => do
    if let some name := f.name? then
      defineIn frame name (← newClosure f frame) true
    defineFunctions frame rest
  | _ :: rest => defineFunctions frame rest

/-- Adds to a frame all names that are declared directly in a block, as placeholders; functions
have their values at once. -/
def hoist (frame : FrameId) (b : Block) : Eval Unit := do
  declareAll frame b.declarations
  defineFunctions frame b.statements

/-- The frame of a block. -/
def openBlock (b : Block) : Eval FrameId := do
  let frame ← childFrame "blockEnvironment"
  hoist frame b
  return frame

/-- The frame of the variables of a `for` loop. -/
def openLoop (init : Option LoopInit) : Eval FrameId := do
  let frame ← childFrame "forLoopEnvironment"
  declareAll frame ((init.map LoopInit.declared).getD [])
  return frame

def bindParams (frame : FrameId) : List Ident → List Value → Eval Unit
  | p :: ps, v :: vs => do
    bindName frame p.name (.ofValue v false)
    bindParams frame ps vs
  | _, _ => return

/-- The frame of a call, inside the one that the function was made in. -/
def openCall (f : Function) (env : FrameId) (args : List Value) (span : Span) : Eval FrameId := do
  if f.params.length ≠ args.length then
    throw (.invalidNumberOfArguments f.displayName (toString f.params.length) args.length span)
  -- no frame is made for a call with the wrong number of arguments
  let frame ← newFrame f.displayName env (some span)
  bindParams frame f.params args
  hoist frame f.body
  return frame

/-- The answer of a primitive. -/
def applyPrimitive (p : Primitive) (args : List Value) (span : Span) : Eval Value := do
  if !p.arity.accepts args.length then
    throw (.invalidNumberOfArguments p.name p.arity.render args.length span)
  match ← p.call args with
  | .ok v => return v
  | .error e => throw (.exception p.name e span)

/-- Copies of variables that cannot be assigned to. -/
def copyVariables (source target : FrameId) : List Ident → Eval Unit
  | [] => return
  | name :: names => do
    let b := (← get).store.binding? source name.name
    let v := (b >>= Binding.value?).getD .undefined
    bindName target name.name (.ofValue v true)
    copyVariables source target names

/-- The frame of one round of a `for` loop. It has copies of the loop's variables, so that
closures made in the round keep their values. -/
def openRound (init : Option LoopInit) (outer : FrameId) : Eval FrameId := do
  let round ← childFrame "forBlockEnvironment"
  copyVariables outer round ((init.map LoopInit.declared).getD [])
  return round

end Eval

/-! ## Statements with a scope -/

/-- The block in a new frame. -/
def Block.start (b : Block) : Eval (Search .completion) := do
  return .within (← Eval.openBlock b) (.sequence b.statements)

/-! ## Nodes -/

mutual

def Expr.start : Expr → Eval (Search .value)
  | .number x span => do
    Eval.tick span
    return .found (.number x)
  | .string text span => do
    Eval.tick span
    return .found (.string text)
  | .bool b span => do
    Eval.tick span
    return .found (.bool b)
  | .null span => do
    Eval.tick span
    return .found .null
  | .undefined span => do
    Eval.tick span
    return .found .undefined
  | .array items span => do
    Eval.tick span
    return .map .array (.product items)
  | .ident name => do
    Eval.tick name.span
    return .found (← Eval.lookup name)
  | .assign target value span => do
    Eval.tick span
    return .map (.assign target) (← value.start)
  | .unary op operand span => do
    Eval.tick span
    return .map (.unary op span) (← operand.start)
  | .binary op left right span => do
    Eval.tick span
    return .bind (.binary op right span) (← left.start)
  | .logical op left right span => do
    Eval.tick span
    return .bind (.logical op right left.span) (← left.start)
  | .conditional test consequent alternate span => do
    Eval.tick span
    return .bind (.conditional consequent alternate test.span) (← test.start)
  | .call callee args span => do
    Eval.tick span
    match callee.ident?.map (·.name) with
    -- by their spelling alone: neither name is looked up
    | some "amb" => return .choice args
    | some "require" => startRequire args span
    | _ => return .bind (.callee args span) (← callee.start)
  | .index object key span => do
    Eval.tick span
    return .bind (.index key span) (← object.start)
  | .member object property span => do
    Eval.tick span
    return .map (.member property.name span) (← object.start)
  | .function f => do
    Eval.tick f.span
    return .found (← Eval.newClosure f (← get).current)

/-- `require` takes one argument. -/
def startRequire : List Expr → Span → Eval (Search .value)
  | [predicate], _ => do return .bind (.require predicate.span) (← predicate.start)
  | args, span => throw (.invalidNumberOfArguments "require" "1" args.length span)

end

def Branch.start : Branch → Eval (Search .completion)
  | .mk test consequent alternate span => do
    Eval.tick span
    return .bind (.branch consequent alternate test.span) (← test.start)

def Stmt.start : Stmt → Eval (Search .completion)
  | .expr e => do
    Eval.tick e.span
    return .map .statement (← e.start)
  | .declare isConst name init span => do
    Eval.tick span
    return .map (.declare isConst name) (← init.start)
  | .function f => do
    -- The name has its value since the scope was entered.
    Eval.tick f.span
    return .found (.value .undefined)
  | .returns value span => do
    Eval.tick span
    return .map .returns (← value.start)
  | .branch b => b.start
  | .block b => do
    Eval.tick b.span
    b.start
  | .whileLoop test body span => do
    Eval.tick span
    return .loop (.whileLoop test body)
  | .forLoop init test update body span => do
    Eval.tick span
    return .loop (.forLoop init test update body (← Eval.openLoop init))
  | .breakLoop span => do
    Eval.tick span
    return .found .breakLoop
  | .continueLoop span => do
    Eval.tick span
    return .found .continueLoop
  | .cut span => do
    -- The statements around it commit when they reach it.
    Eval.tick span
    return .found (.value .undefined)

/-! ## Calls -/

/-- The body of a function in the frame of its call. -/
def startClosure (f : Function) (env : FrameId) (args : List Value) (span : Span) :
    Eval (Search .value) := do
  return .map .call (.within (← Eval.openCall f env args span) (.sequence f.body.statements))

/-- The call of a function value. -/
def startCall (function : Value) (args : List Value) (span : Span) : Eval (Search .value) :=
  match function with
  | .closure _ f env => startClosure f env args span
  | .primitive p => do return .found (← Eval.applyPrimitive p args span)
  | v => throw (.callingNonFunction v.render span)

/-! ## Going on from a result -/

namespace Completion

/-- The value of a call whose body has completed. -/
def ofCall : Completion → Value
  | returns v => v
  | _ => .undefined

/-- The value of a program that has completed. -/
def ofProgram : Completion → Value
  | value v => v
  | returns v => v
  | _ => .undefined

end Completion

/-- The one result that follows from another. -/
def Mapping.apply {i o : Kind} : Mapping i o → i.Item → Eval o.Item
  | .array, items => do return .array (← Eval.newCell) items
  | .assign target, v => do
    Eval.assign target v
    return v
  | .unary op span, v => Eval.ofExcept (v.unary op span)
  | .binary op left span, v => Eval.ofExcept (Value.binary op left v span)
  | .index object span, key => Eval.ofExcept (object.index key span)
  -- no value has properties
  | .member property span, object => throw (object.property property span)
  | .statement, v => return .value v
  | .declare isConst name, v => do
    Eval.define name v isConst
    return .value v
  | .returns, v => return .returns v
  | .call, completion => return completion.ofCall
  | .program, completion => return completion.ofProgram

def nonBoolean {α : Type} (v : Value) (span : Span) : Eval α :=
  throw (.nonBooleanCondition v.typeName span)

/-- The right operand, unless the left one decides. -/
def continueLogical (op : LogicalOp) (right : Expr) (leftSpan : Span) (left : Value) :
    Eval (Search .value) :=
  match op, left with
  | .and, .bool true => right.start
  | .or, .bool false => right.start
  -- the left operand decides
  | _, .bool b => return .found (.bool b)
  | _, v => nonBoolean v leftSpan

def continueConditional (consequent alternate : Expr) (testSpan : Span) (test : Value) :
    Eval (Search .value) :=
  match test with
  | .bool true => consequent.start
  | .bool false => alternate.start
  | v => nonBoolean v testSpan

def continueRequire (span : Span) (predicate : Value) : Eval (Search .value) :=
  match predicate with
  | .bool true => return .found .undefined
  -- a dead end: whoever asked goes back to an earlier choice
  | .bool false => return .failed
  | v => throw (.typeMismatch "boolean" " as argument to require" v.typeName span)

/-- What follows when the test has failed. -/
def Alternate.start : Alternate → Eval (Search .completion)
  | .absent => return .found (.value .undefined)
  | .block b => b.start
  | .branch b => b.start

def continueBranch (consequent : Block) (alternate : Alternate) (testSpan : Span) (test : Value) :
    Eval (Search .completion) :=
  match test with
  | .bool true => consequent.start
  | .bool false => alternate.start
  | v => nonBoolean v testSpan

/-- The search that starts from a result. -/
def Expansion.apply {i o : Kind} : Expansion i o → i.Item → Eval (Search o)
  | .binary op right span, left => do return .map (.binary op left span) (← right.start)
  | .logical op right leftSpan, left => continueLogical op right leftSpan left
  | .conditional consequent alternate testSpan, test =>
    continueConditional consequent alternate testSpan test
  | .callee args span, function => return .bind (.arguments function span) (.product args)
  | .arguments function span, args => startCall function args span
  | .index key span, object => do return .map (.index object span) (← key.start)
  | .require span, predicate => continueRequire span predicate
  | .branch consequent alternate testSpan, test =>
    continueBranch consequent alternate testSpan test

end AmbScript
