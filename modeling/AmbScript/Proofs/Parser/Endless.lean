import AmbScript.Parser.Basic

/-!
# Rules without bounds

The loops of the parser take a bounded number of rounds, so that they are recursions that end. Here
are the same rules with loops that go on as long as their tests let them. A rule of this kind may
have no outcome at all: neither a result nor a failure, but a loop that never ends.

* `Endless` — rules that may go on for ever.
* `Endless.statementRound` — a round of the loop over statements.
* `Endless.grammar`, `Endless.program` — the rules of all depths, and the rule for a whole program.
* `Endless.parseTokens` — the program that tokens make up, if reading them ends.
-/

namespace AmbScript.Parser

/-- A result or a failure, with the state behind it, or nothing if the rule does not end. -/
abbrev Endless : Type → Type := OptionT (StateT State Option)

namespace Endless

variable {α : Type}

/-- A rule without loops. -/
def once (x : Parser α) : Endless α := fun s => some (x s)

instance : MonadLift Parser Endless := ⟨once⟩

def fail : Endless α := once Parser.fail

def attempt (u : Endless α) : Endless (Option α) := fun s =>
  (u s).map fun y => (some y.1, y.2)

/-- The rules of one depth that the rules around them use. -/
structure Level where
  expression : Endless Expr
  statements : Placement → Endless (List Stmt)

def Level.refused : Level := ⟨once refuse, fun _ => once refuse⟩

-- ---------------------------------------------------------------------------
-- Blocks and functions
-- ---------------------------------------------------------------------------

def block (inner : Level) (placement : Placement) : Endless Block := do
  let start ← currentSpan
  expect .openBrace
  let statements ← inner.statements placement
  expect .closeBrace
  return .mk statements (start.merge (← previousSpan))

/-- The names of parameters, each of them read by `binding`. -/
def paramLoop (binding : Endless Ident) (done : List Ident) : Endless (List Ident) := do
  let param ← binding
  if done.any (·.name == param.name) then
    let name := param.name
    reportAt .variableRedeclaration s!"duplicate parameter name '{name}'" param.span
  if ← eat .comma then binding |>.paramLoop (param :: done)
  else return (param :: done).reverse
partial_fixpoint

def paramList : Endless (List Ident) := do
  if ← check .closeParen then return []
  paramLoop bindingName []

def functionRest (inner : Level) (name : Option Ident) (start : Span) : Endless Function := do
  expect .openParen
  let params ← paramList
  expect .closeParen
  let body ← block inner .function
  return .mk name params body (start.merge (← previousSpan))

-- ---------------------------------------------------------------------------
-- Expressions
-- ---------------------------------------------------------------------------

def Level.commaLoop (inner : Level) (close : Symbol) (done : List Expr) : Endless (List Expr) := do
  if ← check close then return done.reverse
  let item ← inner.expression
  if ← eat .comma then inner |>.commaLoop close (item :: done)
  else return (item :: done).reverse
partial_fixpoint

def commaList (inner : Level) (close : Symbol) : Endless (List Expr) := do
  let items ← inner.commaLoop close []
  expect close
  return items

def primary (inner : Level) : Endless Expr := do
  let token ← look (·.current)
  let start := token.span
  match atom? token with
  | some e =>
    let _ ← advance
    return e
  | none =>
    if ← eat .openBracket then
      let items ← commaList inner .closeBracket
      return .array items (start.merge (← previousSpan))
    else if ← eat .openParen then
      let e ← inner.expression
      expect .closeParen
      return e
    else if ← eat .function then
      let name ← functionName?
      return .function (← functionRest inner name start)
    else if ← check .cut then
      report .misplacedCut "'cut' can only be used as a statement"
      fail
    else
      let got := token.kind.render
      report .unexpectedToken s!"expected expression, got '{got}'"
      fail

def Level.postfixLoop (inner : Level) (e : Expr) : Endless Expr := do
  if ← eat .openParen then
    let args ← commaList inner .closeParen
    inner |>.postfixLoop (.call e args (e.span.merge (← previousSpan)))
  else if ← eat .openBracket then
    let key ← inner.expression
    expect .closeBracket
    inner |>.postfixLoop (.index e key (e.span.merge (← previousSpan)))
  else if ← eat .dot then
    let name ← identifier
    inner |>.postfixLoop (.member e name (e.span.merge name.span))
  else return e
partial_fixpoint

def operation (inner : Level) : Endless Expr := do
  inner.postfixLoop (← primary inner)

/-- The unary operators before an operand, each of them read by `next`. -/
def unaryOps (next : Endless Token) (done : List (UnaryOp × Span)) :
    Endless (List (UnaryOp × Span)) := do
  match unaryOp? (← currentKind) with
  | some op => next |>.unaryOps ((op, (← next).span) :: done)
  | none => return done
partial_fixpoint

def unary (inner : Level) : Endless Expr := do
  let ops ← unaryOps advance []
  let e ← operation inner
  return ops.foldl applyUnary e

mutual

/-- Operands joined by the operators that bind at least as tightly as `least`. -/
def climb (operand : Endless Expr) (least : Nat) : Endless Expr := do
  let left ← operand
  operand |>.climbLoop least left
partial_fixpoint

/-- The operators behind `left` that reach the threshold, each with its right operand. -/
def climbLoop (operand : Endless Expr) (least : Nat) (left : Expr) : Endless Expr := do
  match InfixOp.ofKind? (← currentKind) with
  | some (op, precedence) =>
    if precedence < least then return left
    else
      let _ ← advance
      let right ← operand |>.climb (precedence + 1)
      operand |>.climbLoop least (op.apply left right)
  | none => return left
partial_fixpoint

end

def binary (inner : Level) (least : Nat) : Endless Expr := climb (unary inner) least

def conditional (inner : Level) : Endless Expr := do
  let test ← binary inner 0
  if ← eat .question then
    let consequent ← inner.expression
    expect .colon
    let alternate ← inner.expression
    return .conditional test consequent alternate (test.span.merge alternate.span)
  else return test

def arrowParams : Endless (List Ident) := do
  if ← eat .openParen then
    let params ← paramList
    expect .closeParen
    return params
  else return [← bindingName]

def arrowBody (inner : Level) : Endless Block := do
  if ← check .openBrace then block inner .function
  else
    let e ← inner.expression
    return .mk [.returns e e.span] e.span

def arrowFunction (inner : Level) : Endless Expr := do
  let start ← currentSpan
  let params ← arrowParams
  expect .arrow
  let body ← arrowBody inner
  return .function (.mk none params body (start.merge (← previousSpan)))

def assignment (inner : Level) : Endless Expr := do
  if ← look State.atArrow then arrowFunction inner
  else
    let target ← conditional inner
    if ← eat .assign then
      match target.ident? with
      | some name =>
        let value ← inner.expression
        return .assign name value (target.span.merge value.span)
      | none =>
        reportAt .invalidAssignmentTarget
          "invalid assignment target; only variables can be assigned" target.span
        fail
    else return target

-- ---------------------------------------------------------------------------
-- Statements
-- ---------------------------------------------------------------------------

def declarationRest (inner : Level) : Endless (Ident × Expr) := do
  let name ← bindingName
  if ← eat .assign then return (name, ← inner.expression)
  else
    let name := name.name
    report .unexpectedToken s!"missing initializer in declaration of '{name}'"
    fail

def declaration (inner : Level) : Endless (Bool × Ident × Expr × Span) := do
  let keyword ← advance
  let (name, init) ← declarationRest inner
  let span := keyword.span.merge (← previousSpan)
  semicolon
  return (keyword.kind.is .constDecl, name, init, span)

def variableDeclaration (inner : Level) : Endless Stmt := do
  let (isConst, name, init, span) ← declaration inner
  return .declare isConst name init span

def functionDeclaration (inner : Level) : Endless Stmt := do
  let start := (← advance).span
  let name ← bindingName
  return .function (← functionRest inner (some name) start)

def returnStatement (inner : Level) (placement : Placement) : Endless Stmt := do
  let start := (← advance).span
  if !placement.inFunction then
    reportAt .returnOutsideFunction "'return' outside of a function body" start
  let bare := (← check .semicolon) || (← check .closeBrace) || (← atEnd) ||
    (← currentSpan).start.line > start.stop.line
  let value ← if bare then pure (.undefined start) else inner.expression
  let span := start.merge (← previousSpan)
  semicolon
  return .returns value span

def condition (inner : Level) : Endless Expr := do
  expect .openParen
  let test ← inner.expression
  expect .closeParen
  return test

def Level.branchLoop (inner : Level) (placement : Placement) : Endless Branch := do
  let start := (← advance).span
  let test ← condition inner
  let consequent ← block inner placement
  let alternate ← if ← eat .elseBranch then
      if ← check .ifBranch then pure (.branch (← inner |>.branchLoop placement))
      else pure (.block (← block inner placement))
    else pure Alternate.absent
  return .mk test consequent alternate (start.merge (← previousSpan))
partial_fixpoint

def branchStatement (inner : Level) (placement : Placement) : Endless Stmt := do
  return .branch (← inner.branchLoop placement)

def whileStatement (inner : Level) (placement : Placement) : Endless Stmt := do
  let start := (← advance).span
  let test ← condition inner
  let body ← block inner placement.loop
  return .whileLoop test body (start.merge (← previousSpan))

def loopInit (inner : Level) : Endless (Option LoopInit) := do
  if ← eat .semicolon then return none
  else if ← check .letDecl then
    let (_, name, init, span) ← declaration inner
    return some (.declare name init span)
  else if ← check .constDecl then
    report .unexpectedToken "loop variables must be declared with 'let'"
    fail
  else
    let e ← inner.expression
    expect .semicolon
    return some (.expr e)

def optionalExpression (inner : Level) (close : Symbol) : Endless (Option Expr) := do
  let e ← if ← check close then pure none else some <$> inner.expression
  expect close
  return e

def forStatement (inner : Level) (placement : Placement) : Endless Stmt := do
  let start := (← advance).span
  expect .openParen
  let init ← loopInit inner
  let test ← optionalExpression inner .semicolon
  let update ← optionalExpression inner .closeParen
  let body ← block inner placement.loop
  return .forLoop init test update body (start.merge (← previousSpan))

def blockStatement (inner : Level) (placement : Placement) : Endless Stmt := do
  return .block (← block inner placement)

def expressionStatement (inner : Level) : Endless Stmt := do
  let e ← inner.expression
  semicolon
  return .expr e

def statement (inner : Level) (placement : Placement) : Endless Stmt := do
  match ← currentKind with
  | .symbol .letDecl => variableDeclaration inner
  | .symbol .constDecl => variableDeclaration inner
  | .symbol .function =>
    if ← nextIsName then functionDeclaration inner else expressionStatement inner
  | .symbol .returns => returnStatement inner placement
  | .symbol .ifBranch => branchStatement inner placement
  | .symbol .whileLoop => whileStatement inner placement
  | .symbol .forLoop => forStatement inner placement
  | .symbol .breakLoop => jumpStatement placement
  | .symbol .continueLoop => jumpStatement placement
  | .symbol .cut => cutStatement
  | .symbol .openBrace => blockStatement inner placement
  | _ => expressionStatement inner

/-- Skips to where a statement may start; the tokens before it are read by `next`. -/
def skip (next : Endless Token) : Endless Unit := do
  if isBoundary (← currentKind) then return
  if ← eat .semicolon then return
  let _ ← next
  next |>.skip
partial_fixpoint

def synchronize : Endless Unit := skip advance

/-- A round of the loop over statements: a stray semicolon, a statement, or one that fails and is
skipped. -/
def statementRound (inner : Level) (placement : Placement) : Endless (Option Stmt) := do
  if ← eat .semicolon then return none
  else
    match ← attempt (statement inner placement) with
    | some s => return some s
    | none =>
      synchronize
      return none

def Level.statementLoop (inner : Level) (placement : Placement) (done : List Stmt) :
    Endless (List Stmt) := do
  if (← check .closeBrace) || (← atEnd) || (← logIsFull) then return done.reverse
  let read ← statementRound inner placement
  inner |>.statementLoop placement (read.elim done (· :: done))
partial_fixpoint

def statements (inner : Level) (placement : Placement) : Endless (List Stmt) :=
  inner.statementLoop placement []

-- ---------------------------------------------------------------------------
-- Programs
-- ---------------------------------------------------------------------------

def grammar : Nat → Level
  | 0 => .refused
  | n + 1 =>
    let inner := grammar n
    ⟨assignment inner, statements inner⟩

def outermost : Level := grammar maxNestingDepth

/-- The statements that `block` reads, and closing braces that close nothing. -/
def programLoop (block : Endless (List Stmt)) (done : List Stmt) : Endless (List Stmt) := do
  let done := done ++ (← block)
  if !(← check .closeBrace) || (← logIsFull) then return done
  report .unexpectedToken "unmatched '\x7d'"
  let _ ← advance
  block |>.programLoop done
partial_fixpoint

def program : Endless Program := do
  let start ← currentSpan
  let statements ← programLoop (statements outermost .program) []
  let previous ← previousSpan
  let span := if statements.isEmpty then start else start.merge previous
  return ⟨.mk statements span, span⟩

/-- The program that tokens make up, if reading them ends. -/
def parseTokens (source : Source) (tokens : List Token) : Option Parsed :=
  (program (.ofTokens source tokens)).map fun y =>
    ⟨if y.2.log.hasErrors then none else y.1, y.2.log⟩

end Endless

end AmbScript.Parser
