import AmbScript.Parser.Expression

/-!
# Rules for statements

A statement that fails is skipped up to the next place where one may start, so that several
faults are found at once.

* `statements` reads up to a closing brace and never fails.
-/

namespace AmbScript.Parser

/-! ## Declarations -/

/-- What a declaration declares, behind its keyword. -/
def declarationRest (inner : Level) : Parser (Ident × Expr) := do
  let name ← bindingName
  if ← eat .assign then return (name, ← inner.expression)
  else
    let name := name.name
    report .unexpectedToken s!"missing initializer in declaration of '{name}'"
    fail

/-- `let name = init;` or `const name = init;` -/
def declaration (inner : Level) : Parser (Bool × Ident × Expr × Span) := do
  let keyword ← advance
  let (name, init) ← declarationRest inner
  let span := keyword.span.merge (← previousSpan)
  semicolon
  return (keyword.kind.is .constDecl, name, init, span)

def variableDeclaration (inner : Level) : Parser Stmt := do
  let (isConst, name, init, span) ← declaration inner
  return .declare isConst name init span

def functionDeclaration (inner : Level) : Parser Stmt := do
  let start := (← advance).span
  let name ← bindingName
  return .function (← functionRest inner (some name) start)

/-! ## Jumps -/

def returnStatement (inner : Level) (placement : Placement) : Parser Stmt := do
  let start := (← advance).span
  -- a misplaced statement is reported and read all the same
  if !placement.inFunction then
    reportAt .returnOutsideFunction "'return' outside of a function body" start
  -- what stands on the next line is not returned
  let bare := (← check .semicolon) || (← check .closeBrace) || (← atEnd) ||
    (← currentSpan).start.line > start.stop.line
  let value ← if bare then pure (.undefined start) else inner.expression
  let span := start.merge (← previousSpan)
  semicolon
  return .returns value span

/-- `break;` or `continue;` -/
def jumpStatement (placement : Placement) : Parser Stmt := do
  let token ← advance
  if !placement.inLoop then
    let keyword := token.kind.render
    reportAt .jumpOutsideLoop s!"'{keyword}' outside of a loop" token.span
  semicolon
  return if token.kind.is .breakLoop then .breakLoop token.span else .continueLoop token.span

def cutStatement : Parser Stmt := do
  let span := (← advance).span
  semicolon
  return .cut span

/-! ## Branches and loops -/

/-- The test between parentheses. -/
def condition (inner : Level) : Parser Expr := do
  expect .openParen
  let test ← inner.expression
  expect .closeParen
  return test

/-- A branch and the branches behind its `else if`s. -/
def branchLoop (inner : Level) (placement : Placement) : Nat → Parser Branch
  | 0 => fail
  | fuel + 1 => do
    let start := (← advance).span
    let test ← condition inner
    let consequent ← block inner placement
    let alternate ← if ← eat .elseBranch then
        -- an `else if` does not count as nesting
        if ← check .ifBranch then pure (.branch (← branchLoop inner placement fuel))
        else pure (.block (← block inner placement))
      else pure Alternate.absent
    return .mk test consequent alternate (start.merge (← previousSpan))

def branchStatement (inner : Level) (placement : Placement) : Parser Stmt := do
  return .branch (← branchLoop inner placement (← rounds))

def whileStatement (inner : Level) (placement : Placement) : Parser Stmt := do
  let start := (← advance).span
  let test ← condition inner
  let body ← block inner placement.loop
  return .whileLoop test body (start.merge (← previousSpan))

/-- The first part of a `for` header and the semicolon behind it. -/
def loopInit (inner : Level) : Parser (Option LoopInit) := do
  if ← eat .semicolon then return none
  else if ← check .letDecl then
    -- the declaration ends in a semicolon of its own, or where one may be left out
    let (_, name, init, span) ← declaration inner
    return some (.declare name init span)
  else if ← check .constDecl then
    report .unexpectedToken "loop variables must be declared with 'let'"
    fail
  else
    let e ← inner.expression
    expect .semicolon
    return some (.expr e)

/-- An expression that may be missing before `close`. -/
def optionalExpression (inner : Level) (close : Symbol) : Parser (Option Expr) := do
  let e ← if ← check close then pure none else some <$> inner.expression
  expect close
  return e

def forStatement (inner : Level) (placement : Placement) : Parser Stmt := do
  let start := (← advance).span
  expect .openParen
  let init ← loopInit inner
  let test ← optionalExpression inner .semicolon
  let update ← optionalExpression inner .closeParen
  let body ← block inner placement.loop
  return .forLoop init test update body (start.merge (← previousSpan))

/-! ## Statements -/

def blockStatement (inner : Level) (placement : Placement) : Parser Stmt := do
  return .block (← block inner placement)

def expressionStatement (inner : Level) : Parser Stmt := do
  let e ← inner.expression
  semicolon
  return .expr e

def statement (inner : Level) (placement : Placement) : Parser Stmt := do
  match ← currentKind with
  | .symbol .letDecl => variableDeclaration inner
  | .symbol .constDecl => variableDeclaration inner
  | .symbol .function =>
    -- without a name it is a function expression that starts the statement
    if ← nextIsName then functionDeclaration inner else expressionStatement inner
  | .symbol .returns => returnStatement inner placement
  | .symbol .ifBranch => branchStatement inner placement
  | .symbol .whileLoop => whileStatement inner placement
  | .symbol .forLoop => forStatement inner placement
  | .symbol .breakLoop => jumpStatement placement
  | .symbol .continueLoop => jumpStatement placement
  | .symbol .cut => cutStatement
  | .symbol .openBrace => blockStatement inner placement
  | _ => expressionStatement inner

def statementLoop (inner : Level) (placement : Placement) : Nat → List Stmt → Parser (List Stmt)
  | 0, done => return done.reverse
  | fuel + 1, done => do
    -- a full log stops the reading of every block around, too
    if (← check .closeBrace) || (← atEnd) || (← logIsFull) then return done.reverse
    if ← eat .semicolon then statementLoop inner placement fuel done
    else
      match ← attempt (statement inner placement) with
      | some s => statementLoop inner placement fuel (s :: done)
      | none =>
        -- the fault has been reported: on with the next statement
        synchronize
        statementLoop inner placement fuel done

/-- Statements up to a closing brace, the end of the text or a full log. Stray semicolons are
skipped. -/
def statements (inner : Level) (placement : Placement) : Parser (List Stmt) := do
  statementLoop inner placement (← rounds) []

end AmbScript.Parser
