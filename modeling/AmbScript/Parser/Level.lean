import AmbScript.Parser.State

/-!
# Nesting

Every expression and every block may hold others, down to a limit. What the rules of one depth
use of the next depth is a `Level`; the rules are functions on it, so nesting is recursion on the
depth that is left.
-/

namespace AmbScript.Parser

/-- The deepest nesting of expressions and blocks. -/
def maxNestingDepth : Nat := 100

/-- What the place of a statement allows. -/
structure Placement where
  inFunction : Bool
  /-- Inside a loop of the innermost function. -/
  inLoop : Bool
deriving DecidableEq, Inhabited

namespace Placement

/-- Directly in a program. -/
def program : Placement := ⟨false, false⟩

/-- Directly in a function body. -/
def function : Placement := ⟨true, false⟩

/-- Directly in a loop body. -/
def loop (p : Placement) : Placement := { p with inLoop := true }

end Placement

/-- The rules of one depth that the rules around them use. -/
structure Level where
  expression : Parser Expr
  /-- The statements of a block, up to its closing brace. -/
  statements : Placement → Parser (List Stmt)

/-- Reports that the limit is reached. -/
def refuse {α : Type} : Parser α := do
  report .nestingLimit s!"maximum nesting depth is {maxNestingDepth}"
  fail

/-- The level below the last one that may be used. -/
def Level.refused : Level := ⟨refuse, fun _ => refuse⟩

/-- A block: statements between braces. -/
def block (inner : Level) (placement : Placement) : Parser Block := do
  let start ← currentSpan
  expect .openBrace
  let statements ← inner.statements placement
  expect .closeBrace
  return .mk statements (start.merge (← previousSpan))

/-! ## Functions -/

/-- The names of parameters, up to the closing parenthesis. -/
def paramLoop : Nat → List Ident → Parser (List Ident)
  | 0, done => return done.reverse
  | fuel + 1, done => do
    let param ← bindingName
    if done.any (·.name == param.name) then
      -- kept in the list although it is reported
      let name := param.name
      reportAt .variableRedeclaration s!"duplicate parameter name '{name}'" param.span
    if ← eat .comma then paramLoop fuel (param :: done)
    else return (param :: done).reverse

def paramList : Parser (List Ident) := do
  if ← check .closeParen then return []
  paramLoop (← rounds) []

def functionBody (inner : Level) : Parser Block := block inner .function

/-- A function from its parameters on. -/
def functionRest (inner : Level) (name : Option Ident) (start : Span) : Parser Function := do
  expect .openParen
  let params ← paramList
  expect .closeParen
  let body ← functionBody inner
  return .mk name params body (start.merge (← previousSpan))

end AmbScript.Parser
