import AmbScript.Parser.Statement
import AmbScript.Token.Lexer

/-!
# From text to programs

The rules tied together over all depths, and the rule for a whole program.

* `parse` gives the program of a text or, where there is none, the log of its faults.
-/

namespace AmbScript

namespace Parser

/-- The rules with room for `n` more levels of nesting. -/
def grammar : Nat → Level
  | 0 => .refused
  | n + 1 =>
    let inner := grammar n
    ⟨assignment inner, statements inner⟩

/-- The rules that a program starts with. -/
def outermost : Level := grammar maxNestingDepth

/-- Statements, and closing braces that close nothing. -/
def programLoop : Nat → List Stmt → Parser (List Stmt)
  | 0, done => return done
  | fuel + 1, done => do
    let done := done ++ (← statements outermost .program)
    if !(← check .closeBrace) || (← logIsFull) then return done
    report .unexpectedToken "unmatched '\x7d'"
    let _ ← advance
    programLoop fuel done

def program : Parser Program := do
  let start ← currentSpan
  let statements ← programLoop (← rounds) []
  let previous ← previousSpan
  let span := if statements.isEmpty then start else start.merge previous
  return ⟨.mk statements span, span⟩

end Parser

/-- The outcome of reading a program: there is one only if nothing was reported. -/
structure Parsed where
  program : Option Program
  log : DiagnosticLog

/-- The program that tokens make up. -/
def parseTokens (source : Source) (tokens : List Token) : Parsed :=
  let (program, s) := Parser.program (.ofTokens source tokens)
  ⟨if s.log.hasErrors then none else program, s.log⟩

/-- The program of a text. Faults in its tokens stop the reading before the first rule. -/
def parse (source : Source) : Parsed :=
  let lexed := Lexer.run source
  if lexed.log.hasErrors then ⟨none, lexed.log⟩ else parseTokens source lexed.tokens

end AmbScript
