import AmbScript.Diagnostic.Basic
import AmbScript.Program.Basic
import AmbScript.Token.Basic

/-!
# Parsers

A parser reads tokens and either gives a result or fails; both ways it leaves behind what it has
read and reported. This module has the steps that all rules are made of.

* `Parser.advance` is the only step that reads a token; it never goes past the end of the text.
* `Parser.reportAt` is the only step that reports.
-/

namespace AmbScript

namespace Parser

/-- Where a parser stands. -/
structure State where
  /-- The text that diagnostics quote. -/
  source : Source
  current : Token
  ahead : List Token
  /-- The place of the token before the current one. -/
  previous : Span
  log : DiagnosticLog
  /-- No loop over the tokens of the text takes more rounds. -/
  rounds : Nat

/-- At the first of `tokens`. Where they lack the end of the text, it has the last one's place. -/
def State.ofTokens (source : Source) (tokens : List Token) : State where
  source := source
  current := tokens.headD (.eof (.point ⟨1, 1⟩))
  ahead := tokens.drop 1
  previous := .point ⟨1, 1⟩
  log := .empty
  rounds := tokens.length + maxErrors + 2

end Parser

/-- A result or a failure, and where that leaves the reading. -/
def Parser (α : Type) : Type := Parser.State → Option α × Parser.State

namespace Parser

variable {α β : Type}

protected def pure (a : α) : Parser α := fun s => (some a, s)

protected def bind (p : Parser α) (f : α → Parser β) : Parser β := fun s =>
  match p s with
  | (some a, s) => f a s
  | (none, s) => (none, s)

instance : Monad Parser where
  pure := Parser.pure
  bind := Parser.bind

theorem bind_of_some {x : Parser α} {f : α → Parser β} {s t : State} {a : α}
    (h : x s = (some a, t)) : (x >>= f) s = f a t := by
  show Parser.bind x f s = f a t
  rw [Parser.bind, h]

theorem bind_of_none {x : Parser α} {f : α → Parser β} {s t : State} (h : x s = (none, t)) :
    (x >>= f) s = (none, t) := by
  show Parser.bind x f s = (none, t)
  rw [Parser.bind, h]

/-- No result. -/
def fail : Parser α := fun s => (none, s)

/-- Whether or not `p` fails, goes on with its result. -/
def attempt (p : Parser α) : Parser (Option α) := fun s =>
  let (result, s) := p s
  (some result, s)

/-- What `f` sees of the state. -/
def look (f : State → α) : Parser α := fun s => (some (f s), s)

/-! ## Reading -/

def currentKind : Parser Token.Kind := look (·.current.kind)

def currentSpan : Parser Span := look (·.current.span)

def previousSpan : Parser Span := look (·.previous)

def rounds : Parser Nat := look (·.rounds)

/-- The current token is this keyword or mark. -/
def check (x : Symbol) : Parser Bool := look (·.current.kind.is x)

def atEnd : Parser Bool := check .eof

/-- The token behind the current one is a name. -/
def nextIsName : Parser Bool := look fun s => s.ahead.head?.any (·.kind.isName)

/-- One token further, except at the end. -/
def State.advanced (s : State) : State :=
  if s.current.kind.is .eof then s
  else
    match s.ahead with
    | [] => { s with current := .eof s.current.span, previous := s.current.span }
    | t :: ts => { s with current := t, ahead := ts, previous := s.current.span }

/-- Reads the current token. -/
def advance : Parser Token := fun s => (some s.current, s.advanced)

/-- Reads the current token if it is this keyword or mark. -/
def eat (x : Symbol) : Parser Bool := do
  if ← check x then
    let _ ← advance
    return true
  else return false

/-! ## Reporting -/

def reportAt (code : Code) (message : String) (span : Span) : Parser Unit := fun s =>
  (some (), { s with log := s.log.push (.quoting s.source code message span) })

/-- Reports the current token. -/
def report (code : Code) (message : String) : Parser Unit := do
  reportAt code message (← currentSpan)

def logIsFull : Parser Bool := look (·.log.isFull)

/-! ## Expectations -/

/-- Reads this keyword or mark. To meet the end of the text instead means that something was left
open. -/
def expect (x : Symbol) : Parser Unit := do
  if ← eat x then return
  let code := if ← atEnd then Code.unclosedDelimiter else .unexpectedToken
  let expected := x.spelling
  let got := (← currentKind).render
  report code s!"expected '{expected}', got '{got}'"
  fail

/-- A semicolon may be left out before a closing brace, at the end of the text and at a line
break. Never fails. -/
def semicolon : Parser Unit := do
  let previous ← previousSpan
  let omitted := (← atEnd) || (← check .closeBrace) ||
    (← currentSpan).start.line > previous.stop.line
  if ← eat .semicolon then return
  if omitted then return
  let got := (← currentKind).render
  report .unexpectedToken s!"expected ';', got '{got}'"

def identifier : Parser Ident := do
  match (← currentKind).name? with
  | some name => return ⟨name, (← advance).span⟩
  | none =>
    let got := (← currentKind).render
    report .unexpectedToken s!"expected identifier, got '{got}'"
    fail

/-- The names that have a meaning of their own. -/
def reservedNames : List String := ["amb", "require", "cut"]

/-- The name of something that is declared here. A reserved one is reported; only the keyword
among them stops the rule. -/
def bindingName : Parser Ident := do
  let ident ← if ← check .cut then
      pure ⟨Symbol.cut.spelling, (← advance).span⟩
    else identifier
  if reservedNames.contains ident.name then
    let name := ident.name
    reportAt .reservedName s!"'{name}' is reserved and cannot be declared" ident.span
    if name = Symbol.cut.spelling then fail
  return ident

/-! ## Recovery -/

/-- The tokens that only start a statement or close a block. -/
def boundaries : List Symbol :=
  [.eof, .closeBrace, .function, .letDecl, .constDecl, .ifBranch, .whileLoop, .forLoop, .returns,
    .breakLoop, .continueLoop, .cut]

def isBoundary (k : Token.Kind) : Bool := boundaries.any k.is

def synchronizeLoop : Nat → Parser Unit
  | 0 => return
  | fuel + 1 => do
    if isBoundary (← currentKind) then return
    if ← eat .semicolon then return
    let _ ← advance
    synchronizeLoop fuel

/-- Skips to where a statement may start: just behind a semicolon or at a boundary. -/
def synchronize : Parser Unit := do
  synchronizeLoop (← rounds)

end Parser

end AmbScript
