import AmbScript.Source.Text

/-!
# Diagnostics

What a reader of a program is told about a fault in it, by the parser or by an aborted run: a
numbered code, the place, the quoted line and up to three texts.
-/

namespace AmbScript

/-- What kind of rule a diagnostic reports. -/
inductive Category
  | grammar | binding | call | type | host | control
deriving DecidableEq, Inhabited

namespace Category

def name : Category → String
  | grammar => "syntax"
  | binding => "binding"
  | call => "call"
  | type => "type"
  | host => "host"
  | control => "control"

def all : List Category := [grammar, binding, call, type, host, control]

/-- The category of that name. -/
def ofName? (s : String) : Option Category := all.find? (·.name == s)

end Category

/-- The number of a diagnostic. -/
structure Code where
  number : Nat
deriving DecidableEq, Inhabited

namespace Code

def unexpectedToken : Code := ⟨100⟩
def unclosedDelimiter : Code := ⟨101⟩
def invalidAssignmentTarget : Code := ⟨102⟩
def misplacedCut : Code := ⟨103⟩
def returnOutsideFunction : Code := ⟨104⟩
def jumpOutsideLoop : Code := ⟨105⟩
def reservedName : Code := ⟨106⟩
def unsupportedOperator : Code := ⟨107⟩
def nestingLimit : Code := ⟨108⟩

def variableRedeclaration : Code := ⟨200⟩
def unassignedVariable : Code := ⟨201⟩
def undefinedVariable : Code := ⟨202⟩
def constAssignment : Code := ⟨203⟩

def invalidNumberOfArguments : Code := ⟨300⟩
def callingNonFunction : Code := ⟨301⟩

def typeMismatch : Code := ⟨400⟩
def nonBooleanCondition : Code := ⟨401⟩
def illegalMemberAccess : Code := ⟨402⟩
def indexOutOfRange : Code := ⟨403⟩

def exception : Code := ⟨500⟩

def interrupted : Code := ⟨600⟩
def stepBudgetExceeded : Code := ⟨601⟩
def execTimeExceeded : Code := ⟨602⟩

/-- The hundreds of a code name its category; what has no category of its own is the host's. -/
def category (c : Code) : Category :=
  match c.number / 100 with
  | 1 => .grammar
  | 2 => .binding
  | 3 => .call
  | 4 => .type
  | 6 => .control
  | _ => .host

def render (c : Code) : String := s!"E{c.number}"

end Code

/-- One fault. The message fits on a line; the elaboration is the longer text of verbose
listings. -/
structure Diagnostic where
  file : String
  code : Code
  category : Category
  message : String
  elaboration : Option String
  span : Span
  sourceLine : String
  suggestion : Option String
deriving DecidableEq, Inhabited

namespace Diagnostic

/-- A fault at `span`, in the category of its code. -/
def new (file : String) (code : Code) (message : String) (span : Span) (sourceLine : String) :
    Diagnostic where
  file := file
  code := code
  category := code.category
  message := message
  elaboration := none
  span := span
  sourceLine := sourceLine
  suggestion := none

/-- A fault at `span` of `source`, quoting the line where it starts. -/
def quoting (source : Source) (code : Code) (message : String) (span : Span) : Diagnostic :=
  new source.name code message span (source.quote span.start.line)

def withSuggestion (d : Diagnostic) (text : String) : Diagnostic :=
  { d with suggestion := some text }

def withElaboration (d : Diagnostic) (text : String) : Diagnostic :=
  { d with elaboration := some text }

/-- The longest text there is: without an elaboration the suggestion, without that the message. -/
def elaborate (d : Diagnostic) : String :=
  (d.elaboration <|> d.suggestion).getD d.message

/-- A line or column as listings show it. -/
def place (n : Nat) : String :=
  if n = 0 then "<unknown>" else toString n

/-- The listing of one fault: where and what, and in verbose form the elaboration below. -/
def listing (d : Diagnostic) (verbose : Bool) : String :=
  let line := place d.span.start.line
  let column := place d.span.start.column
  let message := d.message
  let elaboration := d.elaborate
  if verbose then s!"Line {line}, Column {column}: {message}\n{elaboration}\n"
  else s!"Line {line}: {message}"

/-- The one-line form with code and category. -/
def render (d : Diagnostic) : String :=
  let span := d.span.render
  let code := d.code.render
  let category := d.category.name
  let message := d.message
  s!"{span}: {code} [{category}] {message}"

/-- The listings of several faults, a line feed between two of them. -/
def listAll (ds : List Diagnostic) (verbose : Bool) : String :=
  "\n".intercalate (ds.map (·.listing verbose))

end Diagnostic

/-- The most diagnostics that a log keeps. -/
def maxErrors : Nat := 20

/-- The faults of one parse: all are counted, the first `maxErrors` are kept. -/
structure DiagnosticLog where
  kept : List Diagnostic
  total : Nat
deriving DecidableEq, Inhabited

namespace DiagnosticLog

def empty : DiagnosticLog := ⟨[], 0⟩

def push (log : DiagnosticLog) (d : Diagnostic) : DiagnosticLog where
  kept := if log.kept.length < maxErrors then log.kept ++ [d] else log.kept
  total := log.total + 1

def ofList (ds : List Diagnostic) : DiagnosticLog := ds.foldl push empty

def hasErrors (log : DiagnosticLog) : Bool := log.total > 0

/-- No more is worth reporting. -/
def isFull (log : DiagnosticLog) : Bool := log.total ≥ maxErrors

def listing (log : DiagnosticLog) (verbose : Bool) : String :=
  Diagnostic.listAll log.kept verbose

end DiagnosticLog

end AmbScript
