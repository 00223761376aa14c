import AmbScript.Diagnostic.Basic
import AmbScript.Decimal.Text

/-!
# Faults of running programs

The causes that end a run, and their wording as diagnostics.

* `Fault.toDiagnostic` is the diagnostic of a fault in a text.
-/

namespace AmbScript

/-- Why a primitive could not answer. -/
inductive HostFault
  /-- The program raised it itself. -/
  | raised (message : String)
  | badArgument (function : String) (position : Nat) (expected got : String)
deriving DecidableEq, Inhabited

namespace HostFault

def message : HostFault → String
  | raised message => s!"Error: {message}"
  | badArgument function position expected got =>
    s!"{function} expects {expected} as argument {position}, but encountered {got}"

end HostFault

/-- Why a run ended, and where. -/
inductive Fault
  | variableRedeclaration (name : String) (span : Span)
  /-- The name is declared, but its declaration has not been evaluated yet. -/
  | unassignedVariable (name : String) (span : Span)
  | undefinedVariable (name : String) (span : Span)
  | constAssignment (name : String) (span : Span)
  | invalidNumberOfArguments (callee expected : String) (got : Nat) (span : Span)
  | callingNonFunction (callee : String) (span : Span)
  /-- The context is empty or a phrase that starts with a space. -/
  | typeMismatch (expected context got : String) (span : Span)
  | nonBooleanCondition (got : String) (span : Span)
  | illegalMemberAccess (property object : String) (span : Span)
  | indexOutOfRange (index : Float) (object : String) (length : Nat) (span : Span)
  | exception (function : String) (error : HostFault) (span : Span)
  | interrupted (span : Span)
  | stepBudgetExceeded (budget : Nat) (span : Span)
  | execTimeExceeded (limitMs : Nat) (span : Span)
deriving Inhabited

namespace Fault

def code : Fault → Code
  | variableRedeclaration .. => .variableRedeclaration
  | unassignedVariable .. => .unassignedVariable
  | undefinedVariable .. => .undefinedVariable
  | constAssignment .. => .constAssignment
  | invalidNumberOfArguments .. => .invalidNumberOfArguments
  | callingNonFunction .. => .callingNonFunction
  | typeMismatch .. => .typeMismatch
  | nonBooleanCondition .. => .nonBooleanCondition
  | illegalMemberAccess .. => .illegalMemberAccess
  | indexOutOfRange .. => .indexOutOfRange
  | exception .. => .exception
  | interrupted .. => .interrupted
  | stepBudgetExceeded .. => .stepBudgetExceeded
  | execTimeExceeded .. => .execTimeExceeded

def span : Fault → Span
  | variableRedeclaration _ s | unassignedVariable _ s | undefinedVariable _ s => s
  | constAssignment _ s | invalidNumberOfArguments _ _ _ s | callingNonFunction _ s => s
  | typeMismatch _ _ _ s | nonBooleanCondition _ s | illegalMemberAccess _ _ s => s
  | indexOutOfRange _ _ _ s | exception _ _ s | interrupted s => s
  | stepBudgetExceeded _ s | execTimeExceeded _ s => s

/-- An index in a message shows its sign even at zero. -/
def indexStyle : Decimal.Style := ⟨"inf", "NaN", true, false⟩

def message : Fault → String
  | variableRedeclaration name _ => s!"Redeclaring name {name}."
  | unassignedVariable name _ => s!"Name {name} declared later in current scope."
  | undefinedVariable name _ => s!"Name {name} not declared."
  | constAssignment name _ => s!"Cannot assign new value to constant {name}."
  | invalidNumberOfArguments _ expected got _ =>
    s!"Expected {expected} arguments, but got {got}."
  | callingNonFunction callee _ => s!"Calling non-function value {callee}."
  | typeMismatch expected context got _ => s!"Expected {expected}{context}, got {got}."
  | nonBooleanCondition got _ => s!"Expected boolean as condition, got {got}."
  | illegalMemberAccess property object _ => s!"Cannot read property {property} of {object}."
  | indexOutOfRange index object length _ =>
    let index := Decimal.text indexStyle index
    s!"Index {index} is out of range for {object} of length {length}."
  | exception _ error _ => error.message
  | interrupted _ => "Execution aborted by user."
  | stepBudgetExceeded budget _ => s!"Step budget of {budget} exceeded."
  | execTimeExceeded limitMs _ => s!"Time limit of {limitMs}ms exceeded."

/-- The longer explanation, where there is more to say. -/
def elaboration : Fault → Option String
  | variableRedeclaration name _ =>
    some s!"{name} has already been declared in this scope. Pick a different name."
  | unassignedVariable name _ =>
    some s!"You can only use {name} after its declaration has been evaluated."
  | undefinedVariable name _ =>
    some (s!"Before you can read the value of {name}, you need to declare it as a variable or " ++
      "a constant. You can do this using the let or const keywords.")
  | constAssignment name _ =>
    some (s!"You cannot assign new values to constants. Declare {name} with let if it needs " ++
      "to change.")
  | invalidNumberOfArguments callee expected _ _ =>
    some s!"Try calling function {callee} again, but with {expected} arguments instead."
  | callingNonFunction callee _ =>
    some s!"Because {callee} is not a function, you cannot call it."
  | exception function _ _ => some s!"Raised while running {function}."
  | stepBudgetExceeded .. | execTimeExceeded .. =>
    some "This may be an infinite loop or an unbounded search."
  | _ => none

/-- The diagnostic of a fault, against the text that it is taken to be in. -/
def toDiagnostic (f : Fault) (source : Source) : Diagnostic :=
  { Diagnostic.quoting source f.code f.message f.span with elaboration := f.elaboration }

end Fault

end AmbScript
