import AmbScript.Fault
import AmbScript.Store.Basic

/-!
# Contexts

All that evaluation changes: the store, the frames in force, the output, and the count of steps
against the limits. Programs can be run one after the other on one context; its frames last.

* `Eval` is a computation on a context that may end in a fault.
* `Context.checkpoint` and `Context.restore` go back to an earlier moment.
-/

namespace AmbScript

/-- What a single driver step may take. -/
structure Limits where
  stepBudget : Option Nat
  timeLimitMs : Option Nat
deriving DecidableEq, Inhabited

namespace Limits

def unlimited : Limits := ⟨none, none⟩

end Limits

structure Context where
  store : Store
  /-- The frames in force that evaluation has entered, innermost first. -/
  inner : List FrameId
  /-- The frames in force that outlast a run, innermost first. -/
  outer : List FrameId
  nextCell : CellId
  /-- What ended the last run. -/
  errors : List Diagnostic
  /-- The lines that programs have displayed. -/
  output : Array String
  /-- Diagnostics are listed with their elaborations. -/
  verbose : Bool
  /-- The text that faults are taken to be in. -/
  source : Source
  /-- The run was given up; to resume it only tells so. -/
  aborted : Bool
  /-- The feature level that the context was made for. -/
  chapter : Nat
  /-- The library has not been run yet. -/
  preludePending : Bool
  /-- Evaluations of nodes since the driver step began. -/
  steps : Nat
  limits : Limits
  /-- The time limit has passed. Whoever runs the evaluation watches the clock. -/
  expired : Bool
  /-- A stop was asked for. -/
  interrupted : Bool
deriving Inhabited

/-- A computation on a context. -/
abbrev Eval (α : Type) := EStateM Fault Context α

namespace Context

/-! ## Frames -/

/-- The frame that names are looked up from. -/
def current (c : Context) : FrameId :=
  match c.inner with
  | f :: _ => f
  | [] => c.outer.headD 0

/-- The frames in force, innermost first. -/
def environments (c : Context) : List FrameId := c.inner ++ c.outer

def depth (c : Context) : Nat := c.inner.length + c.outer.length

def enter (c : Context) (frame : FrameId) : Context := { c with inner := frame :: c.inner }

def leave (c : Context) : Context := { c with inner := c.inner.tail }

/-- Leaves all frames that do not outlast the run. -/
def unwind (c : Context) : Context := { c with inner := [] }

/-- Enters a frame that outlasts the run. -/
def enterOuter (c : Context) (frame : FrameId) : Context :=
  { c with inner := [], outer := frame :: c.outer }

/-- Makes a frame around which `parent` is. -/
def newFrame (c : Context) (name : String) (parent : FrameId) (callSite : Option Span) : Context :=
  { c with store := c.store.newFrame name (some parent) callSite }

/-! ## Going back -/

end Context

/-- A moment that can be returned to. -/
structure Checkpoint where
  trailLength : Nat
  errorCount : Nat
  /-- How many frames had been entered. -/
  innerDepth : Nat
deriving DecidableEq, Inhabited

namespace Context

/-- The present moment. -/
def moment (c : Context) : Checkpoint := ⟨c.store.trail.size, c.errors.length, c.inner.length⟩

/-- Notes the present moment. -/
def checkpoint (c : Context) : Context := { c with store := c.store.mark }

/-- Goes back to a moment: bindings are as they were, and frames entered since are left. -/
def restore (c : Context) (m : Checkpoint) : Context :=
  { c with
    store := c.store.unwindTo m.trailLength
    errors := c.errors.take m.errorCount
    inner := c.inner.drop (c.inner.length - m.innerDepth) }

/-! ## Driver steps -/

/-- Starts to count against the limits. -/
def beginStep (c : Context) : Context := { c with steps := 0, expired := false }

/-- Asks for a stop; the next evaluation of a node sees it. -/
def signal (c : Context) : Context := { c with interrupted := true }

/-- Takes away the lines that were displayed so far, and gives them. -/
def takeOutput (c : Context) : Array String × Context := (c.output, { c with output := #[] })

/-- How often the time limit is looked at, in steps. -/
def clockInterval : Nat := 1024

/-- The limit that the count of steps has reached, if any. -/
def exceeded? (c : Context) (span : Span) : Option Fault :=
  if c.interrupted then some (.interrupted span)
  else
    match c.limits.stepBudget with
    | some budget =>
      if c.steps > budget then some (.stepBudgetExceeded budget span) else overtime
    | none => overtime
where
  overtime : Option Fault :=
    if c.steps % clockInterval = 0 && c.expired then
      c.limits.timeLimitMs.map (.execTimeExceeded · span)
    else none

/-- The diagnostics of the last run, as a listing. -/
def listErrors (c : Context) : String := Diagnostic.listAll c.errors c.verbose

/-- Leaves the frames of a run that a fault ended, and records the fault. -/
def abort (c : Context) (f : Fault) : Context :=
  let c := c.unwind
  { c with errors := c.errors ++ [f.toDiagnostic c.source] }

end Context

namespace Eval

/-- Counts the evaluation of a node against the limits. -/
def tick (span : Span) : Eval Unit := do
  modify fun c => { c with steps := c.steps + 1 }
  match (← get).exceeded? span with
  | some f => throw f
  | none => return

def ofExcept {α : Type} : Except Fault α → Eval α
  | .ok a => return a
  | .error f => throw f

/-- The number of a cell that was not in use. -/
def newCell : Eval CellId := do
  let cell := (← get).nextCell
  modify fun c => { c with nextCell := c.nextCell + 1 }
  return cell

/-! ## Frames -/

def enter (frame : FrameId) : Eval Unit := modify (·.enter frame)

def leave : Eval Unit := modify (·.leave)

/-- Makes a frame inside `parent`. -/
def newFrame (name : String) (parent : FrameId) (callSite : Option Span) : Eval FrameId := do
  let frame := (← get).store.nextFrame
  modify (·.newFrame name parent callSite)
  return frame

/-- Makes a frame inside the current one. -/
def childFrame (name : String) : Eval FrameId := do
  newFrame name (← get).current none

/-! ## Bindings -/

/-- Binds a name without further questions. -/
def bindName (frame : FrameId) (name : String) (b : Binding) : Eval Unit :=
  modify fun c => { c with store := c.store.write frame name b }

/-- Adds a name to a frame as a placeholder; it must not be there yet. -/
def declare (frame : FrameId) (name : Ident) : Eval Unit := do
  match (← get).store.binding? frame name.name with
  | some _ => throw (.variableRedeclaration name.name name.span)
  | none => bindName frame name.name .placeholder

/-- Gives a placeholder of a frame its value. -/
def defineIn (frame : FrameId) (name : Ident) (v : Value) (isConst : Bool) : Eval Unit := do
  match (← get).store.binding? frame name.name with
  | some ⟨.placeholder, _⟩ => bindName frame name.name (.ofValue v isConst)
  | _ => throw (.variableRedeclaration name.name name.span)

/-- Gives a placeholder of the current frame its value. -/
def define (name : Ident) (v : Value) (isConst : Bool) : Eval Unit := do
  defineIn (← get).current name v isConst

/-- The value of a name. -/
def lookup (name : Ident) : Eval Value := do
  let c ← get
  match c.store.resolve? c.current name.name with
  | some (_, ⟨.value v, _⟩) => return v
  | some _ => throw (.unassignedVariable name.name name.span)
  | none => throw (.undefinedVariable name.name name.span)

/-- Gives a name another value. -/
def assign (name : Ident) (v : Value) : Eval Unit := do
  let c ← get
  match c.store.resolve? c.current name.name with
  | none => throw (.undefinedVariable name.name name.span)
  | some (frame, b) =>
    if b.isConst then throw (.constAssignment name.name name.span)
    else
      match b.slot with
      | .placeholder => throw (.unassignedVariable name.name name.span)
      | .value _ => bindName frame name.name (.ofValue v false)

/-! ## Going back -/

/-- Notes the present moment. -/
def checkpoint : Eval Checkpoint := do
  let m := (← get).moment
  modify (·.checkpoint)
  return m

def restore (m : Checkpoint) : Eval Unit := modify (·.restore m)

end Eval

end AmbScript
