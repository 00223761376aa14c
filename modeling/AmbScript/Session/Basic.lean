import AmbScript.Machine.Step
import AmbScript.Session.Options
import AmbScript.Session.Prelude

/-!
# Running programs

A program is run on a context up to its first solution, which suspends it; resuming it finds the
next one. A search without further solutions ends in one last outcome, and a fault ends the run
with its diagnostic.

A driver step may take long, so it comes in stages: while it is running, `Running.advance` takes
it further by a number of machine steps. What a name ending in `By` defines takes the rule by
which searches are dropped; programs are run with the rule `Search.isExhausted`.

* `run`, `runProgram` and `Suspension.resume` begin a driver step.
* `Outcome` is how a driver step ends.
-/

namespace AmbScript

namespace Context

/-- Primitives and constants, as bindings of a frame. -/
def install (s : Store) (frame : FrameId) : Store :=
  let s := Primitive.all.foldl
    (fun s p => s.write frame p.name (.ofValue (.primitive p) true)) s
  numericConstants.foldl (fun s c => s.write frame c.1 (.ofValue (.number c.2) true)) s

/-- The feature level of contexts made without one. -/
def defaultChapter : Nat := 4

/-- A context on which nothing has been run. -/
def new (chapter : Nat) : Context where
  store := install (Store.empty.newFrame "global" none none) 0
  inner := []
  outer := [0]
  nextCell := 0
  errors := []
  output := #[]
  verbose := false
  source := ⟨"prelude", ""⟩
  aborted := false
  chapter := chapter
  preludePending := true
  steps := 0
  limits := .unlimited
  expired := false
  interrupted := false

/-- Clears what an earlier run left behind. -/
def prepare (c : Context) (limits : Limits) : Context :=
  { c.unwind with
    interrupted := false
    aborted := false
    errors := []
    store := c.store.forget
    limits := limits }

/-- Gives up what the context is running: to resume it only tells so. -/
def interrupt (c : Context) : Context :=
  { c.abort (.interrupted .synthetic) with aborted := true }

end Context

/-! ## Programs -/

/-- Enters the frame of a program. -/
def Program.enter (p : Program) : Eval Unit := do
  let frame ← Eval.childFrame "programEnvironment"
  Eval.hoist frame p.body
  modify (·.enterOuter frame)

/-- Enters the frame of a program, and starts the search for its values. -/
def Program.start (p : Program) : Eval (Search .value) := do
  p.enter
  return .map .program (.sequence p.body.statements)

/-- A program that starts with this directive has its diagnostics listed with elaborations. -/
def verboseDirective : String := "enable verbose"

/-- What a reader enters to resume the last run. -/
def tryAgain : String := "try_again"

/-! ## Driver steps -/

/-- A run that has found a value and may go on. -/
structure Suspension where
  value : Value
  context : Context
  rest : Search .value
  scheduler : Scheduler

/-- How a driver step ends. -/
inductive Outcome
  | finished (value : Value) (context : Context)
  | suspended (s : Suspension)
  | errored (diagnostics : List Diagnostic) (context : Context)

namespace Outcome

def status : Outcome → String
  | finished .. => "finished"
  | suspended _ => "suspended-non-det"
  | errored .. => "error"

def value? : Outcome → Option Value
  | finished v _ => some v
  | suspended s => some s.value
  | errored .. => none

def context : Outcome → Context
  | finished _ c => c
  | suspended s => s.context
  | errored _ c => c

end Outcome

/-- A driver step under way. -/
structure Running where
  machine : Machine
  context : Context
  scheduler : Scheduler

/-- A driver step, under way or ended. -/
inductive Stage
  | running (r : Running)
  | ended (o : Outcome)

/-- A step that ends with the context's diagnostics. -/
def Stage.errored (c : Context) : Stage := .ended (.errored c.errors c)

/-- Asks for the next value of a search. -/
def Stage.begin (s : Search .value) (c : Context) (scheduler : Scheduler) : Stage :=
  .running ⟨.ofSearch s, c.beginStep, scheduler⟩

namespace Running

/-- Where a machine that was run has got to. -/
def stage (scheduler : Scheduler) : EStateM.Result Fault Context Machine → Stage
  | .error f c => .errored (c.abort f)
  | .ok m c =>
    match m.finished? with
    | none => .running ⟨m, c, scheduler⟩
    | some (none, _) => .ended (.finished .undefined c)
    -- the scheduler alone decides whether the search is kept
    | some (some v, rest) =>
      match scheduler with
      | .nonDet => .ended (.suspended ⟨v, c, rest, scheduler⟩)
      | .preemptive => .ended (.finished v c)

/-- Goes on for up to `n` machine steps. -/
def advanceBy (retire : {k : Kind} → Search k → Bool) (n : Nat) (r : Running) : Stage :=
  stage r.scheduler (r.machine.run retire n r.context)

def advance (n : Nat) (r : Running) : Stage := r.advanceBy Search.isExhausted n

/-- Makes it known that the time limit has passed. -/
def expire (r : Running) : Running := { r with context := { r.context with expired := true } }

end Running

/-! ## The library -/

/-- Asks for values until there are no more; nothing if that never ends. -/
def Machine.drain (retire : {k : Kind} → Search k → Bool) (m : Machine) (c : Context) :
    Option (EStateM.Result Fault Context Unit) :=
  match m.finished? with
  -- a value that is found is dropped
  | some (some _, rest) => ofSearch rest |>.drain retire c
  | some (none, _) => some (.ok () c)
  | none =>
    match m.step retire c with
    | .ok m c => m |>.drain retire c
    | .error f c => some (.error f c)
partial_fixpoint

/-- Runs a program to its end, whatever its values are. -/
def Program.drain (retire : {k : Kind} → Search k → Bool) (p : Program) (c : Context) :
    Option (EStateM.Result Fault Context Unit) :=
  match p.start c with
  | .ok s c => Machine.drain retire (.ofSearch s) c.beginStep
  | .error f c => some (.error f c)

/-- Runs a library if that is still to be done. Its steps are not counted. A library that never
ended would be left where it starts. -/
def Context.loadLibrary (retire : {k : Kind} → Search k → Bool) (library : Parsed) (c : Context) :
    Except Context Context :=
  if !c.preludePending then .ok c
  else
    -- not tried again, not even if it fails
    let c := { c with preludePending := false }
    match library.program with
    | none => .error { c with errors := library.log.kept }
    | some p =>
      let limits := c.limits
      match p.drain retire { c with source := Prelude.source, limits := .unlimited } with
      | none => .ok c
      | some (.ok _ c) => .ok { c with limits := limits }
      | some (.error f c) => .error ({ c with limits := limits }.abort f)

def Context.loadPreludeBy (retire : {k : Kind} → Search k → Bool) (c : Context) :
    Except Context Context :=
  c.loadLibrary retire Prelude.parsed

def Context.loadPrelude (c : Context) : Except Context Context :=
  c.loadPreludeBy Search.isExhausted

/-! ## Beginning driver steps -/

/-- The name of the text of a program that is run. -/
def programName : String := "program"

/-- Runs a program on a context that is prepared for it. -/
def Program.begin (p : Program) (c : Context) (scheduler : Scheduler) : Stage :=
  let c := if p.directive? = some verboseDirective then { c with verbose := true } else c
  -- starting hoists the declarations, which is where duplicate ones are found
  match p.start c with
  | .ok s c => .begin s c scheduler
  | .error f c => .errored (c.abort f)

/-- Runs the program of a text. The text becomes the one that faults are taken to be in. -/
def runBy (retire : {k : Kind} → Search k → Bool) (code : String) (c : Context)
    (options : Options) : Stage :=
  match (c.prepare options.limits).loadPreludeBy retire with
  | .error c => .errored c
  | .ok c =>
    let source : Source := ⟨programName, code⟩
    let parsed := parse source
    match parsed.program with
    -- only the errors are new: neither source nor bindings change
    | none => .errored { c with errors := parsed.log.kept }
    | some p => p.begin { c with source := source } options.scheduler

def run (code : String) (c : Context) (options : Options) : Stage :=
  runBy Search.isExhausted code c options

/-- Runs a program that has been read already. Faults are taken to be in the last text. -/
def runProgramBy (retire : {k : Kind} → Search k → Bool) (p : Program) (c : Context)
    (options : Options) : Stage :=
  match (c.prepare options.limits).loadPreludeBy retire with
  | .error c => .errored c
  | .ok c => p.begin c options.scheduler

def runProgram (p : Program) (c : Context) (options : Options) : Stage :=
  runProgramBy Search.isExhausted p c options

/-- Asks a suspended run for its next value. -/
def Suspension.resume (s : Suspension) : Stage :=
  -- an interrupted run has its reports already
  if s.context.aborted then .errored s.context
  else .begin s.rest s.context s.scheduler

end AmbScript
