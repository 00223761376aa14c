import AmbScript.Json.Member
import AmbScript.Json.Reader
import AmbScript.Machine.Context

/-!
# Options of a run

How solutions are handed over, and the limits of each driver step. As JSON text the options are
an object or the array of its members' values; what is left out has its default.

* `Options.read?` and `Options.write` go between options and text.
-/

namespace AmbScript

/-- How solutions are handed over. -/
inductive Scheduler
  /-- The run is suspended after each one. -/
  | nonDet
  /-- The first one ends the run. -/
  | preemptive
deriving DecidableEq, Inhabited

namespace Scheduler

def name : Scheduler → String
  | nonDet => "non-det"
  | preemptive => "preemptive"

def ofName? (s : String) : Option Scheduler := [nonDet, preemptive].find? (·.name == s)

def ofJson? (v : Json) : Option Scheduler := v.tag? >>= ofName?

end Scheduler

structure Options where
  scheduler : Scheduler
  limits : Limits
deriving DecidableEq, Inhabited

namespace Options

def default : Options := ⟨.nonDet, .unlimited⟩

def limitToJson : Option Nat → Json
  | some n => .integer n
  | none => .null

def toJson (o : Options) : Json :=
  .object [("scheduler", .string o.scheduler.name),
    ("stepBudget", limitToJson o.limits.stepBudget),
    ("maxExecTimeMs", limitToJson o.limits.timeLimitMs)]

def write (o : Options) : String := o.toJson.render

/-- `null`, or a number of a machine word. -/
def limitOfJson? : Json → Option (Option Nat) := Json.orNull? (Json.below? (Nat.pow 2 64))

/-- What `f` reads from the only value; without a value the default. -/
def atMostOne? {α : Type} (f : Json → Option α) (default : α) : List Json → Option α
  | [] => some default
  | [v] => f v
  | _ => none

/-- The options whose parts are written by at most one value each. -/
def ofParts? (scheduler stepBudget timeLimitMs : List Json) : Option Options := do
  return {
    scheduler := ← atMostOne? Scheduler.ofJson? .nonDet scheduler
    limits := {
      stepBudget := ← atMostOne? limitOfJson? none stepBudget
      timeLimitMs := ← atMostOne? limitOfJson? none timeLimitMs } }

def ofJson? : Json → Option Options
  | .object ms =>
    ofParts? (Json.valuesOf "scheduler" ms) (Json.valuesOf "stepBudget" ms)
      (Json.valuesOf "maxExecTimeMs" ms)
  | .array vs =>
    if vs.length ≤ 3 then
      ofParts? (vs.take 1) ((vs.drop 1).take 1) (vs.drop 2)
    else none
  | _ => none

/-- The options that a text writes. -/
def read? (text : String) : Option Options := Json.read text.length text >>= ofJson?

end Options

end AmbScript
