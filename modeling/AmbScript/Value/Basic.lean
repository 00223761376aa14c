import AmbScript.Primitive.Basic
import AmbScript.Program.Basic

/-!
# Values

What expressions evaluate to. Pairs and arrays never change, but each one made is told apart from
all others by the number of its cell; so is each closure.
-/

namespace AmbScript

/-- A frame is known by the count of frames made before it. -/
abbrev FrameId := Nat

/-- A cell is known by the count of cells made before it. -/
abbrev CellId := Nat

inductive Value
  | undefined
  | null
  | bool (b : Bool)
  | number (x : Float)
  | string (s : String)
  | pair (cell : CellId) (head tail : Value)
  | array (cell : CellId) (items : List Value)
  /-- A function and the frame that it was made in. -/
  | closure (cell : CellId) (function : Function) (frame : FrameId)
  | primitive (p : Primitive)
deriving Inhabited

namespace Value

/-- The word for a value's type in messages. -/
def typeName : Value → String
  | undefined => "undefined"
  | null => "null"
  | bool _ => "boolean"
  | number _ => "number"
  | string _ => "string"
  | pair .. => "pair"
  | array .. => "array"
  | closure .. | primitive _ => "function"

def bool? : Value → Option Bool
  | bool b => some b
  | _ => none

def number? : Value → Option Float
  | number x => some x
  | _ => none

def isFunction : Value → Bool
  | closure .. | primitive _ => true
  | _ => false

/-- The items of a list, in reverse, before those in `done`; only pairs ended by `null` are a
list. -/
def listLoop : Value → List Value → Option (List Value)
  | null, done => some done
  | pair _ head tail, done => listLoop tail (head :: done)
  | _, _ => none

/-- The items of a list. -/
def list? (v : Value) : Option (List Value) := (listLoop v []).map List.reverse

end Value

end AmbScript
