import AmbScript.Machine.Context
import AmbScript.Value.Equality
import AmbScript.Value.Text

/-!
# Calling primitives

A primitive gives one value or fails. Arguments are checked from left to right.

* `Primitive.call` expects a count of arguments that the arity accepts.
-/

namespace AmbScript

/-- The constants that every program finds in place. -/
def numericConstants : List (String × Float) :=
  [("math_PI", Float.ofBits 0x400921fb54442d18), ("math_E", Float.ofBits 0x4005bf0a8b145769),
    ("Infinity", Float.ofBits 0x7ff0000000000000), ("NaN", Float.ofBits 0x7ff8000000000000)]

namespace Primitive

/-- An answer, or why there is none. -/
abbrev Answer := Eval (Except HostFault Value)

def badArgument (p : Primitive) (position : Nat) (expected : String) (got : Value) : HostFault :=
  .badArgument p.name position expected got.render

/-- A pair in a cell of its own. -/
def newPair (a b : Value) : Eval Value := do
  return .pair (← Eval.newCell) a b

/-- A list of the items, given in reverse, before the list `done`. -/
def listOnto : List Value → Value → Eval Value
  | [], done => return done
  | v :: vs, done => do listOnto vs (← newPair v done)

def newList (items : List Value) : Eval Value := listOnto items.reverse .null

/-- The numbers among arguments from `position` on, up to the first that is none. -/
def numberArgs (p : Primitive) : Nat → List Value → Except HostFault (List Float)
  | _, [] => return []
  | position, v :: vs =>
    match v with
    | .number x => do return x :: (← numberArgs p (position + 1) vs)
    | v => throw (p.badArgument position "a number" v)

def onNumber (p : Primitive) (f : Float → Float) (v : Value) : Except HostFault Value :=
  match v with
  | .number x => return .number (f x)
  | v => throw (p.badArgument 1 "a number" v)

/-- The number that is left when each argument in turn may displace the one left before. The first
NaN is the answer, whatever comes behind it. -/
def selectNumber (p : Primitive) (displaces : Float → Float → Bool) :
    Nat → Float → List Value → Except HostFault Value
  | _, best, [] => return .number best
  | position, best, v :: vs =>
    match v with
    | .number x =>
      if x.isNaN then return .number x
      else selectNumber p displaces (position + 1) (if displaces x best then x else best) vs
    | v => throw (p.badArgument position "a number" v)

/-- A text, after a heading if there is one. -/
def headed (heading : Option Value) (text : String) : String :=
  match heading with
  | some v => v.messageText ++ " " ++ text
  | none => text

/-- Adds a line to the output. -/
def showLine (v : Value) (heading : Option Value) : Eval Value := do
  modify fun c => { c with output := c.output.push (headed heading v.render) }
  return v

/-- Whether the value is one of its kind. -/
def question (p : Primitive) (v : Value) : Bool :=
  match p, v with
  | isPair, .pair .. => true
  | isNull, .null => true
  | isNumber, .number _ => true
  | isString, .string _ => true
  | isBoolean, .bool _ => true
  | isUndefined, .undefined => true
  | isArray, .array .. => true
  | isFunction, v => v.isFunction
  | _, _ => false

/-- Rounds to a whole number, a half upwards. -/
def roundHalfUp (x : Float) : Float := (x + 0.5).floor

/-- The answer of a primitive. -/
def call (p : Primitive) (args : List Value) : Answer :=
  match p, args with
  | pair, [a, b] => do return .ok (← newPair a b)
  | head, [.pair _ a _] => return .ok a
  | head, [v] => return .error (p.badArgument 1 "a pair" v)
  | tail, [.pair _ _ b] => return .ok b
  | tail, [v] => return .error (p.badArgument 1 "a pair" v)
  | list, vs => do return .ok (← newList vs)
  | equal, [a, b] => return .ok (.bool (a.structuralEquals b))
  | display, [v] => do return .ok (← showLine v none)
  | display, [v, heading] => do return .ok (← showLine v (some heading))
  | error, [v] => return .error (.raised v.messageText)
  | error, [v, heading] => return .error (.raised (headed (some heading) v.messageText))
  | stringify, [v] => return .ok (.string v.render)
  | abs, [v] => return p.onNumber Float.abs v
  | floor, [v] => return p.onNumber Float.floor v
  | ceil, [v] => return p.onNumber Float.ceil v
  | sqrt, [v] => return p.onNumber Float.sqrt v
  | round, [v] => return p.onNumber roundHalfUp v
  | pow, [_, _] => return do
    match ← p.numberArgs 1 args with
    | [x, y] => return .number (x.pow y)
    | _ => return .undefined
  | max, vs => return p.selectNumber (· ≥ ·) 1 (Float.ofBits 0xfff0000000000000) vs
  | min, vs => return p.selectNumber (· ≤ ·) 1 (Float.ofBits 0x7ff0000000000000) vs
  | arrayLength, [.array _ items] => return .ok (.number (Float.ofNat items.length))
  | arrayLength, [v] => return .error (p.badArgument 1 "an array" v)
  | p, [v] => return .ok (.bool (p.question v))
  | _, _ => return .ok .undefined

end Primitive

end AmbScript
