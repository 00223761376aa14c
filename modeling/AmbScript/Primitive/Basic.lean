/-!
# Primitives

The functions that every program finds in place, and the argument counts they take.

* `Primitive.ofName?` finds a primitive by its name; `Arity.accepts` judges a count.
-/

namespace AmbScript

/-- The argument counts that a function takes. -/
inductive Arity
  | exactly (n : Nat)
  | between (least most : Nat)
  | atLeast (n : Nat)
deriving DecidableEq, Inhabited

namespace Arity

def accepts : Arity → Nat → Bool
  | exactly n, got => got == n
  | between least most, got => least ≤ got && got ≤ most
  | atLeast n, got => n ≤ got

/-- The counts in words. -/
def render : Arity → String
  | exactly n => toString n
  | between least most => s!"{least} to {most}"
  | atLeast n => s!"at least {n}"

end Arity

inductive Primitive
  -- pairs and lists
  | pair | head | tail | list | equal
  -- questions
  | isPair | isNull | isNumber | isString | isBoolean | isUndefined | isArray | isFunction
  -- output and errors
  | display | error | stringify
  -- numbers
  | abs | floor | ceil | sqrt | round | pow | max | min
  -- arrays
  | arrayLength
deriving DecidableEq, Inhabited

namespace Primitive

def name : Primitive → String
  | pair => "pair"
  | head => "head"
  | tail => "tail"
  | list => "list"
  | equal => "equal"
  | isPair => "is_pair"
  | isNull => "is_null"
  | isNumber => "is_number"
  | isString => "is_string"
  | isBoolean => "is_boolean"
  | isUndefined => "is_undefined"
  | isArray => "is_array"
  | isFunction => "is_function"
  | display => "display"
  | error => "error"
  | stringify => "stringify"
  | abs => "math_abs"
  | floor => "math_floor"
  | ceil => "math_ceil"
  | sqrt => "math_sqrt"
  | round => "math_round"
  | pow => "math_pow"
  | max => "math_max"
  | min => "math_min"
  | arrayLength => "array_length"

def arity : Primitive → Arity
  | pair | equal | pow => .exactly 2
  | list | max | min => .atLeast 0
  | display | error => .between 1 2
  | _ => .exactly 1

def all : List Primitive :=
  [pair, head, tail, list, equal, isPair, isNull, isNumber, isString, isBoolean, isUndefined,
    isArray, isFunction, display, error, stringify, abs, floor, ceil, sqrt, round, pow, max, min,
    arrayLength]

/-- The primitive of that name. -/
def ofName? (s : String) : Option Primitive := all.find? (·.name == s)

theorem mem_all (p : Primitive) : p ∈ all := by cases p <;> decide

theorem ofName?_name (p : Primitive) : ofName? p.name = some p := by cases p <;> decide

end Primitive

end AmbScript
