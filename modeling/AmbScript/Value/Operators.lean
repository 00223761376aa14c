import AmbScript.Decimal.Remainder
import AmbScript.Decimal.Text
import AmbScript.Fault
import AmbScript.Value.Equality
import AmbScript.Value.Text

/-!
# Operators on values

Arithmetic takes numbers, `+` and the comparisons also two strings; nothing is converted.
Arrays and pairs are indexed from zero, a pair having two items.
-/

namespace AmbScript.Value

def onLeft : String := " on left hand side of operation"

def onRight : String := " on right hand side of operation"

def mismatch (expected context : String) (got : Value) (span : Span) : Fault :=
  .typeMismatch expected context got.typeName span

def unary (op : UnaryOp) (operand : Value) (span : Span) : Except Fault Value :=
  match op, operand with
  | .negate, number x => return number (-x)
  | .negate, v => throw (mismatch "number" "" v span)
  | .not, bool b => return bool !b
  | .not, v => throw (mismatch "boolean" "" v span)

/-- Two operands of one kind: numbers or strings. -/
inductive Matched
  | numbers (x y : Float)
  | strings (s t : String)

/-- The operands of `+` and of comparisons. -/
def matched (left right : Value) (span : Span) : Except Fault Matched :=
  match left, right with
  | number x, number y => return .numbers x y
  | string s, string t => return .strings s t
  | number _, v => throw (mismatch left.typeName onRight v span)
  | string _, v => throw (mismatch left.typeName onRight v span)
  | v, _ => throw (mismatch "string or number" onLeft v span)

/-- The operands of the other arithmetic operators. -/
def numbers (left right : Value) (span : Span) : Except Fault (Float × Float) :=
  match left, right with
  | number x, number y => return (x, y)
  | number _, v => throw (mismatch "number" onRight v span)
  | v, _ => throw (mismatch "number" onLeft v span)

def arithmetic (f : Float → Float → Float) (left right : Value) (span : Span) :
    Except Fault Value := do
  let (x, y) ← numbers left right span
  return number (f x y)

/-- Strings are ordered by their characters' numbers; NaN is in no order with any number. -/
def comparison (onNumbers : Float → Float → Bool) (onStrings : String → String → Bool)
    (left right : Value) (span : Span) : Except Fault Value := do
  match ← matched left right span with
  | .numbers x y => return bool (onNumbers x y)
  | .strings s t => return bool (onStrings s t)

def add (left right : Value) (span : Span) : Except Fault Value := do
  match ← matched left right span with
  | .numbers x y => return number (x + y)
  | .strings s t => return string (s ++ t)

def binary (op : BinaryOp) (left right : Value) (span : Span) : Except Fault Value :=
  match op with
  | .equal => return bool (strictEquals left right)
  | .notEqual => return bool !(strictEquals left right)
  | .add => add left right span
  | .subtract => arithmetic (· - ·) left right span
  | .multiply => arithmetic (· * ·) left right span
  | .divide => arithmetic (· / ·) left right span
  | .remainder => arithmetic Binary64.floatRemainder left right span
  | .less => comparison (fun x y => x < y) (fun s t => s < t) left right span
  | .greater => comparison (fun x y => y < x) (fun s t => t < s) left right span
  | .lessEqual => comparison (fun x y => x ≤ y) (fun s t => !(t < s)) left right span
  | .greaterEqual => comparison (fun x y => y ≤ x) (fun s t => !(s < t)) left right span

/-! ## Items -/

/-- The whole number that a double is, if it is not below zero. -/
def natural? (x : Float) : Option Nat := do
  let b ← Binary64.decode x
  if b.negative && b.mantissa != 0 then none else Decimal.whole? b

/-- The items that indexing sees, and the word for their holder. -/
def items? : Value → Option (List Value × String)
  | array _ items => some (items, "array")
  | pair _ head tail => some ([head, tail], "pair")
  | _ => none

/-- `object[key]`. -/
def index (object key : Value) (span : Span) : Except Fault Value :=
  match object.items? with
  | none => throw (.illegalMemberAccess key.render object.typeName span)
  | some (items, kind) =>
    match key with
    | number x =>
      match natural? x >>= (items[·]?) with
      | some v => return v
      | none => throw (.indexOutOfRange x kind items.length span)
    | key => throw (.typeMismatch "number" " as index" key.typeName span)

/-- `object.property`: no value has properties. -/
def property (object : Value) (name : String) (span : Span) : Fault :=
  .illegalMemberAccess name object.typeName span

end AmbScript.Value
