import AmbScript.Json.Basic

/-!
# Members of objects

Access to the members of an object by name, for the readers of records. A name that occurs twice
is no record's field.
-/

namespace AmbScript.Json

/-- The value of the one member called `key`. -/
def required? (members : List (String × Json)) (key : String) : Option Json :=
  match valuesOf key members with
  | [v] => some v
  | _ => none

/-- The value of the member called `key`, or `null` if there is none. -/
def optional? (members : List (String × Json)) (key : String) : Option Json :=
  match valuesOf key members with
  | [] => some null
  | [v] => some v
  | _ => none

def string? : Json → Option String
  | string s => some s
  | _ => none

/-- A whole number below `bound`. -/
def below? (bound : Nat) : Json → Option Nat
  | integer (.ofNat n) => if n < bound then some n else none
  | _ => none

/-- `null`, or what `f` reads. -/
def orNull? {α : Type} (f : Json → Option α) : Json → Option (Option α)
  | null => some none
  | v => (f v).map some

/-- The name of an alternative without data: a string, or an object with this one key and
nothing for it. -/
def tag? : Json → Option String
  | string s => some s
  | object [(s, null)] => some s
  | _ => none

end AmbScript.Json
