/-!
# JSON values and their text

Values as a reader of JSON text meets them, and the text they are written as: no spaces, only
quotes, backslashes and control characters escaped.

* `Json.render` writes a value; `Json.quoted` writes a string.
-/

namespace AmbScript

/-- A JSON value. Objects keep the order and the repetitions of their members. A part of a text
that follows the grammar but denotes nothing is `unrepresentable`: a string with half a
surrogate pair, or a number beyond the doubles. -/
inductive Json
  | null
  | bool (b : Bool)
  /-- A number without fraction or exponent. -/
  | integer (n : Int)
  /-- Any other number: `mantissa · 10 ^ exponent`. -/
  | decimal (mantissa : Int) (exponent : Int)
  | string (s : String)
  | array (items : List Json)
  | object (members : List (String × Json))
  | unrepresentable
deriving Inhabited

namespace Json

/-- The digit of value `n < 16`. -/
def hexDigit (n : Nat) : Char := Nat.digitChar n

/-- A character as it stands between quotes. -/
def escaped (c : Char) : List Char :=
  match c with
  | '"' => ['\\', '"']
  | '\\' => ['\\', '\\']
  | '\n' => ['\\', 'n']
  | '\r' => ['\\', 'r']
  | '\t' => ['\\', 't']
  | c =>
    if c = '\x08' then ['\\', 'b']
    else if c = '\x0c' then ['\\', 'f']
    else if c.toNat < 0x20 then
      ['\\', 'u', '0', '0', hexDigit (c.toNat / 16), hexDigit (c.toNat % 16)]
    else [c]

/-- A string as JSON text. -/
def quoted (s : String) : String :=
  String.ofList ('"' :: (s.toList.flatMap escaped ++ ['"']))

mutual

/-- Adds the text of a value to `acc`. -/
def renderOnto (acc : String) : Json → String
  | null => acc ++ "null"
  | bool b => acc ++ if b then "true" else "false"
  | integer n => acc ++ toString n
  | decimal m e => acc ++ toString m ++ "e" ++ toString e
  | string s => acc ++ quoted s
  | array items => renderItems (acc ++ "[") items ++ "]"
  | object members => renderMembers (acc ++ "\x7b") members ++ "\x7d"
  | unrepresentable => acc ++ "null"

/-- Adds the texts of the items, separated by commas. -/
def renderItems (acc : String) : List Json → String
  | [] => acc
  | [v] => renderOnto acc v
  | v :: vs => renderItems (renderOnto acc v ++ ",") vs

/-- Adds the texts of the members, separated by commas. -/
def renderMembers (acc : String) : List (String × Json) → String
  | [] => acc
  | [(k, v)] => renderOnto (acc ++ quoted k ++ ":") v
  | (k, v) :: ms => renderMembers (renderOnto (acc ++ quoted k ++ ":") v ++ ",") ms

end

/-- The text of a value. -/
def render (v : Json) : String := renderOnto "" v

/-- The values of the members called `key`, in their order. -/
def valuesOf (key : String) (members : List (String × Json)) : List Json :=
  members.filterMap fun m => if m.1 = key then some m.2 else none

mutual

/-- Every part of the value denotes something. -/
def isRepresentable : Json → Bool
  | array items => areRepresentable items
  | object members => membersRepresentable members
  | unrepresentable => false
  | _ => true

def areRepresentable : List Json → Bool
  | [] => true
  | v :: vs => isRepresentable v && areRepresentable vs

def membersRepresentable : List (String × Json) → Bool
  | [] => true
  | (_, v) :: ms => isRepresentable v && membersRepresentable ms

end

end Json

end AmbScript
