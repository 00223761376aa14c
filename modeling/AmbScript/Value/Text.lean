import AmbScript.Decimal.Text
import AmbScript.Text.Quoted
import AmbScript.Value.Basic

/-!
# Texts of values

How values are shown: strings in quotes, pairs and arrays in brackets, functions by name. A long
array is cut short.
-/

namespace AmbScript.Value

/-- An array is shown up to this many items. -/
def maxShownItems : Nat := 100

/-- Numbers as values show every digit of a whole number and no sign of a zero. -/
def numberStyle : Decimal.Style := ⟨"Infinity", "NaN", false, true⟩

def numberText (x : Float) : String := Decimal.text numberStyle x

def functionText (name : String) : String := "<function " ++ name ++ ">"

/-- The brackets that end so many pairs. -/
def closing (opened : Nat) : String := String.ofList (List.replicate opened ']')

mutual

/-- Adds the text of a value to `acc`, and then closes as many pairs as are `opened`. -/
def renderOnto (acc : String) (opened : Nat) : Value → String
  | undefined => acc ++ "undefined" ++ closing opened
  | null => acc ++ "null" ++ closing opened
  | bool b => acc ++ (if b then "true" else "false") ++ closing opened
  | number x => acc ++ numberText x ++ closing opened
  | string s => acc ++ Text.quoted s ++ closing opened
  | pair _ head tail => renderOnto (renderOnto (acc ++ "[") 0 head ++ ", ") (opened + 1) tail
  | array _ items => renderItems (acc ++ "[") maxShownItems items ++ "]" ++ closing opened
  | closure _ f _ => acc ++ functionText f.displayName ++ closing opened
  | primitive p => acc ++ functionText p.name ++ closing opened

/-- Adds the texts of at most `room` items. -/
def renderItems (acc : String) (room : Nat) : List Value → String
  | [] => acc
  | v :: vs =>
    match room with
    | 0 => acc ++ ", ..."
    | room + 1 =>
      let separator := if room + 1 = maxShownItems then "" else ", "
      renderItems (renderOnto (acc ++ separator) 0 v) room vs

end

/-- The text of a value. -/
def render (v : Value) : String := renderOnto "" 0 v

/-- The text of a value inside a message: strings stand as they are. -/
def messageText : Value → String
  | string s => s
  | v => v.render

end AmbScript.Value
