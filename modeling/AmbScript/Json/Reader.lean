import AmbScript.Json.Basic
import AmbScript.Decimal.Numeral

/-!
# Reading JSON text

Text is first split into lexemes. A stack of open containers then turns the lexemes into a value
one by one, so nesting costs no recursion and can be limited.

* `Json.read` gives the value of a text, if the text follows the grammar and its containers are
  not nested deeper than a limit.
-/

namespace AmbScript.Json

/-- The indivisible parts of JSON text. -/
inductive Lexeme
  | openArray | closeArray | openObject | closeObject | comma | colon
  /-- `none` for a string with half a surrogate pair. -/
  | text (s : Option String)
  | atom (v : Json)

/-! ## Strings -/

def hexValue? (c : Char) : Option Nat :=
  if '0' ≤ c ∧ c ≤ '9' then some (c.toNat - '0'.toNat)
  else if 'a' ≤ c ∧ c ≤ 'f' then some (c.toNat - 'a'.toNat + 10)
  else if 'A' ≤ c ∧ c ≤ 'F' then some (c.toNat - 'A'.toNat + 10)
  else none

/-- The number that four hexadecimal digits write. -/
def hex4? (a b c d : Char) : Option Nat := do
  let a ← hexValue? a
  let b ← hexValue? b
  let c ← hexValue? c
  let d ← hexValue? d
  return ((a * 16 + b) * 16 + c) * 16 + d

/-- What a backslash and one more character stand for. -/
def unescaped? (c : Char) : Option Char :=
  match c with
  | '"' => some '"'
  | '\\' => some '\\'
  | '/' => some '/'
  | 'b' => some '\x08'
  | 'f' => some '\x0c'
  | 'n' => some '\n'
  | 'r' => some '\r'
  | 't' => some '\t'
  | _ => none

def isHigh (u : Nat) : Bool := 0xD800 ≤ u && u < 0xDC00

def isLow (u : Nat) : Bool := 0xDC00 ≤ u && u < 0xE000

/-- The text that code units spell, in reverse; surrogates must come in pairs. -/
def joinUnits : List Nat → List Char → Option (List Char)
  | [], done => some done
  | u :: v :: rest, done =>
    if isHigh u then
      if isLow v then
        joinUnits rest (Char.ofNat (0x10000 + (u - 0xD800) * 0x400 + (v - 0xDC00)) :: done)
      else none
    -- a low surrogate has no business without a high one before it
    else if isLow u then none
    else joinUnits (v :: rest) (Char.ofNat u :: done)
  | [u], done => if isHigh u || isLow u then none else some (Char.ofNat u :: done)

/-- The code units up to the closing quote, in reverse, and the text after it. -/
def stringUnits : List Char → List Nat → Option (List Nat × List Char)
  | [], _ => none
  | '"' :: rest, units => some (units, rest)
  | '\\' :: 'u' :: a :: b :: c :: d :: rest, units =>
    match hex4? a b c d with
    | some u => stringUnits rest (u :: units)
    | none => none
  | '\\' :: c :: rest, units =>
    match unescaped? c with
    | some e => stringUnits rest (e.toNat :: units)
    | none => none
  | c :: rest, units =>
    -- control characters have to be escaped, and a backslash left over escapes nothing
    if c.toNat < 0x20 ∨ c = '\\' then none else stringUnits rest (c.toNat :: units)

/-- The string that starts after an opening quote, and the text after it. -/
def readString (cs : List Char) : Option (Option String × List Char) := do
  let (units, rest) ← stringUnits cs []
  return ((joinUnits units.reverse []).map fun cs => String.ofList cs.reverse, rest)

/-! ## Numbers -/

/-- The largest number of a machine word. -/
def wordMax : Nat := Nat.pow 2 64 - 1

/-- The leading digits that fit a machine word, as a number, and how many digits are left. -/
def leadingDigits : List Char → Nat → Nat × Nat
  | [], n => (n, 0)
  | c :: cs, n =>
    let m := 10 * n + Decimal.digitValue c
    if m ≤ wordMax then leadingDigits cs m else (n, cs.length + 1)

/-- Whether the number is too large for a double. It is estimated as its leading digits times a
power of ten, each rounded to a double first; the leading digits alone never are. -/
def exceedsDoubles (n : Decimal.Numeral) : Bool :=
  let (lead, dropped) := leadingDigits (n.whole ++ n.fraction) 0
  let e := n.scale + dropped
  if lead = 0 ∨ e ≤ 0 then false
  else if e > 308 then true
  else (Decimal.toFloat lead 0 * Decimal.toFloat 1 e).isInf

/-- The digits at the head of a text. -/
def digits (cs : List Char) : List Char := cs.takeWhile Char.isDigit

/-- The fraction at the head of a text, which is empty or has digits. -/
def readFraction (cs : List Char) : Option (List Char × List Char) :=
  match cs with
  | '.' :: rest =>
    if (digits rest).isEmpty then none else some (digits rest, rest.dropWhile Char.isDigit)
  | _ => some ([], cs)

/-- The exponent at the head of a text, if there is one. -/
def readExponent (cs : List Char) : Option (Option Int × List Char) :=
  let unsigned (negative : Bool) (rest : List Char) :=
    if (digits rest).isEmpty then none
    else
      let n : Int := Decimal.ofDigits (digits rest)
      some (some (if negative then -n else n), rest.dropWhile Char.isDigit)
  let signed (rest : List Char) :=
    match rest with
    | '+' :: rest => unsigned false rest
    | '-' :: rest => unsigned true rest
    | _ => unsigned false rest
  match cs with
  | 'e' :: rest => signed rest
  | 'E' :: rest => signed rest
  | _ => some (none, cs)

/-- The number at the head of a text. A whole number has neither fraction nor exponent and is
not a negative zero. -/
def readNumber (cs : List Char) : Option (Json × List Char) := do
  let (negative, cs) := match cs with
    | '-' :: rest => (true, rest)
    | _ => (false, cs)
  let whole := digits cs
  -- no leading zeros
  if whole.isEmpty ∨ (whole.head? = some '0' ∧ whole.length > 1) then none
  let (fraction, cs) ← readFraction (cs.dropWhile Char.isDigit)
  let (exponent, cs) ← readExponent cs
  let numeral : Decimal.Numeral := ⟨whole, fraction, exponent.getD 0⟩
  let sign : Int := if negative then -1 else 1
  if exceedsDoubles numeral then return (unrepresentable, cs)
  if fraction.isEmpty ∧ exponent.isNone ∧ ¬ (negative ∧ numeral.mantissa = 0) then
    return (integer (sign * numeral.mantissa), cs)
  return (decimal (sign * numeral.mantissa) numeral.scale, cs)

/-! ## Lexemes -/

def isBlank (c : Char) : Bool := c = ' ' || c = '\n' || c = '\r' || c = '\t'

/-- The lexeme at the head of a text that starts with no blank. -/
def readLexeme (cs : List Char) : Option (Lexeme × List Char) :=
  match cs with
  | '[' :: rest => some (.openArray, rest)
  | ']' :: rest => some (.closeArray, rest)
  | '\x7b' :: rest => some (.openObject, rest)
  | '\x7d' :: rest => some (.closeObject, rest)
  | ',' :: rest => some (.comma, rest)
  | ':' :: rest => some (.colon, rest)
  | '"' :: rest => (readString rest).map fun (s, rest) => (.text s, rest)
  | 'n' :: 'u' :: 'l' :: 'l' :: rest => some (.atom null, rest)
  | 't' :: 'r' :: 'u' :: 'e' :: rest => some (.atom (bool true), rest)
  | 'f' :: 'a' :: 'l' :: 's' :: 'e' :: rest => some (.atom (bool false), rest)
  | _ => (readNumber cs).map fun (v, rest) => (.atom v, rest)

/-- The lexemes of a text, after those in `done`. Each takes at least one character, so as many
rounds as there are characters are enough. -/
def lexemesLoop : Nat → List Char → List Lexeme → Option (List Lexeme)
  | fuel, cs, done =>
    match cs.dropWhile isBlank with
    | [] => some done.reverse
    | c :: rest =>
      match fuel, readLexeme (c :: rest) with
      | fuel + 1, some (l, rest) => lexemesLoop fuel rest (l :: done)
      | _, _ => none

def lexemes (cs : List Char) : Option (List Lexeme) := lexemesLoop cs.length cs []

/-! ## Values -/

/-- A container whose end has not been read, with what it holds so far in reverse. A key is
`none` if it is no text. -/
inductive Open
  | array (items : List Json)
  | object (members : List (Option String × Json)) (key : Option String)

/-- What the lexemes read so far call for. -/
inductive Expecting
  /-- A value; right after an opening bracket also the end of the array. -/
  | value (first : Bool)
  /-- A key; right after an opening brace also the end of the object. -/
  | key (first : Bool)
  | colon (key : Option String)
  /-- Nothing but what follows a finished value. -/
  | after (v : Json)

/-- The members of a finished object. One key that is no text spoils it. -/
def closeObject (members : List (Option String × Json)) : Json :=
  if members.all (·.1.isSome) then
    object (members.reverse.map fun m => (m.1.getD "", m.2))
  else unrepresentable

def ofText : Option String → Json
  | some s => string s
  | none => unrepresentable

/-- Reads the rest of the lexemes, with `outer` the containers around the place reached and
`room` for so many more inside them. -/
def assemble (room : Nat) : List Lexeme → Expecting → List Open → Option Json
  | [], .after v, [] => some v
  | [], _, _ => none
  | l :: ls, e, outer =>
    match e, l, outer with
    | .value _, .openArray, outer =>
      if room = 0 then none else assemble (room - 1) ls (.value true) (.array [] :: outer)
    | .value _, .openObject, outer =>
      if room = 0 then none else assemble (room - 1) ls (.key true) (.object [] none :: outer)
    | .value _, .text s, outer => assemble room ls (.after (ofText s)) outer
    | .value _, .atom v, outer => assemble room ls (.after v) outer
    | .value true, .closeArray, .array items :: outer =>
      assemble (room + 1) ls (.after (array items.reverse)) outer
    | .key _, .text s, outer => assemble room ls (.colon s) outer
    | .key true, .closeObject, .object members _ :: outer =>
      assemble (room + 1) ls (.after (closeObject members)) outer
    | .colon key, .colon, .object members _ :: outer =>
      assemble room ls (.value false) (.object members key :: outer)
    | .after v, .comma, .array items :: outer =>
      assemble room ls (.value false) (.array (v :: items) :: outer)
    | .after v, .closeArray, .array items :: outer =>
      assemble (room + 1) ls (.after (array (v :: items).reverse)) outer
    | .after v, .comma, .object members key :: outer =>
      assemble room ls (.key false) (.object ((key, v) :: members) none :: outer)
    | .after v, .closeObject, .object members key :: outer =>
      assemble (room + 1) ls (.after (closeObject ((key, v) :: members))) outer
    | _, _, _ => none

/-- The value of a text whose containers nest at most `maxDepth` deep. -/
def read (maxDepth : Nat) (text : String) : Option Json := do
  let ls ← lexemes text.toList
  assemble maxDepth ls (.value false) []

end AmbScript.Json
