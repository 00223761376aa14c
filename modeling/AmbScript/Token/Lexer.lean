import AmbScript.Diagnostic.Basic
import AmbScript.Decimal.Numeral
import AmbScript.Token.Basic
import AmbScript.Token.Cursor

/-!
# From text to tokens

A text is cut into pieces: gaps (blanks and comments), tokens, and stray characters. Faults are
reported and cutting goes on behind them until the log is full.

* `Lexer.run` gives the tokens of a text, the last one being the end of the text, and the log.
-/

namespace AmbScript

namespace Lexer

/-- What stands at the head of a text: a token, or nothing that the parser should see. -/
structure Piece where
  kind : Option Token.Kind
  /-- Behind the piece. -/
  after : Cursor
  reports : List Diagnostic

/-! ## Characters -/

def isBlank (c : Char) : Bool :=
  c = ' ' || c = '\t' || c = '\n' || c = '\r' || c = '\x0c'

def isWordStart (c : Char) : Bool := c.isAlpha || c = '_' || c = '$'

def isWord (c : Char) : Bool := isWordStart c || c.isDigit

/-- Whether the encoded form of a character has more than one byte. -/
def isWide (c : Char) : Bool := 0x80 ≤ c.toNat

/-- The first byte of a character's encoded form, as a character. -/
def leadByte (c : Char) : Char :=
  let n := c.toNat
  if n < 0x80 then c
  else if n < 0x800 then Char.ofNat (0xC0 + n / 0x40)
  else if n < 0x10000 then Char.ofNat (0xE0 + n / 0x1000)
  else Char.ofNat (0xF0 + n / 0x40000)

/-! ## Gaps -/

/-- How many characters a block comment takes behind its opening mark, if it is closed. -/
def commentLength : List Char → Nat → Option Nat
  | [], _ => none
  | '*' :: '/' :: _, n => some (n + 2)
  | _ :: cs, n => commentLength cs (n + 1)

def blockComment (source : Source) (c : Cursor) : Piece :=
  match commentLength (c.rest.drop 2) 2 with
  | some n => ⟨none, c.drop n, []⟩
  | none =>
    let end_ := c.dropWhile fun _ => true
    ⟨none, end_, [.quoting source .unclosedDelimiter "Unterminated comment"
      (end_.spanFrom c.place)]⟩

/-! ## Numbers -/

/-- The fraction at the head of a text and its length; a point needs a digit behind it. -/
def fraction (cs : List Char) : List Char × Nat :=
  match cs with
  | '.' :: rest =>
    let digits := rest.takeWhile Char.isDigit
    -- else the point is not part of the number
    if digits.isEmpty then ([], 0) else (digits, digits.length + 1)
  | _ => ([], 0)

/-- The exponent at the head of a text and its length; its mark needs a digit behind it. -/
def exponent (cs : List Char) : Int × Nat :=
  let unsigned (negative : Bool) (mark : Nat) (rest : List Char) : Int × Nat :=
    let digits := rest.takeWhile Char.isDigit
    let n : Int := Decimal.ofDigits digits
    if digits.isEmpty then (0, 0) else (if negative then -n else n, mark + digits.length)
  let signed (rest : List Char) : Int × Nat :=
    match rest with
    | '+' :: rest => unsigned false 2 rest
    | '-' :: rest => unsigned true 2 rest
    | _ => unsigned false 1 rest
  match cs with
  | 'e' :: rest => signed rest
  | 'E' :: rest => signed rest
  | _ => (0, 0)

/-- The numeral at the head of a text and its length. -/
def numeral (cs : List Char) : Decimal.Numeral × Nat :=
  let whole := cs.takeWhile Char.isDigit
  let cs := cs.dropWhile Char.isDigit
  let (fraction, n) := fraction cs
  let (exponent, m) := exponent (cs.drop n)
  (⟨whole, fraction, exponent⟩, whole.length + n + m)

def number (c : Cursor) : Piece :=
  let (numeral, n) := numeral c.rest
  ⟨some (.number numeral.toFloat), c.drop n, []⟩

/-! ## Words -/

def word (c : Cursor) : Piece :=
  let text := String.ofList (c.rest.takeWhile isWord)
  let kind := match Symbol.ofKeyword? text with
    | some s => Token.Kind.symbol s
    | none => .name text
  ⟨some kind, c.dropWhile isWord, []⟩

/-! ## Strings -/

/-- What a backslash and `c` stand for, if they are an escape. -/
def unescaped? (c : Char) : Option Char :=
  match c with
  | 'n' => some '\n'
  | 't' => some '\t'
  | 'r' => some '\r'
  | '0' => some '\x00'
  | '"' => some '"'
  | '\'' => some '\''
  | '\\' => some '\\'
  | _ => none

/-- Reads a string literal from behind its opening quote at `start` on. An unknown escape stands
for the one byte behind the backslash; if that was only a part of a character, nothing more is
taken from the text up to the next backslash (`muted`). Contents and reports are kept in
reverse. -/
def stringLoop (source : Source) (quote : Char) (start : Position) :
    List Char → Position → Bool → List Char → List Diagnostic → Piece
  | '\\' :: e :: cs, p, _, contents, reports =>
    match unescaped? e with
    | some c => stringLoop source quote start cs ((p.after '\\').after e) false (c :: contents)
        reports
    | none =>
      let c := leadByte e
      let after := (p.after '\\').after e
      let report := Diagnostic.quoting source .unexpectedToken
        s!"Invalid escape sequence '\\{c}'" (Cursor.spanFrom ⟨after, cs⟩ p)
      stringLoop source quote start cs after (isWide e) (c :: contents) (report :: reports)
  | c :: cs, p, muted, contents, reports =>
    -- the characters are taken as they are, but for the quote, a line break and a backslash
    if c = quote then ⟨some (.string (String.ofList contents.reverse)), ⟨p.after c, cs⟩,
      reports.reverse⟩
    else if c = '\n' then unterminated ⟨p, c :: cs⟩ contents reports
    else if c = '\\' then
      -- The text ends behind the backslash.
      let after : Cursor := ⟨p.after c, cs⟩
      let report := Diagnostic.quoting source .unclosedDelimiter
        "Unexpected end of file in escape sequence" (after.spanFrom p)
      unterminated after contents (report :: reports)
    else stringLoop source quote start cs (p.after c) muted
      (if muted then contents else c :: contents) reports
  | [], p, _, contents, reports => unterminated ⟨p, []⟩ contents reports
where
  /-- The literal ends here although its quote is missing. -/
  unterminated (here : Cursor) (contents : List Char) (reports : List Diagnostic) : Piece :=
    let report := Diagnostic.quoting source .unclosedDelimiter "Unterminated string literal"
      (here.spanFrom start)
    ⟨some (.string (String.ofList contents.reverse)), here, (report :: reports).reverse⟩

def string (source : Source) (quote : Char) (c : Cursor) : Piece :=
  stringLoop source quote c.place (c.rest.drop 1) (c.place.after quote) false [] []

/-! ## Marks -/

/-- The text starts with this spelling. -/
def startsWith (spelling : String) (cs : List Char) : Bool := spelling.toList.isPrefixOf cs

/-- A comparison in its loose spelling, reported and read as the strict one. -/
def looseComparison (source : Source) (loose : String) (strict : Symbol) (c : Cursor) : Piece :=
  let spelling := strict.spelling
  let after := c.drop loose.length
  let report := Diagnostic.quoting source .unsupportedOperator
    s!"Use {spelling} instead of {loose}" (after.spanFrom c.place)
  ⟨some (.symbol strict), after,
    [report.withSuggestion s!"Loose comparison is not part of the language; use {spelling}"]⟩

/-- A character that starts no token. -/
def stray (source : Source) (ch : Char) (c : Cursor) : Piece :=
  let after := c.drop 1
  let span := after.spanFrom c.place
  let report :=
    if ch = '&' ∨ ch = '|' then
      (Diagnostic.quoting source .unsupportedOperator
        s!"Bitwise operator '{ch}' is not supported" span).withSuggestion
        s!"Use '{ch}{ch}' for the logical operator"
    else Diagnostic.quoting source .unexpectedToken s!"Unexpected character '{ch}'" span
  ⟨none, after, [report]⟩

/-- The longest operator or punctuation mark at the head of a text. -/
def mark (source : Source) (ch : Char) (c : Cursor) : Piece :=
  -- the loose spellings are prefixes of the strict ones, so they are looked for first
  if startsWith "==" c.rest && !startsWith "===" c.rest then
    looseComparison source "==" .equal c
  else if startsWith "!=" c.rest && !startsWith "!==" c.rest then
    looseComparison source "!=" .notEqual c
  else
    match Symbol.marks.find? fun s => startsWith s.spelling c.rest with
    | some s => ⟨some (.symbol s), c.drop s.spelling.length, []⟩
    | none => stray source ch c

/-! ## The whole text -/

/-- The piece at the head of a text that starts with `ch`. -/
def piece (source : Source) (ch : Char) (c : Cursor) : Piece :=
  let next := c.rest[1]?
  if isBlank ch then ⟨none, c.dropWhile isBlank, []⟩
  else if ch = '/' ∧ next = some '/' then ⟨none, c.dropWhile (· != '\n'), []⟩
  else if ch = '/' ∧ next = some '*' then blockComment source c
  else if ch = '"' ∨ ch = '\'' then string source ch c
  -- a point starts a number only in front of a digit, else it is the mark for access
  else if ch.isDigit ∨ ch = '.' ∧ next.any Char.isDigit then number c
  else if isWordStart ch then word c
  else mark source ch c

/-- The tokens and faults of a text. -/
structure Result where
  tokens : List Token
  log : DiagnosticLog

/-- The end of the text, or the place where the log became full. -/
def finish (c : Cursor) (tokens : List Token) (log : DiagnosticLog) : Result :=
  ⟨(Token.eof (.point c.place) :: tokens).reverse, log⟩

/-- Cuts the rest of a text, with the tokens so far in reverse. Every piece takes a character, so
as many rounds as there are characters are enough. -/
def loop (source : Source) : Nat → Cursor → List Token → DiagnosticLog → Result
  | 0, c, tokens, log => finish c tokens log
  | fuel + 1, c, tokens, log =>
    if log.isFull then finish c tokens log
    else
      match c.rest with
      | [] => finish c tokens log
      | ch :: _ =>
        let p := piece source ch c
        let tokens := match p.kind with
          | some kind => ⟨kind, p.after.spanFrom c.place⟩ :: tokens
          | none => tokens
        loop source fuel p.after tokens (p.reports.foldl DiagnosticLog.push log)

/-- The tokens of a text, the end of the text last, and the faults found in it. -/
def run (source : Source) : Result :=
  let c := Cursor.ofText source.text
  loop source c.rest.length c [] .empty

end Lexer

end AmbScript
