import AmbScript.Source.Span
import AmbScript.Decimal.Text
import AmbScript.Text.Quoted

/-!
# Tokens

The words of a program: literals, names, and a fixed stock of keywords and marks.

* `Symbol.spelling` gives the one text of a keyword or mark; `Symbol.ofKeyword?` finds a keyword
  by its text.
* `Token.Kind.render` is the text of a token in messages.
-/

namespace AmbScript

/-- The tokens whose text never varies. -/
inductive Symbol
  -- keywords
  | function | letDecl | constDecl | returns | ifBranch | elseBranch | whileLoop | forLoop
  | breakLoop | continueLoop | cut | true | false | null | undefined
  -- operators
  | plus | minus | star | slash | percent | equal | notEqual | less | greater | lessEqual
  | greaterEqual | bang | and | or | assign | arrow | question
  -- punctuation
  | openParen | closeParen | openBrace | closeBrace | openBracket | closeBracket | comma | colon
  | semicolon | dot
  /-- The end of the text. -/
  | eof
deriving DecidableEq, Inhabited

namespace Symbol

def spelling : Symbol → String
  | function => "function"
  | letDecl => "let"
  | constDecl => "const"
  | returns => "return"
  | ifBranch => "if"
  | elseBranch => "else"
  | whileLoop => "while"
  | forLoop => "for"
  | breakLoop => "break"
  | continueLoop => "continue"
  | cut => "cut"
  | true => "true"
  | false => "false"
  | null => "null"
  | undefined => "undefined"
  | plus => "+"
  | minus => "-"
  | star => "*"
  | slash => "/"
  | percent => "%"
  | equal => "==="
  | notEqual => "!=="
  | less => "<"
  | greater => ">"
  | lessEqual => "<="
  | greaterEqual => ">="
  | bang => "!"
  | and => "&&"
  | or => "||"
  | assign => "="
  | arrow => "=>"
  | question => "?"
  | openParen => "("
  | closeParen => ")"
  | openBrace => "\x7b"
  | closeBrace => "\x7d"
  | openBracket => "["
  | closeBracket => "]"
  | comma => ","
  | colon => ":"
  | semicolon => ";"
  | dot => "."
  | eof => "end of file"

/-- The reserved words. The names `amb` and `require` are not among them. -/
def keywords : List Symbol :=
  [function, letDecl, constDecl, returns, ifBranch, elseBranch, whileLoop, forLoop, breakLoop,
    continueLoop, cut, true, false, null, undefined]

/-- Operators and punctuation, no mark before a longer one that it begins. -/
def marks : List Symbol :=
  [equal, notEqual, arrow, lessEqual, greaterEqual, and, or, plus, minus, star, slash, percent,
    less, greater, bang, assign, question, openParen, closeParen, openBrace, closeBrace,
    openBracket, closeBracket, comma, colon, semicolon, dot]

def isKeyword (s : Symbol) : Bool := keywords.contains s

/-- The reserved word of that text. -/
def ofKeyword? (word : String) : Option Symbol := keywords.find? (·.spelling == word)

theorem ofKeyword?_spelling {s : Symbol} (h : s ∈ keywords) : ofKeyword? s.spelling = some s := by
  revert s
  decide

end Symbol

namespace Token

/-- What a token is. -/
inductive Kind
  | number (x : Float)
  /-- A string literal, with its escapes decoded. -/
  | string (contents : String)
  | name (text : String)
  | symbol (s : Symbol)
deriving Inhabited

/-- Numbers in messages: the shortest digits and the sign of a zero. -/
def numberStyle : Decimal.Style := ⟨"inf", "NaN", true, false⟩

namespace Kind

/-- The token is this keyword or mark. -/
def is (k : Kind) (s : Symbol) : Bool :=
  match k with
  | symbol t => t == s
  | _ => false

/-- The name that the token is, if it is one. -/
def name? : Kind → Option String
  | name text => some text
  | _ => none

def isName (k : Kind) : Bool := k.name?.isSome

/-- The text of a token in messages. -/
def render : Kind → String
  | number x => Decimal.text numberStyle x
  | string s => Text.quoted s
  | name s => s
  | symbol s => s.spelling

end Kind

end Token

/-- A token and the place of its text. -/
structure Token where
  kind : Token.Kind
  span : Span
deriving Inhabited

namespace Token

/-- The token that closes every token list. -/
def eof (span : Span) : Token := ⟨.symbol .eof, span⟩

end Token

end AmbScript
