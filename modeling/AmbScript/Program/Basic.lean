import AmbScript.Source.Span

/-!
# Programs

The tree of a program: expressions, statements, blocks and functions, each with its place in the
text. Parentheses leave no trace, an arrow function is a function without a name, and a bare
`return` returns `undefined`.
-/

namespace AmbScript

/-- A name and where it stands. -/
structure Ident where
  name : String
  span : Span
deriving DecidableEq, Inhabited

inductive UnaryOp
  | negate | not
deriving DecidableEq, Inhabited

inductive BinaryOp
  | equal | notEqual | less | greater | lessEqual | greaterEqual
  | add | subtract | multiply | divide | remainder
deriving DecidableEq, Inhabited

inductive LogicalOp
  | and | or
deriving DecidableEq, Inhabited

namespace UnaryOp

def spelling : UnaryOp → String
  | negate => "-"
  | not => "!"

end UnaryOp

namespace BinaryOp

def spelling : BinaryOp → String
  | equal => "==="
  | notEqual => "!=="
  | less => "<"
  | greater => ">"
  | lessEqual => "<="
  | greaterEqual => ">="
  | add => "+"
  | subtract => "-"
  | multiply => "*"
  | divide => "/"
  | remainder => "%"

end BinaryOp

namespace LogicalOp

def spelling : LogicalOp → String
  | and => "&&"
  | or => "||"

end LogicalOp

mutual

inductive Expr
  | number (x : Float) (span : Span)
  | string (text : String) (span : Span)
  | bool (b : Bool) (span : Span)
  | null (span : Span)
  | undefined (span : Span)
  | array (items : List Expr) (span : Span)
  | ident (name : Ident)
  | assign (target : Ident) (value : Expr) (span : Span)
  | unary (op : UnaryOp) (operand : Expr) (span : Span)
  | binary (op : BinaryOp) (left right : Expr) (span : Span)
  | logical (op : LogicalOp) (left right : Expr) (span : Span)
  | conditional (test consequent alternate : Expr) (span : Span)
  | call (callee : Expr) (args : List Expr) (span : Span)
  | index (object key : Expr) (span : Span)
  | member (object : Expr) (property : Ident) (span : Span)
  | function (f : Function)

/-- A function; only an anonymous one has no name. -/
inductive Function
  | mk (name : Option Ident) (params : List Ident) (body : Block) (span : Span)

/-- Statements in a scope of their own. -/
inductive Block
  | mk (statements : List Stmt) (span : Span)

inductive Stmt
  | expr (e : Expr)
  | declare (isConst : Bool) (name : Ident) (init : Expr) (span : Span)
  | function (f : Function)
  | returns (value : Expr) (span : Span)
  | branch (b : Branch)
  | block (b : Block)
  | whileLoop (test : Expr) (body : Block) (span : Span)
  | forLoop (init : Option LoopInit) (test update : Option Expr) (body : Block) (span : Span)
  | breakLoop (span : Span)
  | continueLoop (span : Span)
  /-- Commits the statements around it to the choices made so far. -/
  | cut (span : Span)

/-- `if (test) consequent else alternate`. -/
inductive Branch
  | mk (test : Expr) (consequent : Block) (alternate : Alternate) (span : Span)

/-- What follows when the test fails. -/
inductive Alternate
  | absent
  | block (b : Block)
  | branch (b : Branch)

/-- The first part of a `for` header. -/
inductive LoopInit
  | declare (name : Ident) (init : Expr) (span : Span)
  | expr (e : Expr)

end

instance : Inhabited Expr := ⟨.undefined .synthetic⟩

instance : Inhabited Block := ⟨.mk [] .synthetic⟩

instance : Inhabited Function := ⟨.mk none [] default .synthetic⟩

namespace Function

def name? : Function → Option Ident
  | mk name _ _ _ => name

def params : Function → List Ident
  | mk _ params _ _ => params

def body : Function → Block
  | mk _ _ body _ => body

def span : Function → Span
  | mk _ _ _ span => span

/-- The name that a function is shown by. -/
def displayName (f : Function) : String :=
  match f.name? with
  | some name => name.name
  | none => "anonymous"

end Function

namespace Expr

def span : Expr → Span
  | number _ s | string _ s | bool _ s | null s | undefined s | array _ s => s
  | ident name => name.span
  | assign _ _ s | unary _ _ s | binary _ _ _ s | logical _ _ _ s | conditional _ _ _ s => s
  | call _ _ s | index _ _ s | member _ _ s => s
  | function f => f.span

/-- The name that the expression is, if it is just one. -/
def ident? : Expr → Option Ident
  | ident name => some name
  | _ => none

end Expr

namespace Branch

def span : Branch → Span
  | mk _ _ _ span => span

end Branch

namespace Block

def statements : Block → List Stmt
  | mk statements _ => statements

def span : Block → Span
  | mk _ span => span

end Block

namespace Stmt

def span : Stmt → Span
  | expr e => e.span
  | declare _ _ _ s | returns _ s | whileLoop _ _ s | forLoop _ _ _ _ s => s
  | function f => f.span
  | branch b => b.span
  | block b => b.span
  | breakLoop s | continueLoop s | cut s => s

/-- The name that a statement adds to the block around it. -/
def declaredName? : Stmt → Option Ident
  | declare _ name _ _ => some name
  | function f => f.name?
  | _ => none

end Stmt

namespace Block

/-- The names declared directly in the block, in their order. -/
def declarations (b : Block) : List Ident := b.statements.filterMap Stmt.declaredName?

end Block

namespace LoopInit

/-- The statement that starts the loop. -/
def toStmt : LoopInit → Stmt
  | declare name init span => .declare false name init span
  | expr e => .expr e

/-- The names that live in the loop's own frame. -/
def declared : LoopInit → List Ident
  | declare name _ _ => [name]
  | expr _ => []

end LoopInit

/-- A program: statements in a frame of their own. -/
structure Program where
  body : Block
  span : Span
deriving Inhabited

namespace Program

/-- The text of a string literal that is the whole first statement. -/
def directive? (p : Program) : Option String :=
  match p.body.statements with
  | .expr (.string text _) :: _ => some text
  | _ => none

end Program

end AmbScript
