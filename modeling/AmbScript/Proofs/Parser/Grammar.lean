import AmbScript.Parser.Statement

/-!
# The grammar of programs

Which tokens spell which tree, apart from any way of reading them. A derivation goes from one
place of a text to another and reads every token between them once.

* `Place.Ends` — where a statement may end.
* `Phrase.Derives` — the tokens between two places spell a phrase. The strict grammar is
  `Derives false`. The lenient one takes a line break for the semicolon behind the `let` of a `for`
  header.
* `Phrase.Derives.length_le` — what must be spelled by a token is.
* `Expr.Valid`, …, `Program.Valid` — the rules of a program that are not a matter of its tokens:
  where a jump may stand and what may be declared.
* `Phrase.Derives.valid` — what the grammar derives keeps those rules.

A place has the token before it besides the tokens behind it, since the end of a statement depends
on the lines that both stand on. Spans are part of what is derived, so that a tree has its places
from the tokens that spell it.
-/

namespace AmbScript

namespace Token.Kind

/-- The test for a symbol finds just that symbol. -/
theorem is_iff {k : Kind} {x : Symbol} : k.is x = Bool.true ↔ k = .symbol x := by
  cases k <;> simp [Kind.is]

/-- It fails for every other kind. -/
theorem is_eq_false {k : Kind} {x : Symbol} : k.is x = Bool.false ↔ k ≠ .symbol x := by
  rw [← Bool.not_eq_true, is_iff]

/-- The test for a name finds names with any text. -/
theorem isName_iff {k : Kind} : k.isName = Bool.true ↔ ∃ text, k = .name text := by
  cases k <;> simp [Kind.isName, Kind.name?]

end Token.Kind

namespace Parser

-- ---------------------------------------------------------------------------
-- Places
-- ---------------------------------------------------------------------------

/-- A place between two tokens of a text. -/
structure Place where
  /-- Where the token before it stands. -/
  previous : Span
  /-- The tokens behind it, without the end of the text. -/
  left : List Token

namespace Place

/-- What the next token is. -/
def kind (p : Place) : Token.Kind :=
  match p.left with
  | [] => .symbol .eof
  | t :: _ => t.kind

/-- The one token between the two places is a `k`. -/
def Reads (p : Place) (k : Token.Kind) (q : Place) : Prop :=
  p.left = ⟨k, q.previous⟩ :: q.left

/-- The next token stands on a later line than the one before. -/
def AtLineBreak (p : Place) : Prop :=
  ∃ t ∈ p.left.head?, p.previous.stop.line < t.span.start.line

/-- Where a statement ends without a semicolon. -/
def MayEnd (p : Place) : Prop :=
  p.left = [] ∨ p.kind = .symbol .closeBrace ∨ p.AtLineBreak

/-- The end of a statement: a semicolon, or nothing where it may be left out. -/
def Ends (p q : Place) : Prop :=
  p.Reads (.symbol .semicolon) q ∨ p.kind ≠ .symbol .semicolon ∧ p.MayEnd ∧ q = p

/-- A name that may be declared. -/
def Binds (p : Place) (name : Ident) (q : Place) : Prop :=
  p.Reads (.name name.name) q ∧ name.span = q.previous ∧ name.name ∉ reservedNames

/-- The word `function` and a name: a declaration, also where an expression may stand. -/
def Declares (p : Place) : Prop :=
  ∃ m q name, p.Reads (.symbol .function) m ∧ m.Reads (.name name) q

/-- The token that is read is the next one. -/
theorem Reads.kind {p q : Place} {k : Token.Kind} (h : p.Reads k q) : p.kind = k := by
  simp [Place.kind, show p.left = _ from h]

/-- One token fewer is left behind it. -/
@[grind →]
theorem Reads.length {p q : Place} {k : Token.Kind} (h : p.Reads k q) :
    q.left.length + 1 = p.left.length := by
  simp [show p.left = _ from h]

/-- The end of a statement may be one token or none. -/
@[grind →]
theorem Ends.length {p q : Place} (h : p.Ends q) : q.left.length ≤ p.left.length := by
  rcases h with h | ⟨-, -, rfl⟩
  · have := h.length
    omega
  · omega

end Place

/-- Names with commas between them, all of which may be declared. -/
inductive Names : List Ident → Place → Place → Prop
  | one {name : Ident} {p q : Place} (h : p.Binds name q) : Names [name] p q
  | more {name : Ident} {names : List Ident} {p m r q : Place} (h : p.Binds name m)
      (comma : m.Reads (.symbol .comma) r) (rest : Names names r q) : Names (name :: names) p q

/-- Parameters: none, or names that differ. -/
inductive Params : List Ident → Place → Place → Prop
  | none (p : Place) : Params [] p p
  | some {names : List Ident} {p q : Place} (h : Names names p q)
      (distinct : (names.map (·.name)).Nodup) : Params names p q

-- ---------------------------------------------------------------------------
-- Derivations
-- ---------------------------------------------------------------------------

/-- The operator that a token is, if it has this precedence. -/
def InfixOp.ofTier? (precedence : Nat) (k : Token.Kind) : Option InfixOp :=
  match ofKind? k with
  | some (op, p) => if p = precedence then some op else none
  | none => none

/-- An operator is one of its own precedence. -/
theorem InfixOp.ofTier?_of_ofKind? {precedence : Nat} {k : Token.Kind} {op : InfixOp}
    (h : ofKind? k = some (op, precedence)) : ofTier? precedence k = some op := by
  rw [ofTier?, h]
  exact if_pos rfl

/-- How tightly an expression binds that may stand at some place. -/
inductive Rank
  /-- Without loose ends. -/
  | primary
  | operation
  /-- Joined by the operators of the `n` tightest precedences. -/
  | tier (n : Nat)
  | conditional
  | whole

namespace Rank

/-- The next tighter rank. -/
def tighter? : Rank → Option Rank
  | primary => none
  | operation => some primary
  | tier 0 => some operation
  | tier (n + 1) => some (tier n)
  | conditional => some (tier InfixOp.tiers)
  | whole => some conditional

end Rank

/-- What tokens may spell. -/
inductive Phrase
  | expr (r : Rank) (e : Expr)
  /-- Expressions with commas between them; one may follow the last. -/
  | items (es : List Expr)
  /-- A function from its parameters on, with the place where it starts. -/
  | function (start : Span) (name : Option Ident) (f : Function)
  /-- The body of an arrow function. -/
  | body (b : Block)
  | block (pl : Placement) (b : Block)
  | stmts (pl : Placement) (ss : List Stmt)
  | stmt (pl : Placement) (s : Stmt)
  /-- What a declaration declares, behind its keyword. -/
  | binding (name : Ident) (init : Expr)
  /-- A test between parentheses. -/
  | condition (e : Expr)
  | branch (pl : Placement) (b : Branch)
  | alternate (pl : Placement) (a : Alternate)
  /-- The first part of a `for` header with what separates it from the second. -/
  | init (i : Option LoopInit)
  /-- An expression that may be missing, and the mark that closes it. -/
  | optional (close : Symbol) (e : Option Expr)

namespace Phrase

/-- The tokens between two places spell the phrase. -/
inductive Derives (lenient : Bool) : Phrase → Place → Place → Prop
  -- expressions without loose ends
  | atom {p q : Place} {k : Token.Kind} {e : Expr} (token : p.Reads k q)
      (value : atom? ⟨k, q.previous⟩ = some e) : Derives lenient (.expr .primary e) p q
  | parens {p m r q : Place} {e : Expr} (opening : p.Reads (.symbol .openParen) m)
      (inner : Derives lenient (.expr .whole e) m r) (closing : r.Reads (.symbol .closeParen) q) :
      Derives lenient (.expr .primary e) p q
  | array {p m r q : Place} {es : List Expr} (opening : p.Reads (.symbol .openBracket) m)
      (items : Derives lenient (.items es) m r) (closing : r.Reads (.symbol .closeBracket) q) :
      Derives lenient (.expr .primary (.array es (m.previous.merge q.previous))) p q
  | namedFunction {p m r q : Place} {name : Ident} {f : Function}
      (keyword : p.Reads (.symbol .function) m) (binds : m.Binds name r)
      (rest : Derives lenient (.function m.previous (some name) f) r q) :
      Derives lenient (.expr .primary (.function f)) p q
  | anonymousFunction {p m q : Place} {f : Function} (keyword : p.Reads (.symbol .function) m)
      (rest : Derives lenient (.function m.previous none f) m q) :
      Derives lenient (.expr .primary (.function f)) p q
  -- the looser ranks
  | looser {r r' : Rank} {p q : Place} {e : Expr} (tighter : r.tighter? = some r')
      (inner : Derives lenient (.expr r' e) p q) : Derives lenient (.expr r e) p q
  | call {p m r s q : Place} {e : Expr} {es : List Expr}
      (callee : Derives lenient (.expr .operation e) p m)
      (opening : m.Reads (.symbol .openParen) r) (args : Derives lenient (.items es) r s)
      (closing : s.Reads (.symbol .closeParen) q) :
      Derives lenient (.expr .operation (.call e es (e.span.merge q.previous))) p q
  | index {p m r s q : Place} {e key : Expr} (object : Derives lenient (.expr .operation e) p m)
      (opening : m.Reads (.symbol .openBracket) r) (inner : Derives lenient (.expr .whole key) r s)
      (closing : s.Reads (.symbol .closeBracket) q) :
      Derives lenient (.expr .operation (.index e key (e.span.merge q.previous))) p q
  | member {p m r q : Place} {e : Expr} {name : String}
      (object : Derives lenient (.expr .operation e) p m) (dot : m.Reads (.symbol .dot) r)
      (property : r.Reads (.name name) q) :
      Derives lenient
        (.expr .operation (.member e ⟨name, q.previous⟩ (e.span.merge q.previous))) p q
  | unary {p m q : Place} {k : Token.Kind} {op : UnaryOp} {e : Expr} (token : p.Reads k m)
      (isOp : unaryOp? k = some op) (operand : Derives lenient (.expr (.tier 0) e) m q) :
      Derives lenient (.expr (.tier 0) (.unary op e (m.previous.merge e.span))) p q
  | joined {p m r q : Place} {n : Nat} {k : Token.Kind} {op : InfixOp} {a b : Expr}
      (left : Derives lenient (.expr (.tier (n + 1)) a) p m) (token : m.Reads k r)
      (isOp : InfixOp.ofTier? (InfixOp.tiers - 1 - n) k = some op)
      (right : Derives lenient (.expr (.tier n) b) r q) :
      Derives lenient (.expr (.tier (n + 1)) (op.apply a b)) p q
  | conditional {p a b c d q : Place} {t x y : Expr}
      (test : Derives lenient (.expr (.tier InfixOp.tiers) t) p a)
      (question : a.Reads (.symbol .question) b) (consequent : Derives lenient (.expr .whole x) b c)
      (colon : c.Reads (.symbol .colon) d) (alternate : Derives lenient (.expr .whole y) d q) :
      Derives lenient (.expr .conditional (.conditional t x y (t.span.merge y.span))) p q
  | assign {p m r q : Place} {name : Ident} {e : Expr}
      (target : Derives lenient (.expr .conditional (.ident name)) p m)
      (mark : m.Reads (.symbol .assign) r) (value : Derives lenient (.expr .whole e) r q) :
      Derives lenient (.expr .whole (.assign name e (name.span.merge e.span))) p q
  -- arrow functions
  | bareArrow {p m r q : Place} {name : Ident} {b : Block} (param : p.Binds name m)
      (arrow : m.Reads (.symbol .arrow) r) (body : Derives lenient (.body b) r q) :
      Derives lenient
        (.expr .whole (.function (.mk none [name] b (m.previous.merge q.previous)))) p q
  | arrow {p m r s t q : Place} {names : List Ident} {b : Block}
      (opening : p.Reads (.symbol .openParen) m) (params : Params names m r)
      (closing : r.Reads (.symbol .closeParen) s) (arrow : s.Reads (.symbol .arrow) t)
      (body : Derives lenient (.body b) t q) :
      Derives lenient
        (.expr .whole (.function (.mk none names b (m.previous.merge q.previous)))) p q
  | blockBody {p q : Place} {b : Block} (h : Derives lenient (.block .function b) p q) :
      Derives lenient (.body b) p q
  | exprBody {p q : Place} {e : Expr} (h : Derives lenient (.expr .whole e) p q) :
      Derives lenient (.body (.mk [.returns e e.span] e.span)) p q
  -- lists and functions
  | noItems (p : Place) : Derives lenient (.items []) p p
  | lastItem {p q : Place} {e : Expr} (item : Derives lenient (.expr .whole e) p q) :
      Derives lenient (.items [e]) p q
  | moreItems {p m r q : Place} {e : Expr} {es : List Expr}
      (item : Derives lenient (.expr .whole e) p m) (comma : m.Reads (.symbol .comma) r)
      (rest : Derives lenient (.items es) r q) : Derives lenient (.items (e :: es)) p q
  | function {p m r s q : Place} {start : Span} {name : Option Ident} {names : List Ident}
      {b : Block} (opening : p.Reads (.symbol .openParen) m) (params : Params names m r)
      (closing : r.Reads (.symbol .closeParen) s)
      (body : Derives lenient (.block .function b) s q) :
      Derives lenient (.function start name (.mk name names b (start.merge q.previous))) p q
  -- blocks
  | block {pl : Placement} {p m r q : Place} {ss : List Stmt}
      (opening : p.Reads (.symbol .openBrace) m) (statements : Derives lenient (.stmts pl ss) m r)
      (closing : r.Reads (.symbol .closeBrace) q) :
      Derives lenient (.block pl (.mk ss (m.previous.merge q.previous))) p q
  | noStmts (pl : Placement) (p : Place) : Derives lenient (.stmts pl []) p p
  | straySemicolon {pl : Placement} {p m q : Place} {ss : List Stmt}
      (stray : p.Reads (.symbol .semicolon) m) (rest : Derives lenient (.stmts pl ss) m q) :
      Derives lenient (.stmts pl ss) p q
  | moreStmts {pl : Placement} {p m q : Place} {s : Stmt} {ss : List Stmt}
      (first : Derives lenient (.stmt pl s) p m) (rest : Derives lenient (.stmts pl ss) m q) :
      Derives lenient (.stmts pl (s :: ss)) p q
  -- statements
  | expr {pl : Placement} {p m q : Place} {e : Expr} (undeclared : ¬p.Declares)
      (expr : Derives lenient (.expr .whole e) p m) (ends : m.Ends q) :
      Derives lenient (.stmt pl (.expr e)) p q
  | letDecl {pl : Placement} {p m r q : Place} {name : Ident} {e : Expr}
      (keyword : p.Reads (.symbol .letDecl) m) (binding : Derives lenient (.binding name e) m r)
      (ends : r.Ends q) :
      Derives lenient (.stmt pl (.declare false name e (m.previous.merge r.previous))) p q
  | constDecl {pl : Placement} {p m r q : Place} {name : Ident} {e : Expr}
      (keyword : p.Reads (.symbol .constDecl) m) (binding : Derives lenient (.binding name e) m r)
      (ends : r.Ends q) :
      Derives lenient (.stmt pl (.declare true name e (m.previous.merge r.previous))) p q
  | binding {p m r q : Place} {name : Ident} {e : Expr} (binds : p.Binds name m)
      (mark : m.Reads (.symbol .assign) r) (init : Derives lenient (.expr .whole e) r q) :
      Derives lenient (.binding name e) p q
  | functionDecl {pl : Placement} {p m r q : Place} {name : Ident} {f : Function}
      (keyword : p.Reads (.symbol .function) m) (binds : m.Binds name r)
      (rest : Derives lenient (.function m.previous (some name) f) r q) :
      Derives lenient (.stmt pl (.function f)) p q
  | bareReturn {pl : Placement} {p m q : Place} (placed : pl.inFunction = true)
      (keyword : p.Reads (.symbol .returns) m) (ends : m.Ends q) :
      Derives lenient
        (.stmt pl (.returns (.undefined m.previous) (m.previous.merge m.previous))) p q
  | returns {pl : Placement} {p m r q : Place} {e : Expr} (placed : pl.inFunction = true)
      (keyword : p.Reads (.symbol .returns) m) (sameLine : ¬m.MayEnd)
      (value : Derives lenient (.expr .whole e) m r) (ends : r.Ends q) :
      Derives lenient (.stmt pl (.returns e (m.previous.merge r.previous))) p q
  | branchStmt {pl : Placement} {p q : Place} {b : Branch}
      (branch : Derives lenient (.branch pl b) p q) : Derives lenient (.stmt pl (.branch b)) p q
  | blockStmt {pl : Placement} {p q : Place} {b : Block}
      (block : Derives lenient (.block pl b) p q) : Derives lenient (.stmt pl (.block b)) p q
  | whileLoop {pl : Placement} {p m r q : Place} {e : Expr} {b : Block}
      (keyword : p.Reads (.symbol .whileLoop) m) (test : Derives lenient (.condition e) m r)
      (body : Derives lenient (.block pl.loop b) r q) :
      Derives lenient (.stmt pl (.whileLoop e b (m.previous.merge q.previous))) p q
  | forLoop {pl : Placement} {p m r s t u q : Place} {i : Option LoopInit}
      {test update : Option Expr} {b : Block} (keyword : p.Reads (.symbol .forLoop) m)
      (opening : m.Reads (.symbol .openParen) r) (init : Derives lenient (.init i) r s)
      (second : Derives lenient (.optional .semicolon test) s t)
      (third : Derives lenient (.optional .closeParen update) t u)
      (body : Derives lenient (.block pl.loop b) u q) :
      Derives lenient (.stmt pl (.forLoop i test update b (m.previous.merge q.previous))) p q
  | breakLoop {pl : Placement} {p m q : Place} (placed : pl.inLoop = true)
      (keyword : p.Reads (.symbol .breakLoop) m) (ends : m.Ends q) :
      Derives lenient (.stmt pl (.breakLoop m.previous)) p q
  | continueLoop {pl : Placement} {p m q : Place} (placed : pl.inLoop = true)
      (keyword : p.Reads (.symbol .continueLoop) m) (ends : m.Ends q) :
      Derives lenient (.stmt pl (.continueLoop m.previous)) p q
  | cut {pl : Placement} {p m q : Place} (keyword : p.Reads (.symbol .cut) m) (ends : m.Ends q) :
      Derives lenient (.stmt pl (.cut m.previous)) p q
  -- branches
  | condition {p m r q : Place} {e : Expr} (opening : p.Reads (.symbol .openParen) m)
      (test : Derives lenient (.expr .whole e) m r) (closing : r.Reads (.symbol .closeParen) q) :
      Derives lenient (.condition e) p q
  | branch {pl : Placement} {p m r s q : Place} {e : Expr} {b : Block} {a : Alternate}
      (keyword : p.Reads (.symbol .ifBranch) m) (test : Derives lenient (.condition e) m r)
      (consequent : Derives lenient (.block pl b) r s)
      (alternate : Derives lenient (.alternate pl a) s q) :
      Derives lenient (.branch pl (.mk e b a (m.previous.merge q.previous))) p q
  | noAlternate (pl : Placement) (p : Place) : Derives lenient (.alternate pl .absent) p p
  | otherwise {pl : Placement} {p m q : Place} {b : Block}
      (keyword : p.Reads (.symbol .elseBranch) m) (block : Derives lenient (.block pl b) m q) :
      Derives lenient (.alternate pl (.block b)) p q
  | elseIf {pl : Placement} {p m q : Place} {b : Branch}
      (keyword : p.Reads (.symbol .elseBranch) m) (branch : Derives lenient (.branch pl b) m q) :
      Derives lenient (.alternate pl (.branch b)) p q
  -- the header of a `for` loop
  | noInit {p q : Place} (separator : p.Reads (.symbol .semicolon) q) :
      Derives lenient (.init none) p q
  | letInit {p m r q : Place} {name : Ident} {e : Expr} (keyword : p.Reads (.symbol .letDecl) m)
      (binding : Derives lenient (.binding name e) m r)
      (separator : r.Reads (.symbol .semicolon) q) :
      Derives lenient (.init (some (.declare name e (m.previous.merge r.previous)))) p q
  | brokenInit {p m q : Place} {name : Ident} {e : Expr} (allowed : lenient = true)
      (keyword : p.Reads (.symbol .letDecl) m) (binding : Derives lenient (.binding name e) m q)
      (noSeparator : q.kind ≠ .symbol .semicolon) (omitted : q.MayEnd) :
      Derives lenient (.init (some (.declare name e (m.previous.merge q.previous)))) p q
  | exprInit {p m q : Place} {e : Expr} (init : Derives lenient (.expr .whole e) p m)
      (separator : m.Reads (.symbol .semicolon) q) : Derives lenient (.init (some (.expr e))) p q
  | absent {p q : Place} {close : Symbol} (closing : p.Reads (.symbol close) q) :
      Derives lenient (.optional close none) p q
  | present {p m q : Place} {close : Symbol} {e : Expr}
      (inner : Derives lenient (.expr .whole e) p m) (closing : m.Reads (.symbol close) q) :
      Derives lenient (.optional close (some e)) p q

/-- The fewest tokens that a phrase is spelled with. -/
def least : Phrase → Nat
  | items _ | stmts _ _ | alternate _ _ => 0
  | _ => 1

end Phrase

end Parser

-- ---------------------------------------------------------------------------
-- The rules of a program
-- ---------------------------------------------------------------------------

/-- A name that may be declared. -/
def Ident.Declarable (name : Ident) : Prop := name.name ∉ Parser.reservedNames

/-- Parameters may be declared and differ. -/
def ValidParams (params : List Ident) : Prop :=
  (∀ name ∈ params, name.Declarable) ∧ (params.map (·.name)).Nodup

open AmbScript.Parser (Placement)

mutual

/-- All functions in the expression keep the rules. -/
def Expr.Valid : Expr → Prop
  | .number _ _ | .string _ _ | .bool _ _ | .null _ | .undefined _ | .ident _ => True
  | .array items _ => Expr.AllValid items
  | .assign _ value _ => value.Valid
  | .unary _ operand _ => operand.Valid
  | .binary _ left right _ => left.Valid ∧ right.Valid
  | .logical _ left right _ => left.Valid ∧ right.Valid
  | .conditional test consequent alternate _ =>
    test.Valid ∧ consequent.Valid ∧ alternate.Valid
  | .call callee args _ => callee.Valid ∧ Expr.AllValid args
  | .index object key _ => object.Valid ∧ key.Valid
  | .member object _ _ => object.Valid
  | .function f => f.Valid

/-- All of the expressions keep the rules. -/
def Expr.AllValid : List Expr → Prop
  | [] => True
  | e :: es => e.Valid ∧ Expr.AllValid es

/-- Its name and its parameters may be declared, the parameters differ, and its body keeps the rules
of a function body. -/
def Function.Valid : Function → Prop
  | .mk name params body _ =>
    (∀ n ∈ name, n.Declarable) ∧ ValidParams params ∧ body.Valid .function

/-- The statements of the block may stand in a block at this place. -/
def Block.Valid : Block → Placement → Prop
  | .mk statements _, pl => Stmt.AllValid statements pl

/-- The statement may stand at this place. -/
def Stmt.Valid : Stmt → Placement → Prop
  | .expr e, _ => e.Valid
  | .declare _ name init _, _ => name.Declarable ∧ init.Valid
  | .function f, _ => f.name?.isSome = true ∧ f.Valid
  | .returns value _, pl => pl.inFunction = true ∧ value.Valid
  | .branch b, pl => b.Valid pl
  | .block b, pl => b.Valid pl
  | .whileLoop test body _, pl => test.Valid ∧ body.Valid pl.loop
  | .forLoop init test update body _, pl =>
    LoopInit.ValidOption init ∧ Expr.ValidOption test ∧ Expr.ValidOption update ∧ body.Valid pl.loop
  | .breakLoop _, pl => pl.inLoop = true
  | .continueLoop _, pl => pl.inLoop = true
  | .cut _, _ => True

/-- All of the statements may stand at this place. -/
def Stmt.AllValid : List Stmt → Placement → Prop
  | [], _ => True
  | s :: ss, pl => s.Valid pl ∧ Stmt.AllValid ss pl

/-- Both blocks of the branch may stand at this place. -/
def Branch.Valid : Branch → Placement → Prop
  | .mk test consequent alternate _, pl => test.Valid ∧ consequent.Valid pl ∧ alternate.Valid pl

/-- So may what follows `else`. -/
def Alternate.Valid : Alternate → Placement → Prop
  | .absent, _ => True
  | .block b, pl => b.Valid pl
  | .branch b, pl => b.Valid pl

/-- The first part of a header keeps the rules. -/
def LoopInit.Valid : LoopInit → Prop
  | .declare name init _ => name.Declarable ∧ init.Valid
  | .expr e => e.Valid

/-- The same, if there is one. -/
def LoopInit.ValidOption : Option LoopInit → Prop
  | none => True
  | some i => i.Valid

/-- An expression of a header keeps the rules, if there is one. -/
def Expr.ValidOption : Option Expr → Prop
  | none => True
  | some e => e.Valid

end

/-- Every `return` is in a function body and every `break` or `continue` in a loop body of its
function, and whatever is declared may be declared. -/
def Program.Valid (p : Program) : Prop := p.body.Valid .program

namespace Parser

/-- A name that is declared may be declared. -/
theorem Place.Binds.declarable {p q : Place} {name : Ident} (h : p.Binds name q) :
    name.Declarable := h.2.2

theorem Names.declarable {names : List Ident} {p q : Place} (h : Names names p q) :
    ∀ name ∈ names, name.Declarable := by
  induction h with
  | one h =>
    intro n hn
    rw [List.mem_singleton.mp hn]
    exact h.declarable
  | more h _ _ ih =>
    intro n hn
    rcases List.mem_cons.mp hn with rfl | hn
    · exact h.declarable
    · exact ih n hn

/-- Parameters that are read keep the rules. -/
theorem Params.valid {names : List Ident} {p q : Place} (h : Params names p q) :
    ValidParams names := by
  cases h with
  | none => exact ⟨by simp, by simp⟩
  | some h distinct => exact ⟨h.declarable, distinct⟩

/-- A name that is declared is one token. -/
@[grind →]
theorem Place.Binds.length {p q : Place} {name : Ident} (h : p.Binds name q) :
    q.left.length + 1 = p.left.length := h.1.length

/-- Names are as many tokens at least. -/
theorem Names.length_le {names : List Ident} {p q : Place} (h : Names names p q) :
    q.left.length ≤ p.left.length := by
  induction h with
  | one h =>
    have := h.length
    omega
  | more h comma _ ih =>
    have := h.length
    have := comma.length
    omega

@[grind →]
theorem Params.length_le {names : List Ident} {p q : Place} (h : Params names p q) :
    q.left.length ≤ p.left.length := by
  cases h with
  | none => omega
  | some h => exact h.length_le

namespace Phrase

/-- What the phrase stands for keeps the rules of a program. -/
def Valid : Phrase → Prop
  | expr _ e => e.Valid
  | items es => Expr.AllValid es
  | function _ name f => f.name? = name ∧ ((∀ n ∈ name, n.Declarable) → f.Valid)
  | body b => b.Valid .function
  | block pl b => b.Valid pl
  | stmts pl ss => Stmt.AllValid ss pl
  | stmt pl s => s.Valid pl
  | binding name e => name.Declarable ∧ e.Valid
  | condition e => e.Valid
  | branch pl b => b.Valid pl
  | alternate pl a => a.Valid pl
  | init i => LoopInit.ValidOption i
  | optional _ e => Expr.ValidOption e

/-- An expression of one token has nothing in it that could break a rule. -/
theorem valid_atom {t : Token} {e : Expr} (h : atom? t = some e) : e.Valid := by
  unfold atom? at h
  split at h <;> cases h <;> simp only [Expr.Valid]

/-- An operation keeps the rules if its operands do. -/
theorem valid_apply {op : InfixOp} {a b : Expr} (ha : a.Valid) (hb : b.Valid) :
    (op.apply a b).Valid := by
  cases op <;> exact ⟨ha, hb⟩

/-- What the grammar derives keeps the rules of a program. -/
theorem Derives.valid {lenient : Bool} {ph : Phrase} {p q : Place} (h : ph.Derives lenient p q) :
    ph.Valid := by
  induction h with
  | atom _ value => exact valid_atom value
  | namedFunction _ binds _ ih =>
    exact ih.2 fun _ hn => Option.mem_some.mp hn ▸ binds.declarable
  | anonymousFunction _ _ ih => exact ih.2 (by simp)
  | joined _ _ _ _ iha ihb => exact valid_apply iha ihb
  | bareArrow param _ _ ih =>
    exact ⟨by simp, ⟨by simp [param.declarable], by simp⟩, ih⟩
  | arrow _ params _ _ _ ih => exact ⟨by simp, params.valid, ih⟩
  | exprBody _ ih => exact ⟨⟨rfl, ih⟩, trivial⟩
  | function _ params _ _ ih => exact ⟨rfl, fun declarable => ⟨declarable, params.valid, ih⟩⟩
  | binding binds _ _ ih => exact ⟨binds.declarable, ih⟩
  | functionDecl _ binds _ ih =>
    exact ⟨by simp [ih.1], ih.2 fun _ hn => Option.mem_some.mp hn ▸ binds.declarable⟩
  | bareReturn placed => exact ⟨placed, trivial⟩
  | returns placed _ _ _ _ ih => exact ⟨placed, ih⟩
  | breakLoop placed => exact placed
  | continueLoop placed => exact placed
  | _ => simp_all only [Valid, Expr.Valid, Expr.AllValid, Block.Valid, Stmt.Valid, Stmt.AllValid,
      Branch.Valid, Alternate.Valid, LoopInit.Valid, LoopInit.ValidOption, Expr.ValidOption,
      and_self]

/-- A derivation reads as many tokens as its phrase has at least. -/
theorem Derives.length_le {lenient : Bool} {ph : Phrase} {p q : Place}
    (h : ph.Derives lenient p q) : q.left.length + ph.least ≤ p.left.length := by
  induction h <;> simp only [least] at * <;> grind

end Phrase

end Parser

end AmbScript
