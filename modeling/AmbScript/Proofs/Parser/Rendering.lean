import AmbScript.Proofs.Parser.Grammar

/-!
# The canonical rendering of programs

Every tree is spelled by tokens in one plain way: each expression in parentheses, each function with
the word `function`, a semicolon behind every statement that may have one.

* `Expr.inside`, …, `Program.rendering` — the tokens. Those of an expression are its inside between
  parentheses.
* `Expr.nesting`, …, `Program.nesting` — how many expressions and blocks a parser of those tokens
  has open at once. Parentheses around an operand open one expression. Where a whole expression may
  stand, it is open itself beside the one in its parentheses.
* `Expr.withoutSpans`, …, `Program.withoutSpans` — the tree alone, without its places in a text.

The rendering is made for a parser and not for readers: no precedence and no layout is used in it,
so that every tree has one, whatever its operators are. How deep the parser gets in it is a matter
of the tree alone, which is what `nesting` computes.
-/

namespace AmbScript

open Token (Kind)

-- ---------------------------------------------------------------------------
-- Tokens
-- ---------------------------------------------------------------------------

/-- Tokens in parentheses. -/
def parens (ks : List Kind) : List Kind := .symbol .openParen :: (ks ++ [.symbol .closeParen])

/-- Tokens in brackets. -/
def brackets (ks : List Kind) : List Kind := .symbol .openBracket :: (ks ++ [.symbol .closeBracket])

/-- Tokens in braces. -/
def braces (ks : List Kind) : List Kind := .symbol .openBrace :: (ks ++ [.symbol .closeBrace])

/-- What follows the parentheses follows the closing one. -/
theorem parens_append (ks rest : List Kind) :
    parens ks ++ rest = .symbol .openParen :: (ks ++ .symbol .closeParen :: rest) := by
  simp [parens]

/-- A comma, if there are items to come. -/
def comma {α : Type} : List α → List Kind
  | [] => []
  | _ => [.symbol .comma]

/-- The token of the operator. -/
def UnaryOp.symbol : UnaryOp → Symbol
  | negate => .minus
  | not => .bang

/-- The token of the operator. -/
def BinaryOp.symbol : BinaryOp → Symbol
  | equal => .equal
  | notEqual => .notEqual
  | less => .less
  | greater => .greater
  | lessEqual => .lessEqual
  | greaterEqual => .greaterEqual
  | add => .plus
  | subtract => .minus
  | multiply => .star
  | divide => .slash
  | remainder => .percent

/-- The token of the operator. -/
def LogicalOp.symbol : LogicalOp → Symbol
  | and => .and
  | or => .or

/-- The names of parameters with commas between them. -/
def renderParams : List Ident → List Kind
  | [] => []
  | name :: names => .name name.name :: (comma names ++ renderParams names)

/-- The name of a function, if it has one. -/
def renderName : Option Ident → List Kind
  | none => []
  | some name => [.name name.name]

mutual

/-- What stands between the parentheses of the expression. -/
def Expr.inside : Expr → List Kind
  | .number x _ => [.number x]
  | .string text _ => [.string text]
  | .bool b _ => [.symbol (if b then .true else .false)]
  | .null _ => [.symbol .null]
  | .undefined _ => [.symbol .undefined]
  | .array items _ => brackets (Expr.renderItems items)
  | .ident name => [.name name.name]
  | .assign target value _ => .name target.name :: .symbol .assign :: parens value.inside
  | .unary op operand _ => .symbol op.symbol :: parens operand.inside
  | .binary op left right _ => parens left.inside ++ .symbol op.symbol :: parens right.inside
  | .logical op left right _ => parens left.inside ++ .symbol op.symbol :: parens right.inside
  | .conditional test consequent alternate _ =>
    parens test.inside ++ .symbol .question ::
      (parens consequent.inside ++ .symbol .colon :: parens alternate.inside)
  | .call callee args _ => parens callee.inside ++ parens (Expr.renderItems args)
  | .index object key _ => parens object.inside ++ brackets (parens key.inside)
  | .member object property _ => parens object.inside ++ [.symbol .dot, .name property.name]
  | .function f => f.rendering

/-- Items in parentheses each, with commas between them. -/
def Expr.renderItems : List Expr → List Kind
  | [] => []
  | e :: es => parens e.inside ++ (comma es ++ Expr.renderItems es)

/-- The word `function`, the name if there is one, the parameters and the body. -/
def Function.rendering : Function → List Kind
  | .mk name params body _ =>
    .symbol .function :: (renderName name ++ (parens (renderParams params) ++ body.rendering))

/-- The statements in braces. -/
def Block.rendering : Block → List Kind
  | .mk statements _ => braces (Stmt.renderAll statements)

/-- The tokens of a statement, with a semicolon wherever one may stand. -/
def Stmt.rendering : Stmt → List Kind
  | .expr e => parens e.inside ++ [.symbol .semicolon]
  | .declare isConst name init _ =>
    .symbol (if isConst then .constDecl else .letDecl) :: .name name.name :: .symbol .assign ::
      (parens init.inside ++ [.symbol .semicolon])
  | .function f => f.rendering
  | .returns value _ => .symbol .returns :: (parens value.inside ++ [.symbol .semicolon])
  | .branch b => b.rendering
  | .block b => b.rendering
  | .whileLoop test body _ =>
    .symbol .whileLoop :: (parens (parens test.inside) ++ body.rendering)
  | .forLoop init test update body _ =>
    .symbol .forLoop :: .symbol .openParen :: (LoopInit.renderOption init ++
      (Expr.renderOption test ++ .symbol .semicolon ::
        (Expr.renderOption update ++ .symbol .closeParen :: body.rendering)))
  | .breakLoop _ => [.symbol .breakLoop, .symbol .semicolon]
  | .continueLoop _ => [.symbol .continueLoop, .symbol .semicolon]
  | .cut _ => [.symbol .cut, .symbol .semicolon]

/-- One statement behind the other. -/
def Stmt.renderAll : List Stmt → List Kind
  | [] => []
  | s :: ss => s.rendering ++ Stmt.renderAll ss

/-- The test stands in two pairs of parentheses, those of the branch and its own. -/
def Branch.rendering : Branch → List Kind
  | .mk test consequent alternate _ =>
    .symbol .ifBranch ::
      (parens (parens test.inside) ++ (consequent.rendering ++ alternate.rendering))

/-- Nothing, or the word `else` with what follows it. -/
def Alternate.rendering : Alternate → List Kind
  | .absent => []
  | .block b => .symbol .elseBranch :: b.rendering
  | .branch b => .symbol .elseBranch :: b.rendering

/-- The first part of a `for` header and the semicolon behind it. -/
def LoopInit.rendering : LoopInit → List Kind
  | .declare name init _ =>
    .symbol .letDecl :: .name name.name :: .symbol .assign ::
      (parens init.inside ++ [.symbol .semicolon])
  | .expr e => parens e.inside ++ [.symbol .semicolon]

/-- The semicolon stands in the header also without a first part. -/
def LoopInit.renderOption : Option LoopInit → List Kind
  | none => [.symbol .semicolon]
  | some i => i.rendering

/-- An optional part of a header. -/
def Expr.renderOption : Option Expr → List Kind
  | none => []
  | some e => parens e.inside

end

/-- The tokens of the expression. -/
def Expr.rendering (e : Expr) : List Kind := parens e.inside

/-- The tokens of the program, without those at the end of the text. -/
def Program.rendering (p : Program) : List Kind := Stmt.renderAll p.body.statements

/-- No token ends the text or is an arrow. -/
def Plain (ks : List Kind) : Prop := ∀ k ∈ ks, k ≠ .symbol .eof ∧ k ≠ .symbol .arrow

/-- There is no token to look at. -/
@[simp]
theorem plain_nil : Plain [] := by simp [Plain]

/-- The first token and the others are looked at one by one. -/
@[simp]
theorem plain_cons {k : Kind} {ks : List Kind} :
    Plain (k :: ks) ↔ (k ≠ .symbol .eof ∧ k ≠ .symbol .arrow) ∧ Plain ks := by
  simp [Plain]

/-- Both parts are looked at. -/
@[simp]
theorem plain_append {ks ls : List Kind} : Plain (ks ++ ls) ↔ Plain ks ∧ Plain ls :=
  List.forall_mem_append

/-- Parentheses are neither an end nor an arrow. -/
@[simp]
theorem plain_parens {ks : List Kind} : Plain (parens ks) ↔ Plain ks := by simp [parens]

@[simp]
theorem plain_brackets {ks : List Kind} : Plain (brackets ks) ↔ Plain ks := by simp [brackets]

@[simp]
theorem plain_braces {ks : List Kind} : Plain (braces ks) ↔ Plain ks := by simp [braces]

@[simp]
theorem plain_comma {α : Type} (items : List α) : Plain (comma items) := by
  cases items <;> simp [comma]

/-- Names and commas. -/
@[simp]
theorem plain_renderParams (names : List Ident) : Plain (renderParams names) := by
  induction names with
  | nil => simp [renderParams]
  | cons name names ih => simp [renderParams, ih]

/-- A name, or nothing. -/
@[simp]
theorem plain_renderName (name : Option Ident) : Plain (renderName name) := by
  cases name <;> simp [renderName]

mutual

/-- No rendering has an arrow, since every function is written with its word, and none has the end
of the text within it. The recursion is that of `Expr.inside`. -/
theorem Expr.plain_inside : (e : Expr) → Plain e.inside
  | .number _ _ | .string _ _ | .null _ | .undefined _ | .ident _ => by simp [Expr.inside]
  | .bool b _ => by cases b <;> simp [Expr.inside]
  | .array items _ => by simp [Expr.inside, Expr.plain_renderItems items]
  | .assign _ value _ => by simp [Expr.inside, value.plain_inside]
  | .unary op operand _ => by cases op <;> simp [Expr.inside, UnaryOp.symbol, operand.plain_inside]
  | .binary op left right _ => by
    cases op <;> simp [Expr.inside, BinaryOp.symbol, left.plain_inside, right.plain_inside]
  | .logical op left right _ => by
    cases op <;> simp [Expr.inside, LogicalOp.symbol, left.plain_inside, right.plain_inside]
  | .conditional test consequent alternate _ => by
    simp [Expr.inside, test.plain_inside, consequent.plain_inside, alternate.plain_inside]
  | .call callee args _ => by
    simp [Expr.inside, callee.plain_inside, Expr.plain_renderItems args]
  | .index object key _ => by simp [Expr.inside, object.plain_inside, key.plain_inside]
  | .member object _ _ => by simp [Expr.inside, object.plain_inside]
  | .function f => by simp [Expr.inside, f.plain_rendering]

/-- The items of an array or the arguments of a call. -/
theorem Expr.plain_renderItems : (es : List Expr) → Plain (Expr.renderItems es)
  | [] => by simp [Expr.renderItems]
  | e :: es => by simp [Expr.renderItems, e.plain_inside, Expr.plain_renderItems es]

/-- A function; its name and its parameters are names. -/
theorem Function.plain_rendering : (f : Function) → Plain f.rendering
  | .mk _ _ body _ => by simp [Function.rendering, body.plain_rendering]

theorem Block.plain_rendering : (b : Block) → Plain b.rendering
  | .mk statements _ => by simp [Block.rendering, Stmt.plain_renderAll statements]

/-- A statement of any kind. -/
theorem Stmt.plain_rendering : (s : Stmt) → Plain s.rendering
  | .expr e => by simp [Stmt.rendering, e.plain_inside]
  | .declare isConst _ init _ => by cases isConst <;> simp [Stmt.rendering, init.plain_inside]
  | .function f => by simp [Stmt.rendering, f.plain_rendering]
  | .returns value _ => by simp [Stmt.rendering, value.plain_inside]
  | .branch b => by simp [Stmt.rendering, b.plain_rendering]
  | .block b => by simp [Stmt.rendering, b.plain_rendering]
  | .whileLoop test body _ => by
    simp [Stmt.rendering, test.plain_inside, body.plain_rendering]
  | .forLoop init test update body _ => by
    simp [Stmt.rendering, LoopInit.plain_renderOption init, Expr.plain_renderOption test,
      Expr.plain_renderOption update, body.plain_rendering]
  | .breakLoop _ | .continueLoop _ | .cut _ => by simp [Stmt.rendering]

/-- The statements of a block. -/
theorem Stmt.plain_renderAll : (ss : List Stmt) → Plain (Stmt.renderAll ss)
  | [] => by simp [Stmt.renderAll]
  | s :: ss => by simp [Stmt.renderAll, s.plain_rendering, Stmt.plain_renderAll ss]

/-- A branch with both its blocks. -/
theorem Branch.plain_rendering : (b : Branch) → Plain b.rendering
  | .mk test consequent alternate _ => by
    simp [Branch.rendering, test.plain_inside, consequent.plain_rendering,
      alternate.plain_rendering]

/-- What follows `else`. -/
theorem Alternate.plain_rendering : (a : Alternate) → Plain a.rendering
  | .absent => by simp [Alternate.rendering]
  | .block b => by simp [Alternate.rendering, b.plain_rendering]
  | .branch b => by simp [Alternate.rendering, b.plain_rendering]

/-- The first part of a `for` header. -/
theorem LoopInit.plain_rendering : (i : LoopInit) → Plain i.rendering
  | .declare _ init _ => by simp [LoopInit.rendering, init.plain_inside]
  | .expr e => by simp [LoopInit.rendering, e.plain_inside]

/-- The first part of a header, if there is one. -/
theorem LoopInit.plain_renderOption : (i : Option LoopInit) → Plain (LoopInit.renderOption i)
  | none => by simp [LoopInit.renderOption]
  | some i => by simp [LoopInit.renderOption, i.plain_rendering]

/-- An expression of a header, if there is one. -/
theorem Expr.plain_renderOption : (e : Option Expr) → Plain (Expr.renderOption e)
  | none => by simp [Expr.renderOption]
  | some e => by simp [Expr.renderOption, e.plain_inside]

end

-- ---------------------------------------------------------------------------
-- Nesting
-- ---------------------------------------------------------------------------

mutual

/-- The expressions and blocks that are open at once inside the expression's parentheses. -/
def Expr.nesting : Expr → Nat
  | .number _ _ | .string _ _ | .bool _ _ | .null _ | .undefined _ | .ident _ => 0
  | .array items _ => Expr.itemsNesting items
  | .assign _ value _ => value.nesting + 2
  | .unary _ operand _ => operand.nesting + 1
  | .binary _ left right _ => max (left.nesting + 1) (right.nesting + 1)
  | .logical _ left right _ => max (left.nesting + 1) (right.nesting + 1)
  | .conditional test consequent alternate _ =>
    max (test.nesting + 1) (max (consequent.nesting + 2) (alternate.nesting + 2))
  | .call callee args _ => max (callee.nesting + 1) (Expr.itemsNesting args)
  | .index object key _ => max (object.nesting + 1) (key.nesting + 2)
  | .member object _ _ => object.nesting + 1
  | .function f => f.nesting

/-- The items one after the other: the deepest of them counts. -/
def Expr.itemsNesting : List Expr → Nat
  | [] => 0
  | e :: es => max (e.nesting + 2) (Expr.itemsNesting es)

/-- The parameters open nothing. -/
def Function.nesting : Function → Nat
  | .mk _ _ body _ => body.nesting

/-- The block itself is open while its statements are read. -/
def Block.nesting : Block → Nat
  | .mk statements _ => Stmt.allNesting statements + 1

/-- The expressions and blocks that are open at once in the statement. -/
def Stmt.nesting : Stmt → Nat
  | .expr e => e.nesting + 2
  | .declare _ _ init _ => init.nesting + 2
  | .function f => f.nesting
  | .returns value _ => value.nesting + 2
  | .branch b => b.nesting
  | .block b => b.nesting
  | .whileLoop test body _ => max (test.nesting + 2) body.nesting
  | .forLoop init test update body _ =>
    max (LoopInit.optionNesting init)
      (max (Expr.optionNesting test) (max (Expr.optionNesting update) body.nesting))
  | .breakLoop _ | .continueLoop _ | .cut _ => 0

/-- The deepest statement counts. -/
def Stmt.allNesting : List Stmt → Nat
  | [] => 0
  | s :: ss => max s.nesting (Stmt.allNesting ss)

/-- The test and the two blocks are read one after the other. -/
def Branch.nesting : Branch → Nat
  | .mk test consequent alternate _ =>
    max (test.nesting + 2) (max consequent.nesting alternate.nesting)

/-- What follows `else` opens nothing of its own. -/
def Alternate.nesting : Alternate → Nat
  | .absent => 0
  | .block b => b.nesting
  | .branch b => b.nesting

/-- The expression is a whole one, in parentheses. -/
def LoopInit.nesting : LoopInit → Nat
  | .declare _ init _ => init.nesting + 2
  | .expr e => e.nesting + 2

/-- The first part of a header, if there is one. -/
def LoopInit.optionNesting : Option LoopInit → Nat
  | none => 0
  | some i => i.nesting

/-- An expression of a header, if there is one. -/
def Expr.optionNesting : Option Expr → Nat
  | none => 0
  | some e => e.nesting + 2

end

/-- The deepest statement of the program. -/
def Program.nesting (p : Program) : Nat := Stmt.allNesting p.body.statements

-- ---------------------------------------------------------------------------
-- Trees without places
-- ---------------------------------------------------------------------------

/-- The name alone. -/
def Ident.withoutSpan (name : Ident) : Ident := ⟨name.name, .synthetic⟩

mutual

/-- The expression with every place in it forgotten. -/
@[simp]
def Expr.withoutSpans : Expr → Expr
  | .number x _ => .number x .synthetic
  | .string text _ => .string text .synthetic
  | .bool b _ => .bool b .synthetic
  | .null _ => .null .synthetic
  | .undefined _ => .undefined .synthetic
  | .array items _ => .array (Expr.allWithoutSpans items) .synthetic
  | .ident name => .ident name.withoutSpan
  | .assign target value _ => .assign target.withoutSpan value.withoutSpans .synthetic
  | .unary op operand _ => .unary op operand.withoutSpans .synthetic
  | .binary op left right _ => .binary op left.withoutSpans right.withoutSpans .synthetic
  | .logical op left right _ => .logical op left.withoutSpans right.withoutSpans .synthetic
  | .conditional test consequent alternate _ =>
    .conditional test.withoutSpans consequent.withoutSpans alternate.withoutSpans .synthetic
  | .call callee args _ => .call callee.withoutSpans (Expr.allWithoutSpans args) .synthetic
  | .index object key _ => .index object.withoutSpans key.withoutSpans .synthetic
  | .member object property _ => .member object.withoutSpans property.withoutSpan .synthetic
  | .function f => .function f.withoutSpans

/-- Each item without its places. -/
@[simp]
def Expr.allWithoutSpans : List Expr → List Expr
  | [] => []
  | e :: es => e.withoutSpans :: Expr.allWithoutSpans es

/-- The names and the body without their places. -/
@[simp]
def Function.withoutSpans : Function → Function
  | .mk name params body _ =>
    .mk (name.map Ident.withoutSpan) (params.map Ident.withoutSpan) body.withoutSpans .synthetic

/-- The statements without their places. -/
@[simp]
def Block.withoutSpans : Block → Block
  | .mk statements _ => .mk (Stmt.allWithoutSpans statements) .synthetic

/-- The statement with every place in it forgotten. -/
@[simp]
def Stmt.withoutSpans : Stmt → Stmt
  | .expr e => .expr e.withoutSpans
  | .declare isConst name init _ => .declare isConst name.withoutSpan init.withoutSpans .synthetic
  | .function f => .function f.withoutSpans
  | .returns value _ => .returns value.withoutSpans .synthetic
  | .branch b => .branch b.withoutSpans
  | .block b => .block b.withoutSpans
  | .whileLoop test body _ => .whileLoop test.withoutSpans body.withoutSpans .synthetic
  | .forLoop init test update body _ =>
    .forLoop (LoopInit.optionWithoutSpans init) (Expr.optionWithoutSpans test)
      (Expr.optionWithoutSpans update) body.withoutSpans .synthetic
  | .breakLoop _ => .breakLoop .synthetic
  | .continueLoop _ => .continueLoop .synthetic
  | .cut _ => .cut .synthetic

/-- Each statement without its places. -/
@[simp]
def Stmt.allWithoutSpans : List Stmt → List Stmt
  | [] => []
  | s :: ss => s.withoutSpans :: Stmt.allWithoutSpans ss

/-- The test and both blocks without their places. -/
@[simp]
def Branch.withoutSpans : Branch → Branch
  | .mk test consequent alternate _ =>
    .mk test.withoutSpans consequent.withoutSpans alternate.withoutSpans .synthetic

/-- What follows `else`, without its places. -/
@[simp]
def Alternate.withoutSpans : Alternate → Alternate
  | .absent => .absent
  | .block b => .block b.withoutSpans
  | .branch b => .branch b.withoutSpans

/-- The first part of a header, without its places. -/
@[simp]
def LoopInit.withoutSpans : LoopInit → LoopInit
  | .declare name init _ => .declare name.withoutSpan init.withoutSpans .synthetic
  | .expr e => .expr e.withoutSpans

/-- The first part of a header, if there is one. -/
@[simp]
def LoopInit.optionWithoutSpans : Option LoopInit → Option LoopInit
  | none => none
  | some i => some i.withoutSpans

/-- An expression of a header, if there is one. -/
@[simp]
def Expr.optionWithoutSpans : Option Expr → Option Expr
  | none => none
  | some e => some e.withoutSpans

end

/-- Two programs that agree in this are spelled alike. -/
def Program.withoutSpans (p : Program) : Program := ⟨p.body.withoutSpans, .synthetic⟩

end AmbScript
