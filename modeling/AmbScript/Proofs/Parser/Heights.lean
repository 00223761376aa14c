import AmbScript.Program.Basic

/-!
# How high trees are

The height of a tree is made up of two kinds of edges. An operand, what is called or accessed, and
the branch behind an `else if` stand at the same level of nesting as the node above them: they are
*links* of a chain. Every other part is nested deeper.

* `Expr.weigh`, …, `Block.weigh` — the longest way down, for any weights of the two kinds of edges.
* `Program.height`, `Program.links`, `Program.depth` — all edges on a way count, or those of one
  kind.
* `Program.height_bounds` — the height is that of the longest chain, give or take the depth.

One function with two weights serves for all three measures, so that the bound is a statement about
one recursion: the weight of a way is the sum of what its links and its other edges weigh.
-/

namespace AmbScript

mutual

/-- The weight of the longest way down from the expression. -/
def Expr.weigh (link nest : Nat) : Expr → Nat
  | .number _ _ | .string _ _ | .bool _ _ | .null _ | .undefined _ | .ident _ => 0
  | .array items _ => Expr.weighAll link nest items
  | .assign _ value _ => nest + value.weigh link nest
  | .unary _ operand _ => link + operand.weigh link nest
  | .binary _ left right _ | .logical _ left right _ =>
    max (link + left.weigh link nest) (link + right.weigh link nest)
  | .conditional test consequent alternate _ =>
    max (link + test.weigh link nest)
      (max (nest + consequent.weigh link nest) (nest + alternate.weigh link nest))
  | .call callee args _ => max (link + callee.weigh link nest) (Expr.weighAll link nest args)
  | .index object key _ => max (link + object.weigh link nest) (nest + key.weigh link nest)
  | .member object _ _ => link + object.weigh link nest
  | .function f => nest + f.weigh link nest

/-- The longest way down through one of the expressions, from the node that holds them. -/
def Expr.weighAll (link nest : Nat) : List Expr → Nat
  | [] => 0
  | e :: es => max (nest + e.weigh link nest) (Expr.weighAll link nest es)

/-- The body is nested in the function. -/
def Function.weigh (link nest : Nat) : Function → Nat
  | .mk _ _ body _ => nest + body.weigh link nest

/-- The longest way through one of the statements. -/
def Block.weigh (link nest : Nat) : Block → Nat
  | .mk statements _ => Stmt.weighAll link nest statements

/-- The weight of the longest way down from the statement. -/
def Stmt.weigh (link nest : Nat) : Stmt → Nat
  | .expr e => nest + e.weigh link nest
  | .declare _ _ init _ => nest + init.weigh link nest
  | .function f => nest + f.weigh link nest
  | .returns value _ => nest + value.weigh link nest
  | .branch b => nest + b.weigh link nest
  | .block b => nest + b.weigh link nest
  | .whileLoop test body _ => max (nest + test.weigh link nest) (nest + body.weigh link nest)
  | .forLoop init test update body _ =>
    max (max (LoopInit.weighOption link nest init) (Expr.weighOption link nest test))
      (max (Expr.weighOption link nest update) (nest + body.weigh link nest))
  | .breakLoop _ | .continueLoop _ | .cut _ => 0

/-- The longest way down through one of the statements, from the node that holds them. -/
def Stmt.weighAll (link nest : Nat) : List Stmt → Nat
  | [] => 0
  | s :: ss => max (nest + s.weigh link nest) (Stmt.weighAll link nest ss)

/-- The longest way down from the branch. What follows `else` counts its own edges. -/
def Branch.weigh (link nest : Nat) : Branch → Nat
  | .mk test consequent alternate _ =>
    max (nest + test.weigh link nest)
      (max (nest + consequent.weigh link nest) (alternate.weigh link nest))

/-- The longest way down through the alternative, from the branch that has it. -/
def Alternate.weigh (link nest : Nat) : Alternate → Nat
  | .absent => 0
  | .block b => nest + b.weigh link nest
  | .branch b => link + b.weigh link nest

/-- The expression is nested in the first part of the header. -/
def LoopInit.weigh (link nest : Nat) : LoopInit → Nat
  | .declare _ init _ => nest + init.weigh link nest
  | .expr e => nest + e.weigh link nest

/-- The longest way through the first part of a header, if there is one. -/
def LoopInit.weighOption (link nest : Nat) : Option LoopInit → Nat
  | none => 0
  | some i => nest + i.weigh link nest

/-- The longest way through an expression of a header, if there is one. -/
def Expr.weighOption (link nest : Nat) : Option Expr → Nat
  | none => 0
  | some e => nest + e.weigh link nest

end

section bounds

variable {link nest h : Nat}

/-- If none of the expressions is higher than `h`, the node over them is an edge higher at most. -/
theorem Expr.weighAll_le {es : List Expr} (hAll : ∀ e ∈ es, e.weigh link nest ≤ h) :
    Expr.weighAll link nest es ≤ nest + h := by
  induction es with
  | nil => exact Nat.zero_le _
  | cons e es ih =>
    obtain ⟨hFirst, hRest⟩ := List.forall_mem_cons.mp hAll
    have hMore := ih hRest
    rw [Expr.weighAll]
    omega

theorem Stmt.weighAll_le {ss : List Stmt} (hAll : ∀ s ∈ ss, s.weigh link nest ≤ h) :
    Stmt.weighAll link nest ss ≤ nest + h := by
  induction ss with
  | nil => exact Nat.zero_le _
  | cons s ss ih =>
    obtain ⟨hFirst, hRest⟩ := List.forall_mem_cons.mp hAll
    have hMore := ih hRest
    rw [Stmt.weighAll]
    omega

end bounds

-- ---------------------------------------------------------------------------
-- Both kinds of edges
-- ---------------------------------------------------------------------------

/-- With both kinds of edges the way is no shorter than with links alone, and no longer than with
either kind for itself together. -/
def Spread (w : Nat → Nat → Nat) (link nest : Nat) : Prop :=
  w link 0 ≤ w link nest ∧ w link nest ≤ w link 0 + w 0 nest

mutual

/-- The bounds hold at every node, if they hold at its parts: `max` and `+` keep them. -/
theorem Expr.spread (link nest : Nat) : (e : Expr) → Spread (fun l n => e.weigh l n) link nest
  | .number _ _ | .string _ _ | .bool _ _ | .null _ | .undefined _ | .ident _ => by
    simp [Spread, Expr.weigh]
  | .array items _ => by
    -- each case from its parts: a construct weighs a link more than its heaviest part, or a nest
    have hItems := Expr.spreadAll link nest items
    simpa only [Spread, Expr.weigh] using hItems
  | .assign _ value _ => by
    have hValue := value.spread link nest
    simp only [Spread, Expr.weigh] at *
    omega
  | .unary _ operand _ => by
    have hOperand := operand.spread link nest
    simp only [Spread, Expr.weigh] at *
    omega
  | .binary _ left right _ | .logical _ left right _ => by
    have hLeft := left.spread link nest
    have hRight := right.spread link nest
    simp only [Spread, Expr.weigh] at *
    omega
  | .conditional test consequent alternate _ => by
    have hTest := test.spread link nest
    have hConsequent := consequent.spread link nest
    have hAlternate := alternate.spread link nest
    simp only [Spread, Expr.weigh] at *
    omega
  | .call callee args _ => by
    have hCallee := callee.spread link nest
    have hArgs := Expr.spreadAll link nest args
    simp only [Spread, Expr.weigh] at *
    omega
  | .index object key _ => by
    have hObject := object.spread link nest
    have hKey := key.spread link nest
    simp only [Spread, Expr.weigh] at *
    omega
  | .member object _ _ => by
    have hObject := object.spread link nest
    simp only [Spread, Expr.weigh] at *
    omega
  | .function f => by
    have hFunction := f.spread link nest
    simp only [Spread, Expr.weigh] at *
    omega

theorem Expr.spreadAll (link nest : Nat) :
    (es : List Expr) → Spread (fun l n => Expr.weighAll l n es) link nest
  | [] => by simp [Spread, Expr.weighAll]
  | e :: es => by
    have hFirst := e.spread link nest
    have hRest := Expr.spreadAll link nest es
    simp only [Spread, Expr.weighAll] at *
    omega

theorem Function.spread (link nest : Nat) :
    (f : Function) → Spread (fun l n => f.weigh l n) link nest
  | .mk _ _ body _ => by
    have hBody := body.spread link nest
    simp only [Spread, Function.weigh] at *
    omega

theorem Block.spread (link nest : Nat) : (b : Block) → Spread (fun l n => b.weigh l n) link nest
  | .mk statements _ => by
    have hStatements := Stmt.spreadAll link nest statements
    simpa only [Spread, Block.weigh] using hStatements

theorem Stmt.spread (link nest : Nat) : (s : Stmt) → Spread (fun l n => s.weigh l n) link nest
  | .expr e => by
    have hExpr := e.spread link nest
    simp only [Spread, Stmt.weigh] at *
    omega
  | .declare _ _ init _ => by
    have hInit := init.spread link nest
    simp only [Spread, Stmt.weigh] at *
    omega
  | .function f => by
    have hFunction := f.spread link nest
    simp only [Spread, Stmt.weigh] at *
    omega
  | .returns value _ => by
    have hValue := value.spread link nest
    simp only [Spread, Stmt.weigh] at *
    omega
  | .branch b => by
    have hBranch := b.spread link nest
    simp only [Spread, Stmt.weigh] at *
    omega
  | .block b => by
    have hBlock := b.spread link nest
    simp only [Spread, Stmt.weigh] at *
    omega
  | .whileLoop test body _ => by
    have hTest := test.spread link nest
    have hBody := body.spread link nest
    simp only [Spread, Stmt.weigh] at *
    omega
  | .forLoop init test update body _ => by
    -- a part that is absent weighs nothing
    have hInit := LoopInit.spreadOption link nest init
    have hTest := Expr.spreadOption link nest test
    have hUpdate := Expr.spreadOption link nest update
    have hBody := body.spread link nest
    simp only [Spread, Stmt.weigh] at *
    omega
  | .breakLoop _ | .continueLoop _ | .cut _ => by simp [Spread, Stmt.weigh]

theorem Stmt.spreadAll (link nest : Nat) :
    (ss : List Stmt) → Spread (fun l n => Stmt.weighAll l n ss) link nest
  | [] => by simp [Spread, Stmt.weighAll]
  | s :: ss => by
    have hFirst := s.spread link nest
    have hRest := Stmt.spreadAll link nest ss
    simp only [Spread, Stmt.weighAll] at *
    omega

theorem Branch.spread (link nest : Nat) : (b : Branch) → Spread (fun l n => b.weigh l n) link nest
  | .mk test consequent alternate _ => by
    have hTest := test.spread link nest
    have hConsequent := consequent.spread link nest
    have hAlternate := alternate.spread link nest
    simp only [Spread, Branch.weigh] at *
    omega

theorem Alternate.spread (link nest : Nat) :
    (a : Alternate) → Spread (fun l n => a.weigh l n) link nest
  | .absent => by simp [Spread, Alternate.weigh]
  | .block b => by
    have hBlock := b.spread link nest
    simp only [Spread, Alternate.weigh] at *
    omega
  | .branch b => by
    have hBranch := b.spread link nest
    simp only [Spread, Alternate.weigh] at *
    omega

theorem LoopInit.spread (link nest : Nat) :
    (i : LoopInit) → Spread (fun l n => i.weigh l n) link nest
  | .declare _ init _ => by
    have hInit := init.spread link nest
    simp only [Spread, LoopInit.weigh] at *
    omega
  | .expr e => by
    have hExpr := e.spread link nest
    simp only [Spread, LoopInit.weigh] at *
    omega

theorem LoopInit.spreadOption (link nest : Nat) :
    (i : Option LoopInit) → Spread (fun l n => LoopInit.weighOption l n i) link nest
  | none => by simp [Spread, LoopInit.weighOption]
  | some i => by
    have hInit := i.spread link nest
    simp only [Spread, LoopInit.weighOption] at *
    omega

theorem Expr.spreadOption (link nest : Nat) :
    (e : Option Expr) → Spread (fun l n => Expr.weighOption l n e) link nest
  | none => by simp [Spread, Expr.weighOption]
  | some e => by
    have hExpr := e.spread link nest
    simp only [Spread, Expr.weighOption] at *
    omega

end

namespace Program

/-- How many edges the longest way down has, from the block of the program. -/
def height (p : Program) : Nat := p.body.weigh 1 1

/-- How many links there are at most on a way down. -/
def links (p : Program) : Nat := p.body.weigh 1 0

/-- How many steps into a deeper level there are at most on a way down. -/
def depth (p : Program) : Nat := p.body.weigh 0 1

/-- The height is that of the longest chain, give or take the depth. -/
theorem height_bounds (p : Program) : p.links ≤ p.height ∧ p.height ≤ p.links + p.depth :=
  p.body.spread 1 1

end Program

end AmbScript
