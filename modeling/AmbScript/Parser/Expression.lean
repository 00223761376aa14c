import AmbScript.Parser.Level

/-!
# Rules for expressions

From loose to tight: assignment, arrow functions and `? :`, which group to the right; the binary
operators of six precedences, which group to the left; unary operators; calls, indexing and member
access; and the expressions without loose ends.

* `assignment` is the rule for a whole expression.
* `binary` climbs: it reads operators down to a threshold, which is higher for right operands.
* `binary_eq` says this without a bound on how often the threshold rises.
-/

namespace AmbScript.Parser

/-! ## Lists -/

def commaLoop (inner : Level) (close : Symbol) : Nat → List Expr → Parser (List Expr)
  | 0, done => return done.reverse
  | fuel + 1, done => do
    if ← check close then return done.reverse
    let item ← inner.expression
    -- without a comma the list is over, and the closing mark has to follow
    if ← eat .comma then commaLoop inner close fuel (item :: done)
    else return (item :: done).reverse

/-- Expressions up to and including the closing mark. A comma may follow the last one. -/
def commaList (inner : Level) (close : Symbol) : Parser (List Expr) := do
  let items ← commaLoop inner close (← rounds) []
  expect close
  return items

/-! ## Expressions without loose ends -/

/-- A literal or name that is a single token. -/
def atom? (t : Token) : Option Expr :=
  match t.kind with
  | .number x => some (.number x t.span)
  | .string s => some (.string s t.span)
  | .name s => some (.ident ⟨s, t.span⟩)
  | .symbol .true => some (.bool true t.span)
  | .symbol .false => some (.bool false t.span)
  | .symbol .null => some (.null t.span)
  | .symbol .undefined => some (.undefined t.span)
  | _ => none

/-- The name of a function expression, if it has one. -/
def functionName? : Parser (Option Ident) := do
  if (← currentKind).isName then return some (← bindingName)
  return none

def primary (inner : Level) : Parser Expr := do
  let token ← look (·.current)
  let start := token.span
  match atom? token with
  | some e =>
    let _ ← advance
    return e
  | none =>
    if ← eat .openBracket then
      let items ← commaList inner .closeBracket
      return .array items (start.merge (← previousSpan))
    -- parentheses leave no trace in the tree, not even in the span
    else if ← eat .openParen then
      let e ← inner.expression
      expect .closeParen
      return e
    else if ← eat .function then
      let name ← functionName?
      return .function (← functionRest inner name start)
    -- told apart from other misplaced keywords, which the last case reports
    else if ← check .cut then
      report .misplacedCut "'cut' can only be used as a statement"
      fail
    else
      let got := token.kind.render
      report .unexpectedToken s!"expected expression, got '{got}'"
      fail

/-! ## Calls and access -/

def postfixLoop (inner : Level) : Nat → Expr → Parser Expr
  | 0, e => return e
  | fuel + 1, e => do
    if ← eat .openParen then
      let args ← commaList inner .closeParen
      postfixLoop inner fuel (.call e args (e.span.merge (← previousSpan)))
    else if ← eat .openBracket then
      let key ← inner.expression
      expect .closeBracket
      postfixLoop inner fuel (.index e key (e.span.merge (← previousSpan)))
    else if ← eat .dot then
      let name ← identifier
      postfixLoop inner fuel (.member e name (e.span.merge name.span))
    else return e

/-- An expression without loose ends and the calls and accesses behind it. -/
def operation (inner : Level) : Parser Expr := do
  postfixLoop inner (← rounds) (← primary inner)

/-! ## Operators -/

def unaryOp? : Token.Kind → Option UnaryOp
  | .symbol .minus => some .negate
  | .symbol .bang => some .not
  | _ => none

/-- The unary operators before an operand, the innermost one first. -/
def unaryOps : Nat → List (UnaryOp × Span) → Parser (List (UnaryOp × Span))
  | 0, done => return done
  | fuel + 1, done => do
    match unaryOp? (← currentKind) with
    | some op => unaryOps fuel ((op, (← advance).span) :: done)
    | none => return done

/-- The operand with an operator before it. -/
def applyUnary (e : Expr) (op : UnaryOp × Span) : Expr := .unary op.1 e (op.2.merge e.span)

def unary (inner : Level) : Parser Expr := do
  let ops ← unaryOps (← rounds) []
  let e ← operation inner
  -- the operator read last stands next to the operand, so it is applied first
  return ops.foldl applyUnary e

/-- An operator between two operands. -/
inductive InfixOp
  | logical (op : LogicalOp)
  | binary (op : BinaryOp)
deriving DecidableEq

namespace InfixOp

/-- The operator that a token is and its precedence; a higher one binds tighter. -/
def ofKind? : Token.Kind → Option (InfixOp × Nat)
  | .symbol .or => some (logical .or, 0)
  | .symbol .and => some (logical .and, 1)
  | .symbol .equal => some (binary .equal, 2)
  | .symbol .notEqual => some (binary .notEqual, 2)
  | .symbol .less => some (binary .less, 3)
  | .symbol .greater => some (binary .greater, 3)
  | .symbol .lessEqual => some (binary .lessEqual, 3)
  | .symbol .greaterEqual => some (binary .greaterEqual, 3)
  | .symbol .plus => some (binary .add, 4)
  | .symbol .minus => some (binary .subtract, 4)
  | .symbol .star => some (binary .multiply, 5)
  | .symbol .slash => some (binary .divide, 5)
  | .symbol .percent => some (binary .remainder, 5)
  | _ => none

/-- How many precedences there are. -/
def tiers : Nat := 6

theorem lt_tiers {k : Token.Kind} {op : InfixOp} {precedence : Nat}
    (h : ofKind? k = some (op, precedence)) : precedence < tiers := by
  unfold ofKind? at h
  split at h <;> cases h <;> decide

/-- What holds at a threshold if it holds at all that lie above a precedence that reaches it, holds
at every threshold: no precedence reaches `tiers`. -/
theorem threshold_induction {motive : Nat → Prop}
    (step : ∀ least, (∀ p, least ≤ p → p < tiers → motive (p + 1)) → motive least)
    (least : Nat) : motive least := by
  induction hRoom : tiers - least using Nat.strongRecOn generalizing least with
  | ind room ih =>
    apply step
    intro p hReaches hTier
    exact ih (tiers - (p + 1)) (by omega) (p + 1) rfl

/-- The operation on two operands. -/
def apply (op : InfixOp) (left right : Expr) : Expr :=
  match op with
  | logical op => .logical op left right (left.span.merge right.span)
  | binary op => .binary op left right (left.span.merge right.span)

end InfixOp

/-- The operators behind `left` that bind at least as tightly as `least`, each with its right
operand. `operand` reads that one, up to an operator that does not reach the threshold it is
given. -/
def climbLoop (operand : Nat → Parser Expr) (least : Nat) : Nat → Expr → Parser Expr
  | 0, left => return left
  | fuel + 1, left => do
    match InfixOp.ofKind? (← currentKind) with
    | some (op, precedence) =>
      -- an operator that does not reach the threshold belongs to an expression further out
      if precedence < least then return left
      else
        let _ ← advance
        -- one more, so that another operator of the same precedence is not read as part of `right`
        let right ← operand (precedence + 1)
        climbLoop operand least fuel (op.apply left right)
    | none => return left

/-- `binary`, where the threshold may still rise so often. -/
def binaryWithin (inner : Level) : Nat → Nat → Parser Expr
  | 0, _ => unary inner
  | rises + 1, least => do
    let left ← unary inner
    climbLoop (binaryWithin inner rises) least (← rounds) left

/-- Operands joined by the operators that bind at least as tightly as `least`. Behind each of them
the threshold rises above its precedence, and from `tiers` on no operator reaches it. -/
def binary (inner : Level) (least : Nat) : Parser Expr :=
  binaryWithin inner (InfixOp.tiers - least) least

section climbing

variable {operand operand' : Nat → Parser Expr} {inner : Level} {least precedence fuel : Nat}
  {left : Expr} {op : InfixOp} {s : State}

/-- The loop ends where no operator comes next. -/
theorem climbLoop_of_none (h : InfixOp.ofKind? s.current.kind = none) :
    climbLoop operand least fuel left s = (some left, s) := by
  cases fuel with
  | zero => rfl
  | succ fuel =>
    rw [climbLoop, bind_of_some (rfl : currentKind s = (some s.current.kind, s)), h]
    rfl

/-- The loop leaves an operator alone that does not reach the threshold. -/
theorem climbLoop_of_lt (h : InfixOp.ofKind? s.current.kind = some (op, precedence))
    (hBelow : precedence < least) :
    climbLoop operand least fuel left s = (some left, s) := by
  cases fuel with
  | zero => rfl
  | succ fuel =>
    rw [climbLoop, bind_of_some (rfl : currentKind s = (some s.current.kind, s)), h]
    dsimp only
    rw [if_pos hBelow]
    rfl

/-- The loop reads an operator that reaches the threshold, and its right operand. -/
theorem climbLoop_of_le (h : InfixOp.ofKind? s.current.kind = some (op, precedence))
    (hReaches : least ≤ precedence) :
    climbLoop operand least (fuel + 1) left s =
      (operand (precedence + 1) >>= fun right =>
        climbLoop operand least fuel (op.apply left right)) s.advanced := by
  rw [climbLoop, bind_of_some (rfl : currentKind s = (some s.current.kind, s)), h]
  dsimp only
  rw [if_neg (by omega)]
  rfl

/-- Only what `operand` does above a precedence that reaches the threshold matters. -/
theorem climbLoop_congr (h : ∀ p, least ≤ p → operand (p + 1) = operand' (p + 1)) (fuel : Nat)
    (left : Expr) : climbLoop operand least fuel left = climbLoop operand' least fuel left := by
  induction fuel generalizing left with
  | zero => rfl
  | succ fuel ih =>
    funext s
    cases hOp : InfixOp.ofKind? s.current.kind with
    | none => rw [climbLoop_of_none hOp, climbLoop_of_none hOp]
    | some found =>
      obtain ⟨op, p⟩ := found
      by_cases hReaches : least ≤ p
      · rw [climbLoop_of_le hOp hReaches, climbLoop_of_le hOp hReaches, h p hReaches]
        simp only [ih]
      · have hBelow : p < least := by omega
        rw [climbLoop_of_lt hOp hBelow, climbLoop_of_lt hOp hBelow]

/-- No operator reaches a threshold above all precedences. -/
theorem climbLoop_of_tiers_le (h : InfixOp.tiers ≤ least) :
    climbLoop operand least fuel left s = (some left, s) := by
  cases hOp : InfixOp.ofKind? s.current.kind with
  | none => exact climbLoop_of_none hOp
  | some found =>
    have hTier : found.2 < InfixOp.tiers := InfixOp.lt_tiers hOp
    exact climbLoop_of_lt hOp (by omega)

/-- Above all precedences, only an operand is read. -/
theorem binaryWithin_of_tiers_le (h : InfixOp.tiers ≤ least) (rises : Nat) :
    binaryWithin inner rises least = unary inner := by
  cases rises with
  | zero => rfl
  | succ rises =>
    funext s
    rw [binaryWithin]
    match hOutcome : unary inner s with
    | (none, t) => rw [bind_of_none hOutcome]
    | (some left, t) =>
      rw [bind_of_some hOutcome, bind_of_some (rfl : rounds t = (some t.rounds, t)),
        climbLoop_of_tiers_le h]

/-- The threshold needs not rise more often than it can. -/
theorem binaryWithin_eq {rises rises' : Nat} (h : InfixOp.tiers ≤ rises + least)
    (h' : InfixOp.tiers ≤ rises' + least) :
    binaryWithin inner rises least = binaryWithin inner rises' least := by
  induction rises generalizing rises' least with
  | zero =>
    have hAbove : InfixOp.tiers ≤ least := by omega
    rw [binaryWithin_of_tiers_le hAbove, binaryWithin_of_tiers_le hAbove]
  | succ rises ih =>
    cases rises' with
    | zero =>
      have hAbove : InfixOp.tiers ≤ least := by omega
      rw [binaryWithin_of_tiers_le hAbove, binaryWithin_of_tiers_le hAbove]
    | succ rises' =>
      have hOperands (p : Nat) (hReaches : least ≤ p) :
          binaryWithin inner rises (p + 1) = binaryWithin inner rises' (p + 1) :=
        ih (by omega) (by omega)
      simp only [binaryWithin, climbLoop_congr hOperands]

/-- An operand, and behind it the operators that reach the threshold, with right operands that are
read in the same way. -/
theorem binary_eq (inner : Level) (least : Nat) :
    binary inner least = (do
      let left ← unary inner
      climbLoop (binary inner) least (← rounds) left) := by
  have hRoom : binary inner least = binaryWithin inner (InfixOp.tiers - least + 1) least :=
    binaryWithin_eq (by omega) (by omega)
  have hOperands (p : Nat) (hReaches : least ≤ p) :
      binaryWithin inner (InfixOp.tiers - least) (p + 1) = binary inner (p + 1) :=
    binaryWithin_eq (by omega) (by omega)
  rw [hRoom]
  simp only [binaryWithin, climbLoop_congr hOperands]

end climbing

/-- `test`, or `test ? consequent : alternate`. -/
def conditional (inner : Level) : Parser Expr := do
  let test ← binary inner 0
  if ← eat .question then
    let consequent ← inner.expression
    expect .colon
    -- both branches are whole expressions, hence the grouping to the right
    let alternate ← inner.expression
    return .conditional test consequent alternate (test.span.merge alternate.span)
  else return test

/-! ## Arrow functions -/

def headIs (x : Symbol) (ts : List Token) : Bool := ts.head?.any (·.kind.is x)

/-- Names, commas between them, a closing parenthesis and an arrow come next. -/
def namesThenArrow : List Token → Bool
  | name :: mark :: rest =>
    name.kind.isName &&
      (if mark.kind.is .comma then namesThenArrow rest
      else mark.kind.is .closeParen && headIs .arrow rest)
  | _ => false

/-- An arrow function starts here. -/
def State.atArrow (s : State) : Bool :=
  if s.current.kind.isName then headIs .arrow s.ahead
  else if s.current.kind.is .openParen then
    -- a parenthesis may also open an expression, so the arrow behind the list decides
    if headIs .closeParen s.ahead then headIs .arrow (s.ahead.drop 1)
    else namesThenArrow s.ahead
  else false

/-- The parameters of an arrow function: one bare name, or names in parentheses. -/
def arrowParams : Parser (List Ident) := do
  if ← eat .openParen then
    let params ← paramList
    expect .closeParen
    return params
  else return [← bindingName]

/-- The body of an arrow function: a block, or an expression that is returned. -/
def arrowBody (inner : Level) : Parser Block := do
  if ← check .openBrace then functionBody inner
  else
    let e ← inner.expression
    -- an expression is short for a block that returns it
    return .mk [.returns e e.span] e.span

def arrowFunction (inner : Level) : Parser Expr := do
  let start ← currentSpan
  let params ← arrowParams
  expect .arrow
  let body ← arrowBody inner
  return .function (.mk none params body (start.merge (← previousSpan)))

/-! ## Whole expressions -/

def assignment (inner : Level) : Parser Expr := do
  if ← look State.atArrow then arrowFunction inner
  else
    -- the target is read as an expression of any form, and turned down afterwards
    let target ← conditional inner
    if ← eat .assign then
      match target.ident? with
      | some name =>
        let value ← inner.expression
        return .assign name value (target.span.merge value.span)
      | none =>
        reportAt .invalidAssignmentTarget
          "invalid assignment target; only variables can be assigned" target.span
        fail
    else return target

end AmbScript.Parser
