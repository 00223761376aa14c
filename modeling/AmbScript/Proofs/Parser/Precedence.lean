import AmbScript.Proofs.Parser.Programs

/-!
# Operators by precedence

A chain of operands with operators between them is read by one loop that calls itself for the right
operands, with a higher threshold each time. What comes of it is described without thresholds: it is
the one tree over the whole chain in which every left operand binds at least as tightly as the
operator, and every right operand more tightly.

* `Joined` — a tree over a chain; `Joined.Grouped` says that precedences are observed in it.
* `Joined.Grouped.ext` — there is one such tree over a chain at most.
* `Run` — a parser reads a chain, one operand after the other.
* `groups_climbLoop` — the loop goes on with a tree that is grouped.
* `groups_binary` — at every threshold a chain is read as long as operators reach it, and grouped.
* `binary_groups` — so from the lowest threshold on all operators are read, as far as there are any.
-/

namespace AmbScript.Parser

/-- How tightly an operator binds. -/
def InfixOp.precedence : InfixOp → Nat
  | .logical .or => 0
  | .logical .and => 1
  | .binary .equal | .binary .notEqual => 2
  | .binary .less | .binary .greater | .binary .lessEqual | .binary .greaterEqual => 3
  | .binary .add | .binary .subtract => 4
  | .binary .multiply | .binary .divide | .binary .remainder => 5

/-- The precedence that a token is known with is that of its operator. -/
theorem InfixOp.precedence_of_ofKind? {k : Token.Kind} {op : InfixOp} {p : Nat}
    (h : ofKind? k = some (op, p)) : op.precedence = p := by
  unfold ofKind? at h
  split at h <;> cases h <;> rfl

-- ---------------------------------------------------------------------------
-- Trees over chains
-- ---------------------------------------------------------------------------

/-- A chain of operands, each two of them joined by an operator. -/
inductive Joined
  | operand (e : Expr)
  | joined (left : Joined) (op : InfixOp) (right : Joined)

namespace Joined

/-- The first operand of the chain. -/
def first : Joined → Expr
  | operand e => e
  | joined left _ _ => left.first

/-- The operators of the chain, each with the operand behind it. -/
def rest : Joined → List (InfixOp × Expr)
  | operand _ => []
  | joined left op right => left.rest ++ (op, right.first) :: right.rest

/-- The expression that the tree stands for. -/
def expr : Joined → Expr
  | operand e => e
  | joined left (.logical op) right =>
    .logical op left.expr right.expr (left.expr.span.merge right.expr.span)
  | joined left (.binary op) right =>
    .binary op left.expr right.expr (left.expr.span.merge right.expr.span)

/-- Whatever is joined last is joined by an operator of precedence `n` at least. -/
def Binds (n : Nat) : Joined → Prop
  | operand _ => True
  | joined _ op _ => n ≤ op.precedence

/-- At every operator, the left operand binds at least as tightly and the right one more tightly. -/
def Grouped : Joined → Prop
  | operand _ => True
  | joined left op right =>
    left.Grouped ∧ right.Grouped ∧ left.Binds op.precedence ∧ right.Binds (op.precedence + 1)

/-- A tree over a chain stands for the operation on what its two parts stand for. -/
theorem expr_joined (left : Joined) (op : InfixOp) (right : Joined) :
    (joined left op right).expr = op.apply left.expr right.expr := by
  cases op <;> rfl

/-- What binds tightly binds less tightly, too. -/
theorem Binds.mono {m n : Nat} {tree : Joined} (h : tree.Binds n) (hLess : m ≤ n) :
    tree.Binds m := by
  cases tree with
  | operand e => trivial
  | joined left op right => exact Nat.le_trans hLess h

/-- All operators of a chain that is grouped bind as tightly as the last one that is applied. -/
theorem Grouped.le_precedence {tree : Joined} (h : tree.Grouped) {n : Nat} (hBinds : tree.Binds n) :
    ∀ x ∈ tree.rest, n ≤ x.1.precedence := by
  induction tree with
  | operand e => exact fun x hx => absurd hx List.not_mem_nil
  | joined left op right ihLeft ihRight =>
    obtain ⟨hLeft, hRight, hBindsLeft, hBindsRight⟩ := h
    have hOp : n ≤ op.precedence := hBinds
    intro x hx
    rcases List.mem_append.mp hx with hx | hx
    · exact ihLeft hLeft (hBindsLeft.mono hOp) x hx
    · rcases List.mem_cons.mp hx with rfl | hx
      · exact hOp
      · exact ihRight hRight (hBindsRight.mono (Nat.le_succ_of_le hOp)) x hx

/-- The operator applied last in one tree does not stand before the one applied last in another tree
over the same chain: it would bind less tightly than that one, and at least as tightly. -/
theorem Grouped.not_before {left right left' right' : Joined} {op op' : InfixOp}
    (h : (joined left op right).Grouped) (h' : (joined left' op' right').Grouped)
    {between : List (InfixOp × Expr)}
    (hLeft : left'.rest = left.rest ++ (op, right.first) :: between)
    (hRight : right.rest = between ++ (op', right'.first) :: right'.rest) : False := by
  obtain ⟨-, hGrouped, -, hBinds⟩ := h
  obtain ⟨hGrouped', -, hBinds', -⟩ := h'
  have hLater : op.precedence + 1 ≤ op'.precedence :=
    hGrouped.le_precedence hBinds (op', right'.first) (by rw [hRight]; simp)
  have hEarlier : op'.precedence ≤ op.precedence :=
    hGrouped'.le_precedence hBinds' (op, right.first) (by rw [hLeft]; simp)
  omega

/-- Over a chain there is one tree at most that is grouped. -/
theorem Grouped.ext {tree tree' : Joined} (h : tree.Grouped) (h' : tree'.Grouped)
    (hFirst : tree.first = tree'.first) (hRest : tree.rest = tree'.rest) : tree = tree' := by
  induction tree generalizing tree' with
  | operand e =>
    cases tree' with
    | operand e' => exact congrArg operand hFirst
    | joined left' op' right' => exact absurd hRest (by simp [rest])
  | joined left op right ihLeft ihRight =>
    cases tree' with
    | operand e' => exact absurd hRest (by simp [rest])
    | joined left' op' right' =>
      rw [first, first] at hFirst
      rw [rest, rest] at hRest
      -- which of the two operators that are applied last stands first
      rcases List.append_eq_append_iff.mp hRest with
        ⟨between, hLeft, hRight⟩ | ⟨between, hLeft, hRight⟩
      · cases between with
        | nil =>
          rw [List.nil_append] at hRight
          rw [List.append_nil] at hLeft
          obtain ⟨hOp, hTail⟩ := List.cons.inj hRight
          obtain ⟨rfl, hRightFirst⟩ := Prod.mk.inj hOp
          rw [ihLeft h.1 h'.1 hFirst hLeft.symm, ihRight h.2.1 h'.2.1 hRightFirst hTail]
        | cons x between =>
          rw [List.cons_append] at hRight
          obtain ⟨rfl, hTail⟩ := List.cons.inj hRight
          exact (h.not_before h' hLeft hTail).elim
      · cases between with
        | nil =>
          rw [List.nil_append] at hRight
          rw [List.append_nil] at hLeft
          obtain ⟨hOp, hTail⟩ := List.cons.inj hRight
          obtain ⟨rfl, hRightFirst⟩ := Prod.mk.inj hOp
          rw [ihLeft h.1 h'.1 hFirst hLeft, ihRight h.2.1 h'.2.1 hRightFirst.symm hTail.symm]
        | cons x between =>
          rw [List.cons_append] at hRight
          obtain ⟨rfl, hTail⟩ := List.cons.inj hRight
          exact (h'.not_before h hLeft hTail).elim

end Joined

-- ---------------------------------------------------------------------------
-- Chains that are read
-- ---------------------------------------------------------------------------

/-- From `s` to `t` the parser `x` reads an operand, and then, as often as there is an operator,
this and another operand. -/
inductive Run (x : Parser Expr) : State → Expr → List (InfixOp × Expr) → State → Prop
  | last {s t : State} {e : Expr} (hOperand : x s = (some e, t)) : Run x s e [] t
  | more {s m t : State} {e next : Expr} {op : InfixOp} {p : Nat} {rest : List (InfixOp × Expr)}
      (hOperand : x s = (some e, m)) (hOp : InfixOp.ofKind? m.current.kind = some (op, p))
      (hRest : Run x m.advanced next rest t) : Run x s e ((op, next) :: rest) t

namespace Run

variable {x : Parser Expr} {s m t : State} {e next : Expr} {rest rest' : List (InfixOp × Expr)}

/-- A chain, an operator and a chain behind it are one chain. -/
theorem append (h : Run x s e rest m) {op : InfixOp} {p : Nat}
    (hOp : InfixOp.ofKind? m.current.kind = some (op, p)) (h' : Run x m.advanced next rest' t) :
    Run x s e (rest ++ (op, next) :: rest') t := by
  induction h with
  | last hOperand => exact .more hOperand hOp h'
  | more hOperand hFirst _ ih => exact .more hOperand hFirst (ih hOp h')

/-- A chain behind which there is no operator is the longest one. -/
theorem longest (h : Run x s e rest t) (hEnd : InfixOp.ofKind? t.current.kind = none)
    {e' : Expr} {t' : State} (h' : Run x s e' rest' t') : e' = e ∧ rest' <+: rest := by
  -- both runs read the same operands and operators as long as both go on, and the one that has come
  -- to the end of the operators is the longer
  induction h generalizing e' rest' t' with
  | last hOperand =>
    cases h' with
    | last hOperand' =>
      rw [hOperand] at hOperand'
      cases hOperand'
      exact ⟨rfl, List.prefix_rfl⟩
    | more hOperand' hOp _ =>
      rw [hOperand] at hOperand'
      cases hOperand'
      rw [hEnd] at hOp
      cases hOp
  | more hOperand hOp _ ih =>
    cases h' with
    | last hOperand' =>
      rw [hOperand] at hOperand'
      cases hOperand'
      exact ⟨rfl, List.nil_prefix⟩
    | more hOperand' hOp' hRest' =>
      rw [hOperand] at hOperand'
      cases hOperand'
      rw [hOp] at hOp'
      cases hOp'
      obtain ⟨rfl, hPrefix⟩ := ih hEnd hRest'
      exact ⟨rfl, List.cons_prefix_cons.mpr ⟨rfl, hPrefix⟩⟩

end Run

-- ---------------------------------------------------------------------------
-- Climbing
-- ---------------------------------------------------------------------------

/-- The end of the text is no operator. -/
theorem ne_eof_of_ofKind? {k : Token.Kind} {op : InfixOp} {p : Nat}
    (h : InfixOp.ofKind? k = some (op, p)) : k ≠ .symbol .eof := by
  rintro rfl
  cases h

variable {x : Parser Expr} {text : List Token}

/-- From `s` to `t` the parser `x` reads the chain of `tree`, which is grouped: as far as there are
operators of precedence `n` at least. -/
structure Groups (x : Parser Expr) (n : Nat) (s : State) (tree : Joined) (t : State) : Prop where
  run : Run x s tree.first tree.rest t
  precedes : s.Precedes t
  grouped : tree.Grouped
  binds : tree.Binds n
  stops : ∀ op p, InfixOp.ofKind? t.current.kind = some (op, p) → p < n

/-- The loop goes on behind `left`, in the order of the text, and joins what it has read to the left
of the next operator. It may do so at every round: `left` binds at least as tightly as the operator
that comes next, because a right operand ends at an operator that binds no tighter than the one
before it. Every round reads an operator, so there are rounds enough. -/
theorem groups_climbLoop {operand : Nat → Parser Expr} {least : Nat}
    (hOperand : ∀ k, least ≤ k → k < InfixOp.tiers → ∀ (s t : State) (e : Expr), s.In text →
      operand (k + 1) s = (some e, t) → ∃ tree, Groups x (k + 1) s tree t ∧ tree.expr = e)
    {fuel : Nat} {left : Joined} {s m t : State} {e : Expr} (hm : m.In text)
    (hFuel : m.left.length < fuel) (hRun : Run x s left.first left.rest m)
    (hPrecedes : s.Precedes m) (hGrouped : left.Grouped) (hBinds : left.Binds least)
    (hNext : ∀ op p, InfixOp.ofKind? m.current.kind = some (op, p) → left.Binds p)
    (h : climbLoop operand least fuel left.expr m = (some e, t)) :
    ∃ tree, Groups x least s tree t ∧ tree.expr = e := by
  induction fuel generalizing left m with
  | zero => omega
  | succ fuel ih =>
    cases hOp : InfixOp.ofKind? m.current.kind with
    | none =>
      rw [climbLoop_of_none hOp] at h
      cases h
      refine ⟨left, ⟨hRun, hPrecedes, hGrouped, hBinds, fun op p hMore => ?_⟩, rfl⟩
      rw [hOp] at hMore
      cases hMore
    | some found =>
      obtain ⟨op, p⟩ := found
      by_cases hReaches : least ≤ p
      · rw [climbLoop_of_le hOp hReaches] at h
        obtain rfl : op.precedence = p := InfixOp.precedence_of_ofKind? hOp
        have hAdvanced : m.advanced.In text := hm.precedes (.advanced m)
        match hOutcome : operand (op.precedence + 1) m.advanced with
        | (none, u) =>
          rw [bind_of_none hOutcome] at h
          cases h
        | (some e', u) =>
          rw [bind_of_some hOutcome] at h
          obtain ⟨right, hRight, rfl⟩ :=
            hOperand op.precedence hReaches (InfixOp.lt_tiers hOp) _ _ _ hAdvanced hOutcome
          have hShorter : m.advanced.left.length < m.left.length := by
            rw [m.left_advanced, List.length_tail, m.left_eq_cons (ne_eof_of_ofKind? hOp),
              List.length_cons]
            omega
          have hLater := hRight.precedes.left.length_le
          -- the left part binds as the operator that comes next asks, the right one more tightly
          have hJoined : (Joined.joined left op right).Grouped :=
            ⟨hGrouped, hRight.grouped, hNext op _ hOp, hRight.binds⟩
          rw [← Joined.expr_joined] at h
          refine ih (hAdvanced.precedes hRight.precedes) (by omega) (hRun.append hOp hRight.run)
            ((hPrecedes.trans (.advanced m)).trans hRight.precedes) hJoined hReaches ?_ h
          intro op' p' hLast
          have hTighter := hRight.stops op' p' hLast
          show p' ≤ op.precedence
          omega
      · have hBelow : p < least := by omega
        rw [climbLoop_of_lt hOp hBelow] at h
        cases h
        refine ⟨left, ⟨hRun, hPrecedes, hGrouped, hBinds, fun op' p' hMore => ?_⟩, rfl⟩
        rw [hOp] at hMore
        cases hMore
        exact hBelow

/-- At every threshold, all operators that reach it are read and grouped. -/
theorem groups_binary {inner : Level} (hx : ∀ s : State, s.In text → s.Precedes (unary inner s).2)
    (least : Nat) (s t : State) (e : Expr) (hs : s.In text)
    (h : binary inner least s = (some e, t)) :
    ∃ tree, Groups (unary inner) least s tree t ∧ tree.expr = e := by
  -- right operands are read above the threshold, which is what the induction is on
  induction least using InfixOp.threshold_induction generalizing s t e with
  | step least ih =>
    rw [binary_eq] at h
    have hPrecedes := hx s hs
    match hOutcome : unary inner s with
    | (none, m) =>
      rw [bind_of_none hOutcome] at h
      cases h
    | (some e', m) =>
      rw [bind_of_some hOutcome, bind_of_some (rfl : rounds m = (some m.rounds, m))] at h
      rw [hOutcome] at hPrecedes
      have hm : m.In text := hs.precedes hPrecedes
      have hRun : Run (unary inner) s (Joined.operand e').first (Joined.operand e').rest m :=
        .last hOutcome
      exact groups_climbLoop ih hm hm.rounds hRun hPrecedes trivial trivial
        (fun _ _ _ => trivial) h

/-- What is read as a binary operation, or as an operand alone, is a chain of operands that goes as
far as there are operators, and the one tree over this chain in which precedences are observed. -/
theorem binary_groups {n : Nat} {s t : State} {e : Expr} (hs : s.In text)
    (h : binary (grammar n) 0 s = (some e, t)) :
    ∃ first rest, Run (unary (grammar n)) s first rest t ∧
      InfixOp.ofKind? t.current.kind = none ∧
      (∀ e' rest' t', Run (unary (grammar n)) s e' rest' t' → e' = first ∧ rest' <+: rest) ∧
      ∃ tree : Joined, tree.expr = e ∧
        ∀ other : Joined,
          (other.first = first ∧ other.rest = rest ∧ other.Grouped) ↔ other = tree := by
  have hx : ∀ s : State, s.In text → s.Precedes (unary (grammar n) s).2 := fun s hs =>
    (respects_unary (grammar_derives (fun _ _ _ => rfl) n : (grammar n).Derives true text) s
      hs).precedes
  obtain ⟨tree, hTree, rfl⟩ := groups_binary hx 0 s t e hs h
  have hEnd : InfixOp.ofKind? t.current.kind = none := by
    cases hOp : InfixOp.ofKind? t.current.kind with
    | none => rfl
    | some op => exact absurd (hTree.stops op.1 op.2 hOp) (by omega)
  refine ⟨tree.first, tree.rest, hTree.run, hEnd, fun _ _ _ => hTree.run.longest hEnd, tree, rfl,
    fun other => ⟨?_, ?_⟩⟩
  · rintro ⟨hFirst, hRest, hGrouped⟩
    exact hGrouped.ext hTree.grouped hFirst hRest
  · rintro rfl
    exact ⟨rfl, rfl, hTree.grouped⟩

/-- `a - b - c * d || e` -/
def mixedChain : List Token :=
  Token.onLine 1
    [.name "a", .symbol .minus, .name "b", .symbol .minus, .name "c", .symbol .star, .name "d",
      .symbol .or, .name "e"]

theorem mixedChain_groups :
    ∃ e t, binary (grammar 1) 0 (.ofTokens default mixedChain) = (some e, t) ∧
      ∃ first rest, Run (unary (grammar 1)) (.ofTokens default mixedChain) first rest t ∧
        InfixOp.ofKind? t.current.kind = none ∧
        (∀ e' rest' t', Run (unary (grammar 1)) (.ofTokens default mixedChain) e' rest' t' →
          e' = first ∧ rest' <+: rest) ∧
        ∃ tree : Joined, tree.expr = e ∧
          ∀ other : Joined,
            (other.first = first ∧ other.rest = rest ∧ other.Grouped) ↔ other = tree := by
  have accepted : (binary (grammar 1) 0 (.ofTokens default mixedChain)).1.isSome := by decide +kernel
  obtain ⟨e, he⟩ := Option.isSome_iff_exists.mp accepted
  have h : binary (grammar 1) 0 (.ofTokens default mixedChain) =
      (some e, (binary (grammar 1) 0 (.ofTokens default mixedChain)).2) := Prod.ext he rfl
  exact ⟨e, _, h, binary_groups (State.in_ofTokens default mixedChain) h⟩

end AmbScript.Parser
