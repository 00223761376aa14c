import AmbScript.Proofs.Course.Cuts
import AmbScript.Proofs.Course.Enumerations

/-!
# Lists of expressions

What the combinations of the values of a list of expressions are, told by what each expression
does; and that the machine, which keeps a stack of the searches that are open and another one of the
values that they have found, finds just these, in the same order.

* `Course.product` — every value of the first expression is gone on from, one after the other.
* `combined`, `gathered_product` — the combinations, as nested loops over the values.
* `pairwise_combined` — no combination comes twice, and the first item varies slowest.
* `Machine.pursues_product` — the machine finds these combinations.
* `Moment.Combining`, `Moment.Turns` — where the two stacks stand, and what can come next.
* `Search.product_law` — what the results of a list of expressions are.

The order is proved by numbering the values of each expression as they are found. That a number is
carried along makes no difference to the search (`combined_numbered`), and rows of numbers can be
compared where the values themselves may well be equal.
-/

namespace AmbScript

open Machine Eval Course

variable {ε α β : Type}

-- ---------------------------------------------------------------------------
-- Combinations of courses
-- ---------------------------------------------------------------------------

/-- What a list of expressions does, the values of the expressions before it being there already,
the last one first. A value of the first expression goes on to the expressions behind it, which are
started anew, and all their combinations come before its next value. When the list has come to its
end `otherwise` is to be done. -/
def Course.product (child : ε → Context → Course α) :
    List ε → List α → (Context → Course (List α)) → Context → Course (List α)
  | [], values, otherwise, c => .result values.reverse c otherwise
  | e :: rest, values, otherwise, c =>
    (child e c).each otherwise fun v d again => product child rest (v :: values) again d

namespace Course

/-- What a loop over the results of a course collects: each result is asked for in the context that
the body of the loop leaves for the one before. Nothing, if there is a fault or the course is not
known to its end. -/
def gather (body : α → Context → Option (List β × Context)) :
    Course α → Option (List β × Context)
  | .unknown => none
  | .done c => some ([], c)
  | .fault _ _ => none
  | .result item c next => do
    let (first, d) ← body item c
    let (others, e) ← (next d).gather body
    return (first ++ others, e)

/-- All results of a course, each asked for in the context that the one before leaves. -/
def gathered (P : Course α) : Option (List α × Context) := P.gather fun item c => some ([item], c)

/-- The results with their numbers, counted from `n`. -/
def numbered (n : Nat) : Course α → Course (Nat × α)
  | .unknown => .unknown
  | .done c => .done c
  | .fault t c => .fault t c
  | .result item c next => .result (n, item) c fun c' => (next c').numbered (n + 1)

end Course

/-- The combinations of the values of a list of expressions, as loops inside of loops: the outermost
one is over the values of the first expression. -/
def combined (child : ε → Context → Course α) :
    List ε → Context → Option (List (List α) × Context)
  | [], c => some ([[]], c)
  | e :: rest, c => (child e c).gather fun v d =>
    (combined child rest d).map fun (rows, d') => (rows.map (v :: ·), d')

/-- Asked for one result after the other, the list of expressions finds the combinations. -/
theorem gathered_product_append (child : ε → Context → Course α) (es : List ε) (values : List α)
    (otherwise : Context → Course (List α)) (c : Context) :
    (product child es values otherwise c).gathered = (do
      let (rows, d) ← combined child es c
      let (others, d') ← (otherwise d).gathered
      return (rows.map (values.reverse ++ ·) ++ others, d')) := by
  induction es generalizing values otherwise c with
  | nil => simp [product, combined, gathered, gather]
  | cons e rest ih =>
    rw [product, combined]
    induction child e c with
    | unknown => rfl
    | done d =>
      rw [each, gather]
      cases h : (otherwise d).gathered <;> simp [h]
    | fault t d => rfl
    -- The rows that begin with this value come first, then those with the values that follow it.
    | result v d next ihNext =>
      rw [each, gather, ih]
      cases combined child rest d with
      | none => rfl
      | some found =>
        simp only [Option.bind_eq_bind, Option.bind_some, Option.map_some, ihNext]
        generalize (next found.2).gather _ = others
        cases others with
        | none => rfl
        | some others => simp [Function.comp_def, Option.bind_assoc]

/-- From the first expression on, these are all the combinations. -/
theorem gathered_product (child : ε → Context → Course α) (es : List ε) (c : Context) :
    (product child es [] .done c).gathered = combined child es c := by
  rw [gathered_product_append]
  cases h : combined child es c <;> simp [gathered, gather]

-- ---------------------------------------------------------------------------
-- The order of the combinations
-- ---------------------------------------------------------------------------

/-- What a loop over numbered results collects, if its body forgets the numbers. -/
theorem Course.gather_numbered (body : α → Context → Option (List β × Context)) (n : Nat)
    (P : Course α) :
    (P.numbered n).gather (fun item c => body item.2 c) = P.gather body := by
  induction P generalizing n with
  | unknown => rfl
  | done c => rfl
  | fault t c => rfl
  | result item c next ih =>
    rw [numbered, gather, gather]
    simp only [ih]

/-- To change each row is to change all that is collected. -/
theorem Course.gather_map {γ : Type} (g : β → γ) (body : α → Context → Option (List β × Context))
    (P : Course α) :
    P.gather (fun item c => (body item c).map fun (rows, d) => (rows.map g, d)) =
      (P.gather body).map fun (rows, d) => (rows.map g, d) := by
  induction P with
  | unknown => rfl
  | done c => rfl
  | fault t c => rfl
  | result item c next ih =>
    rw [gather, gather]
    cases body item c with
    | none => rfl
    | some found =>
      simp only [Option.map_some, Option.bind_eq_bind, Option.bind_some, ih]
      cases (next found.2).gather body <;> simp

/-- The combinations of numbered values are the combinations. -/
theorem combined_numbered (child : ε → Context → Course α) (es : List ε) (c : Context) :
    (combined (fun e c => (child e c).numbered 0) es c).map
        (fun (rows, d) => (rows.map (·.map Prod.snd), d)) = combined child es c := by
  induction es generalizing c with
  | nil => rfl
  | cons e rest ih =>
    rw [combined, combined, ← gather_map (List.map Prod.snd), ← gather_numbered _ 0 (child e c)]
    refine congrArg (fun body => gather body _) (funext fun v => funext fun d => ?_)
    rw [← ih, Option.map_map, Option.map_map]
    simp [Function.comp_def]

/-- What a loop over numbered results collects is a row of items for every one of them, in their
order. -/
theorem Course.pairwise_gather {r : β → β → Prop} {q : Nat → β → Prop}
    {body : Nat × α → Context → Option (List β × Context)}
    (hBody : ∀ item c rows d, body item c = some (rows, d) →
      rows.Pairwise r ∧ ∀ row ∈ rows, q item.1 row)
    (hLess : ∀ n m a b, n < m → q n a → q m b → r a b)
    {n : Nat} {P : Course α} {rows : List β} {d : Context}
    (h : (P.numbered n).gather body = some (rows, d)) :
    rows.Pairwise r ∧ ∀ row ∈ rows, ∃ m, n ≤ m ∧ q m row := by
  -- by induction on the course: the rows of one result are in order among themselves, and their
  -- number is less than that of all later ones
  induction P generalizing n rows d with
  | unknown => cases h
  | done c =>
    cases h
    exact ⟨.nil, fun _ hRow => absurd hRow List.not_mem_nil⟩
  | fault t c => cases h
  | result item c next ih =>
    rw [numbered, gather] at h
    obtain ⟨⟨first, d₁⟩, hFirst, h⟩ := Option.bind_eq_some_iff.mp h
    obtain ⟨⟨others, d₂⟩, hOthers, h⟩ := Option.bind_eq_some_iff.mp h
    cases h
    obtain ⟨hOrdered, hRows⟩ := hBody _ _ _ _ hFirst
    obtain ⟨hOrdered', hRows'⟩ := ih _ hOthers
    refine ⟨List.pairwise_append.mpr ⟨hOrdered, hOrdered', fun a ha b hb => ?_⟩, fun row hRow => ?_⟩
    · obtain ⟨m, hLe, hb⟩ := hRows' b hb
      exact hLess n m a b (by omega) (hRows a ha) hb
    · rcases List.mem_append.mp hRow with hRow | hRow
      · exact ⟨n, Nat.le_refl n, hRows row hRow⟩
      · obtain ⟨m, hLe, hRow⟩ := hRows' row hRow
        exact ⟨m, by omega, hRow⟩

/-- The numbers of the values grow in lexicographic order: no combination comes twice, and the first
item varies slowest. -/
theorem pairwise_combined (child : ε → Context → Course α) {es : List ε} {c d : Context}
    {rows : List (List (Nat × α))}
    (h : combined (fun e c => (child e c).numbered 0) es c = some (rows, d)) :
    rows.Pairwise fun a b => List.Lex (· < ·) (a.map Prod.fst) (b.map Prod.fst) := by
  induction es generalizing c d rows with
  | nil =>
    cases h
    exact List.pairwise_singleton _ _
  | cons e rest ih =>
    refine (pairwise_gather (q := fun n row => (row.map Prod.fst).head? = some n)
      (fun v d rows d' hBody => ?_) (fun n m a b hLess ha hb => ?_) h).1
    · obtain ⟨⟨rows', e'⟩, hRest, hRows⟩ := Option.map_eq_some_iff.mp hBody
      cases hRows
      exact ⟨List.pairwise_map.mpr ((ih hRest).imp fun hLex => .cons hLex),
        List.forall_mem_map.mpr fun _ _ => rfl⟩
    -- Rows with different first numbers are ordered by these, whatever comes after.
    · obtain ⟨as, ha⟩ := List.head?_eq_some_iff.mp ha
      obtain ⟨bs, hb⟩ := List.head?_eq_some_iff.mp hb
      rw [ha, hb]
      exact .rel hLess

-- ---------------------------------------------------------------------------
-- The machine finds the combinations
-- ---------------------------------------------------------------------------

/-- What comes when the operands that are open are asked again, the last one first. -/
structure Machine.Retakes (clock : Nat) (otherwise : Context → Course (List Value))
    (operands : List Operand) (values : List Value) : Prop where
  resumed (c : Context) (stack : Stack .tuple) :
    Pursues (k := .tuple) (otherwise c) clock stack (.ok (pullOperand operands values stack) c)
  ended (h : allExhausted operands = true) (c : Context) : otherwise c = .done c

namespace Machine

variable {clock : Nat} {child : Expr → Context → Course Value}

/-- The operand that found a value last goes on, and those before it when it has come to its end. -/
theorem retakes_cons {otherwise again : Context → Course (List Value)} {rest : List Expr}
    {s : Search .value} {below : List Operand} {values : List Value}
    (hBelow : allExhausted below = true → ∀ c, otherwise c = .done c)
    (hEnded : s.isExhausted = true → ∀ c, again c = otherwise c)
    (hAgain : ∀ c stack, Pursues (k := .tuple) (again c) clock stack
      (.ok (pull s (.push (.operand rest below values) stack)) c)) :
    Retakes clock again (.mk rest s :: below) values := by
  refine ⟨hAgain, fun h c => ?_⟩
  rw [allExhausted, Operand.isExhausted, Bool.and_eq_true] at h
  rw [hEnded h.1, hBelow h.2]

/-- From the value of an operand on, the machine does what the expressions behind it do. Of the
operands that are open it is only known what they do when they are asked again. -/
theorem pursues_fillOperand
    (hChild : ∀ e c stack,
      Pursues (k := .value) (child e c) clock stack (launch e.start stack c))
    (rest : List Expr) {s : Search .value} {below : List Operand} {values : List Value} (v : Value)
    {otherwise : Context → Course (List Value)}
    (h : Retakes clock otherwise (.mk rest s :: below) values) (c : Context)
    (stack : Stack .tuple) :
    Pursues (k := .tuple) (product child rest (v :: values) otherwise c) clock stack
      (fillOperand (.mk rest s) below values v stack c) := by
  -- What comes when the operand has no more values is `otherwise`; each value of the next operand
  -- makes it what comes after that value.
  induction rest generalizing clock s below values v otherwise c stack with
  | nil =>
    refine .atResult (fun hExhausted => h.ended ?_) fun c' stack' => ?_
    · rwa [Search.isExhausted] at hExhausted
    · exact .of_step (Nat.lt_succ_self _) (h.resumed c' stack')
  | cons e rest ih =>
    refine .each (p := .operand rest (.mk (e :: rest) s :: below) (v :: values))
      (fun s' d stack => ?_) (fun clock' w s' d again stack hClock hEnded hAgain => ?_)
      (hChild e c _)
    · exact .of_step (Nat.lt_succ_self _) (h.resumed d stack)
    · exact .of_step (Nat.lt_succ_self _)
        (ih (fun e c stack => (hChild e c stack).mono hClock) w
          (retakes_cons h.ended hEnded hAgain) d stack)

/-- The machine finds the combinations of the values of the expressions. -/
theorem pursues_product
    (hChild : ∀ e c stack,
      Pursues (k := .value) (child e c) clock stack (launch e.start stack c))
    (es : List Expr) (c : Context) (stack : Stack .tuple) :
    Pursues (k := .tuple) (product child es [] .done c) clock stack
      (.ok (pull (.product es) stack) c) := by
  refine .of_step (Nat.lt_succ_self _) ?_
  cases es with
  | nil => exact .atResult (fun _ _ => rfl) fun c' _ => .of_step (Nat.lt_succ_self _) .atEnd
  | cons e rest =>
    refine .each (p := .operand rest [] []) (fun s d stack => ?_)
      (fun clock' v s d again stack hClock hEnded hAgain => ?_) (hChild e c _)
    · exact .of_step (Nat.lt_succ_self _) .atEnd
    · exact .of_step (Nat.lt_succ_self _)
        (pursues_fillOperand (fun e c stack => (hChild e c stack).mono hClock) rest v
          (retakes_cons (fun _ _ => rfl) hEnded hAgain) d stack)

end Machine

-- ---------------------------------------------------------------------------
-- The two stacks
-- ---------------------------------------------------------------------------

/-- The open searches are those of the first expressions, the last one first: behind each stand the
expressions that follow it. -/
def Operand.Aligned (es : List Expr) : List Operand → Prop
  | [] => True
  | .mk rest _ :: below => (∃ e, es.drop below.length = e :: rest) ∧ Operand.Aligned es below

namespace Moment

/-- The last one of the open searches is asked for a value; these are the values that are there. -/
def Pulls (x : Moment .tuple) (operands : List Operand) (values : List Value) : Prop :=
  ∃ rest s below, operands = .mk rest s :: below ∧
    x.machine = pull s (.push (.operand rest below values) x.stack)

/-- Where a list of expressions is. But for one, as many values are there as searches are open. -/
inductive Combining (es : List Expr) : Moment .tuple → Prop
  | begun (stack : Stack .tuple) (c : Context) : Combining es ⟨stack, pull (.product es) stack, c⟩
  /-- The search that was opened last is at work. -/
  | atWork {k : Kind} (walk : Walk k) (segment : Segment k .value) (s : Search .value)
      (rest : List Expr) (below : List Operand) (values : List Value) (stack : Stack .tuple)
      (c : Context) (h : Operand.Aligned es (.mk rest s :: below))
      (hValues : values.length = below.length) :
      Combining es ⟨stack, ⟨k, walk, segment.onto (.push (.operand rest below values) stack)⟩, c⟩
  | asked (operands : List Operand) (values : List Value) (stack : Stack .tuple) (c : Context)
      (h : Operand.Aligned es operands) (hValues : values.length = operands.length - 1) :
      Combining es ⟨stack, pull (.producing operands values) stack, c⟩
  | replied (reply : Reply .tuple) (operands : List Operand) (values : List Value)
      (stack : Stack .tuple) (c : Context) (hReply : reply.rest = .producing operands values)
      (h : Operand.Aligned es operands) (hValues : values.length = operands.length - 1) :
      Combining es ⟨stack, reply.machine stack, c⟩

/-- All that can come next while a list of expressions is in use. A search is started for the first
expression in the beginning and else only for the expression behind one that has found a value, each
time that it has. -/
inductive Turns (es : List Expr) : Moment .tuple → Moment .tuple → Prop
  /-- Of no expressions there is one combination. -/
  | nothing (stack : Stack .tuple) (c : Context) (h : es = []) :
      Turns es ⟨stack, pull (.product es) stack, c⟩
        ⟨stack, found (k := .tuple) [] (.producing [] []) stack, c⟩
  | first (e : Expr) (rest : List Expr) (s : Search .value) (stack : Stack .tuple) (c d : Context)
      (h : es = e :: rest) (hStart : e.start c = .ok s d) :
      Turns es ⟨stack, pull (.product es) stack, c⟩
        ⟨stack, pull s (.push (.operand rest [] []) stack), d⟩
  /-- The search that was opened last is at work. -/
  | inside {k k' : Kind} (walk : Walk k) (walk' : Walk k') (segment : Segment k .value)
      (segment' : Segment k' .value) (rest : List Expr) (below : List Operand)
      (values : List Value) (stack : Stack .tuple) (c d : Context)
      (hAbove : (Stack.push (.operand rest below values) stack).height <
        level ⟨k, walk, segment.onto (.push (.operand rest below values) stack)⟩) :
      Turns es ⟨stack, ⟨k, walk, segment.onto (.push (.operand rest below values) stack)⟩, c⟩
        ⟨stack, ⟨k', walk', segment'.onto (.push (.operand rest below values) stack)⟩, d⟩
  /-- It has found a value, and the next expression is started. -/
  | next (e : Expr) (rest : List Expr) (v : Value) (s s' : Search .value) (below : List Operand)
      (values : List Value) (stack : Stack .tuple) (c d : Context)
      (h : es.drop (below.length + 1) = e :: rest) (hStart : e.start c = .ok s' d) :
      Turns es ⟨stack, found (k := .value) v s (.push (.operand (e :: rest) below values) stack), c⟩
        ⟨stack, pull s' (.push (.operand rest (.mk (e :: rest) s :: below) (v :: values)) stack), d⟩
  /-- It has found a value for the last expression. -/
  | complete (v : Value) (s : Search .value) (below : List Operand) (values : List Value)
      (stack : Stack .tuple) (c : Context) (h : es.length = below.length + 1) :
      Turns es ⟨stack, found (k := .value) v s (.push (.operand [] below values) stack), c⟩
        ⟨stack, found (k := .tuple) (v :: values).reverse (.producing (.mk [] s :: below) values)
          stack, c⟩
  /-- It has no more values, and the search before it is asked, whose value is given up. -/
  | back (rest rest' : List Expr) (s s' : Search .value) (below : List Operand) (v : Value)
      (values : List Value) (stack : Stack .tuple) (c : Context) :
      Turns es
        ⟨stack, drained s (.push (.operand rest (.mk rest' s' :: below) (v :: values)) stack), c⟩
        ⟨stack, pull s' (.push (.operand rest' below values) stack), c⟩
  /-- The first search has no more values. -/
  | over (rest : List Expr) (s : Search .value) (stack : Stack .tuple) (c : Context) :
      Turns es ⟨stack, drained s (.push (.operand rest [] []) stack), c⟩
        ⟨stack, drained (.producing [] []) stack, c⟩
  /-- The next combination is asked for. -/
  | again (reply : Reply .tuple) (operands : List Operand) (values : List Value)
      (stack stack' : Stack .tuple) (c c' : Context)
      (hReply : reply.rest = .producing operands values) :
      Turns es ⟨stack, reply.machine stack, c⟩
        ⟨stack', pull (.producing operands values) stack', c'⟩
  | resumed (rest : List Expr) (s : Search .value) (below : List Operand) (values : List Value)
      (stack : Stack .tuple) (c : Context) :
      Turns es ⟨stack, pull (.producing (.mk rest s :: below) values) stack, c⟩
        ⟨stack, pull s (.push (.operand rest below values) stack), c⟩
  | ended (stack : Stack .tuple) (c : Context) :
      Turns es ⟨stack, pull (.producing [] []) stack, c⟩
        ⟨stack, drained (.producing [] []) stack, c⟩

variable {es : List Expr}

/-- The search that was opened last has found a value. -/
theorem Combining.fillOperand {rest : List Expr} {s : Search .value} {below : List Operand}
    {values : List Value} (h : Operand.Aligned es (.mk rest s :: below))
    (hValues : values.length = below.length) (v : Value) {stack : Stack .tuple} {m : Machine}
    {c d : Context} (hStep : Machine.fillOperand (.mk rest s) below values v stack c = .ok m d) :
    Combining es ⟨stack, m, d⟩ ∧
      Turns es ⟨stack, found (k := .value) v s (.push (.operand rest below values) stack), c⟩
        ⟨stack, m, d⟩ := by
  have hFilled : (v :: values).length = below.length + 1 := by
    rw [List.length_cons, hValues]
  obtain ⟨⟨e, hDrop⟩, -⟩ := id h
  -- the operands below are aligned, so what is still to come follows them in the expressions
  have hRest : es.drop (below.length + 1) = rest := by
    rw [← List.drop_drop, hDrop]
    rfl
  cases rest with
  | nil =>
    cases hStep
    have hLength : es.length = below.length + 1 := by
      have := congrArg List.length hDrop
      simp only [List.length_drop, List.length_cons, List.length_nil] at this
      omega
    exact ⟨.replied (.found (v :: values).reverse (.producing (.mk [] s :: below) values))
      _ values stack c rfl h hValues, .complete v s below values stack c hLength⟩
  | cons next rest =>
    obtain ⟨s', d', hStart, hPull⟩ := bind_eq_ok.mp hStep
    cases hPull
    exact ⟨.atWork (.pull s') .nil s' rest (.mk (next :: rest) s :: below) (v :: values) stack d
      ⟨⟨next, hRest⟩, h⟩ hFilled, .next next rest v s s' below values stack c d hRest hStart⟩

/-- The search that was opened last has no more values. -/
theorem Combining.drained {rest : List Expr} {s : Search .value} {below : List Operand}
    {values : List Value} (h : Operand.Aligned es below) (hValues : values.length = below.length)
    (stack : Stack .tuple) (c : Context) :
    Combining es ⟨stack, pullOperand below values.tail stack, c⟩ ∧
      Turns es ⟨stack, Machine.drained s (.push (.operand rest below values) stack), c⟩
        ⟨stack, pullOperand below values.tail stack, c⟩ := by
  match below, values, hValues with
  | [], [], _ =>
    exact ⟨.replied (.drained (.producing [] [])) [] [] stack c rfl trivial rfl,
      .over rest s stack c⟩
  | .mk rest' s' :: below, v :: values, hValues =>
    exact ⟨.atWork (.pull s') .nil s' rest' below values stack c h (Nat.succ.inj hValues),
      .back rest rest' s s' below v values stack c⟩

/-- A step of the search that was opened last. -/
theorem Combining.step {k : Kind} {walk : Walk k} {segment : Segment k .value} {s : Search .value}
    {rest : List Expr} {below : List Operand} {values : List Value} {stack : Stack .tuple}
    {c d : Context} {m : Machine} (h : Operand.Aligned es (.mk rest s :: below))
    (hValues : values.length = below.length)
    (hStep : Machine.step Search.isExhausted
      ⟨k, walk, segment.onto (.push (.operand rest below values) stack)⟩ c = .ok m d) :
    Combining es ⟨stack, m, d⟩ ∧
      Turns es ⟨stack, ⟨k, walk, segment.onto (.push (.operand rest below values) stack)⟩, c⟩
        ⟨stack, m, d⟩ := by
  rcases reply_or_above walk segment with ⟨reply, hReply⟩ | hAbove
  · rw [hReply] at hStep ⊢
    cases reply with
    | found v s' => exact Combining.fillOperand (s := s') h hValues v hStep
    | drained s' =>
      cases hStep
      exact Combining.drained h.2 hValues stack c
  · -- No reply yet: the step is the same whatever stands below the segment.
    have hBack (reply : Reply .value) :
        ¬ ∀ stack, (⟨k, walk, segment.onto stack⟩ : Machine) = reply.machine stack := by
      intro hReply
      have hLevel := hAbove (baseStack .value)
      rw [hReply] at hLevel
      exact not_above_machine hLevel
    rcases uniform_step walk segment hBack c with ⟨t, e, hError⟩ | ⟨k', walk', segment', e, hOk⟩
    · cases (hError _).symm.trans hStep
    · cases (hOk _).symm.trans hStep
      exact ⟨.atWork walk' segment' s rest below values stack d h hValues,
        .inside walk walk' segment segment' rest below values stack c d (hAbove _)⟩

/-- Whatever comes next is one of the turns, and the two stacks stay aligned. -/
theorem Combining.goes {x y : Moment .tuple} (h : x.Combining es) (hGoes : x.Goes y) :
    y.Combining es ∧ Turns es x y := by
  rcases hGoes.step_or_again with ⟨m, d, hAbove, hStep, rfl⟩ | ⟨reply, stack', c', hReply, rfl⟩
  · cases h with
    | begun stack c =>
      cases es with
      | nil =>
        cases hStep
        exact ⟨.replied (.found [] (.producing [] [])) [] [] stack c rfl trivial rfl,
          .nothing stack c rfl⟩
      | cons e rest =>
        obtain ⟨s, d', hStart, hPull⟩ := bind_eq_ok.mp hStep
        cases hPull
        exact ⟨.atWork (.pull s) .nil s rest [] [] stack d ⟨⟨e, rfl⟩, trivial⟩ rfl,
          .first e rest s stack c d rfl hStart⟩
    | atWork walk segment s rest below values stack c h hValues =>
      exact Combining.step h hValues hStep
    | asked operands values stack c h hValues =>
      cases hStep
      match operands, h, hValues with
      | [], h, hValues =>
        obtain rfl := List.length_eq_zero_iff.mp hValues
        exact ⟨.replied (.drained (.producing [] [])) [] [] stack c rfl trivial rfl,
          .ended stack c⟩
      | .mk rest s :: below, h, hValues =>
        exact ⟨.atWork (.pull s) .nil s rest below values stack c h hValues,
          .resumed rest s below values stack c⟩
    | replied reply operands values stack c hReply h hValues =>
      exact (not_above_machine hAbove).elim
  · cases h with
    | begun stack c => cases reply <;> cases hReply
    | atWork walk segment s rest below values stack c h hValues =>
      have hHeight := congrArg (fun m : Machine => m.stack.height) hReply
      have hHigher := segment.height_onto (.push (.operand rest below values) stack)
      have hSame := height_machine reply stack
      dsimp only at hHeight
      -- A search that is at work is above the stack, so there is no reply to go on from.
      simp only [Stack.height] at hHigher
      omega
    | asked operands values stack c h hValues => cases reply <;> cases hReply
    | replied reply' operands values stack c hRest h hValues =>
      have hEq : reply = reply' := by
        cases reply <;> cases reply' <;> cases hReply <;> rfl
      subst hEq
      have hTurns : Turns es ⟨stack, reply.machine stack, c⟩
          ⟨stack', pull (.producing operands values) stack', c'⟩ :=
        .again reply operands values stack stack' c c' hRest
      rw [hRest]
      exact ⟨.asked operands values stack' c' h hValues, hTurns⟩

/-- A search is asked for a value: it is that of the expression at its position, and all but this
one of the open searches have a value there. -/
theorem Combining.pulls {x : Moment .tuple} (h : x.Combining es) {operands : List Operand}
    {values : List Value} (hPulls : x.Pulls operands values) :
    Operand.Aligned es operands ∧ values.length + 1 = operands.length := by
  obtain ⟨rest', s', below', rfl, hMachine⟩ := hPulls
  have hHeight := congrArg (fun m : Machine => m.stack.height) hMachine
  cases h with
  | begun stack c => exact absurd hHeight (Nat.ne_of_lt (Nat.lt_succ_self _))
  | atWork walk segment s rest below values stack c h hValues =>
    cases segment with
    | nil =>
      cases hMachine
      exact ⟨h, congrArg Nat.succ hValues⟩
    | push p lower =>
      -- Further up the stack it would not be the operand itself that is asked.
      have hHigher := lower.height_onto (.push (.operand rest below values) stack)
      have hHeight : (lower.onto _).height + 1 = stack.height + 1 := hHeight
      simp only [Stack.height] at hHigher
      omega
  | asked operands values stack c h hValues =>
    exact absurd hHeight (Nat.ne_of_lt (Nat.lt_succ_self _))
  | replied reply operands values stack c hReply h hValues =>
    have hHeight : (reply.machine stack).stack.height = stack.height + 1 := hHeight
    rw [height_machine] at hHeight
    omega

end Moment

-- ---------------------------------------------------------------------------
-- The law
-- ---------------------------------------------------------------------------

/-- Asked for nothing else in between, a search finds the results that its course has. -/
theorem Search.runsThrough_of_gathered {k : Kind} {s : Search k} {c d : Context}
    {P : Course k.Item} {clock : Nat} {items : List k.Item}
    (h : Pursues P clock (baseStack k) (.ok (pull s (baseStack k)) c))
    (hGathered : P.gathered = some (items, d)) : RunsThrough items (ask s) c d := by
  induction P generalizing clock s c items d with
  | unknown => cases hGathered
  | done e =>
    cases hGathered
    obtain ⟨j, rest, hAttains⟩ := h
    exact ⟨rest, replies_of_attains (r := .ok (.drained rest) e) hAttains⟩
  | fault t e => cases hGathered
  | result item e next ih =>
    obtain ⟨⟨others, d'⟩, hOthers, hItems⟩ := Option.bind_eq_some_iff.mp hGathered
    cases hItems
    obtain ⟨j, rest, hAttains, -, hRest⟩ := h
    exact ⟨rest, e, replies_of_attains (r := .ok (.found item rest) e) hAttains,
      ih e (hRest e _) hOthers⟩

/-- The results of a list of expressions are the combinations of what the expressions find: each
value is gone on from before the next one is asked for, with searches that are started anew for the
expressions behind it, and when the first expression has no more values there are no more
combinations. So the combinations are collected by loops inside of loops; their values' numbers grow
in lexicographic order. While the list is in use, nothing else than a turn can come next, and
whenever a search is asked, one value less is there than searches are open. -/
theorem Search.product_law (es : List Expr) (c : Context) :
    (∀ cs event, (Search.product es).Tells c cs event ↔
      ∃ n, (Course.product (fun e => Eval.course n e.start) es [] .done c).told cs = some event) ∧
    (∀ n rows d, combined (fun e => Eval.course n e.start) es c = some (rows, d) →
      RunsThrough (k := .tuple) rows (ask (.product es)) c d) ∧
    (∀ child : Expr → Context → Course Value,
      (Course.product child es [] .done c).gathered = combined child es c ∧
      (combined (fun e c => (child e c).numbered 0) es c).map
        (fun (rows, d) => (rows.map (·.map Prod.snd), d)) = combined child es c ∧
      ∀ rows d, combined (fun e c => (child e c).numbered 0) es c = some (rows, d) →
        rows.Pairwise fun a b => List.Lex (· < ·) (a.map Prod.fst) (b.map Prod.fst)) ∧
    (∀ stack x, Relation.ReflTransGen Moment.Goes ⟨stack, pull (.product es) stack, c⟩ x →
      (∀ y, x.Goes y → Moment.Turns es x y) ∧
      ∀ operands values, x.Pulls operands values →
        Operand.Aligned es operands ∧ values.length + 1 = operands.length) := by
  have hPursues (n : Nat) (stack : Stack .tuple) :=
    pursues_product (fun e => pursues_launch n e.start) es c stack
  refine ⟨Search.tells_iff hPursues, fun n rows d hRows => ?_, fun child => ?_,
    fun stack x hGoes => ?_⟩
  · exact runsThrough_of_gathered (hPursues n _) ((gathered_product _ es c).trans hRows)
  · exact ⟨gathered_product child es c, combined_numbered child es c,
      fun _ _ h => pairwise_combined child h⟩
  -- operands and values are aligned at every moment, by induction on the steps up to it
  · have hCombining : x.Combining es := by
      induction hGoes with
      | refl => exact .begun stack c
      | tail _ hGoes ih => exact (ih.goes hGoes).1
    exact ⟨fun y hy => (hCombining.goes hy).2, fun _ _ hPulls => hCombining.pulls hPulls⟩

/-- The course of a search that is started and has one result. -/
theorem Eval.course_found {k : Kind} {x : Eval (Search k)} {item : k.Item} {c d : Context}
    (h : x c = .ok (.found item) d) (n : Nat) :
    Eval.course (n + 1) x c = .result item d .done := by
  have hReplies : (Search.found item).Replies d (.ok (.found item .failed) d) :=
    ⟨1, fun stack => .step (Nat.lt_succ_self _)⟩
  have hReply : (Search.found item).reply? d = some (.ok (.found item .failed) d) := by
    have hSome : ∃ r, (Search.found item).Replies d r := ⟨_, hReplies⟩
    rw [Search.reply?, dif_pos hSome, hSome.choose_spec.unique hReplies]
  rw [Eval.course, h]
  dsimp only
  rw [Search.course, hReply]
  rfl

/-- Of `true, null` there is one combination; when `null` is asked there are two open searches and
one value. The numbers of the combinations of two values with two values grow. -/
theorem Search.product_trueNull :
    let es : List Expr := [.bool true default, .null default]
    let twice : Expr → Context → Course Value := fun _ c =>
      .result (.bool true) c fun c' => .result (.bool false) c' .done
    (∃ d, RunsThrough (k := .tuple) [[.bool true, .null]] (ask (.product es)) default d) ∧
    (∃ rows d, combined (fun e c => (twice e c).numbered 0) es default = some (rows, d) ∧
      rows.length = 4 ∧
      rows.Pairwise fun a b => List.Lex (· < ·) (a.map Prod.fst) (b.map Prod.fst)) ∧
    ∃ x, Relation.ReflTransGen Moment.Goes
        ⟨baseStack .tuple, pull (.product es) (baseStack .tuple), default⟩ x ∧
      ∃ operands values, x.Pulls operands values ∧ operands.length = 2 ∧
        values.length + 1 = operands.length := by
  intro es twice
  obtain ⟨-, hRunsThrough, hOrdered, hAligned⟩ := Search.product_law es default
  have hGoes := Relation.ReflTransGen.refl (r := Moment.Goes)
      (a := ⟨baseStack .tuple, pull (.product es) (baseStack .tuple), default⟩)
    |>.tail (.step (by decide) rfl) |>.tail (.step (by decide) rfl)
    |>.tail (.step (by decide) rfl)
  have hRows : ∃ d, combined (fun e => Eval.course 1 e.start) es default =
      some ([[.bool true, .null]], d) := by
    have hTrue := Eval.course_found (k := .value) (x := (Expr.bool true default).start)
      (c := default) rfl 0
    have hNull := Eval.course_found (k := .value) (x := (Expr.null default).start)
      (c := { (default : Context) with steps := 1 }) rfl 0
    rw [combined, hTrue, gather]
    show ∃ d, (((Eval.course 1 (Expr.null default).start
      { (default : Context) with steps := 1 }).gather _).map _ >>= _) = _
    rw [hNull]
    exact ⟨_, rfl⟩
  obtain ⟨d, hRows⟩ := hRows
  refine ⟨⟨d, hRunsThrough 1 _ d hRows⟩, ?_, _, hGoes, _, _, ⟨_, _, _, rfl, rfl⟩, rfl, ?_⟩
  · exact ⟨_, _, rfl, rfl, (hOrdered twice).2.2 _ _ rfl⟩
  · exact ((hAligned _ _ hGoes).2 _ _ ⟨_, _, _, rfl, rfl⟩).2

end AmbScript
