import AmbScript.Proofs.Course.Enumerations
import AmbScript.Proofs.Listing.Statements

/-!
# Choices, combinations and statements

What a search enumerates that has several parts, given what each part enumerates: the alternatives
of a choice, the expressions of a list, the statements of a body. Parts are started in contexts that
keep all bindings of the first one, so each of them is known in all of these.

* `Machine.enumerates_choice` — the results of all alternatives, one after the other.
* `combinations`, `Machine.enumerates_product` — all combinations, the first item varying slowest.
* `Machine.enumerates_sequence` — statements that all but the last complete ordinarily.

Each rule is proved for a search that is under way, with what is left to be enumerated after it as a
further argument (`left`); the rule itself is the case in which nothing is left.
-/

namespace AmbScript

open Machine Eval

variable {α : Type} {k : Kind} {c d e start : Context}

/-- In whatever later context that keeps the bindings of `c`, the search that is started
enumerates. -/
def Context.Enumerates (c : Context) {k : Kind} (x : Eval (Search k)) (ps : List (k.Item → Prop)) :
    Prop :=
  ∀ d, c.Keeps d → Machine.Enumerates d ps (launch x) d

/-- What is known in a context is known in later ones that keep its bindings. -/
theorem Context.Enumerates.keeps {x : Eval (Search k)} {ps : List (k.Item → Prop)}
    (h : c.Enumerates x ps) (hKeeps : c.Keeps d) : d.Enumerates x ps :=
  fun e hLater => h e (hKeeps.trans hLater)

namespace Machine

-- ---------------------------------------------------------------------------
-- Choices
-- ---------------------------------------------------------------------------

/-- From an alternative on, all of them begin as of the noted moment. -/
theorem enumerates_alternatives {es : List Expr} {rows : List (List (Value → Prop))}
    (hes : List.Forall₂ (fun e row => c.checkpoint.Enumerates (k := .value) e.start row) es rows)
    (hLater : c.checkpoint.Keeps d) :
    Enumerates c.checkpoint (k := .value) rows.flatten (nextAlternative c.moment es) d := by
  induction hes generalizing d with
  | nil => exact .drained hLater.toPrecedes
  | @cons e row es rows hFirst _ ih =>
    -- the alternative is used up, and the moment is gone back to
    have hDrained (rest : Search .value) (e : Context) (hLater' : d.Precedes e) :
        Enumerates c.checkpoint (k := .value) rows.flatten
          (stepDrained rest (.choosing c.moment es)) e := by
      have hBack : c.checkpoint.Keeps (e.restore c.moment) :=
        .restored (hLater.toPrecedes.trans hLater')
      exact (ih hBack).after (.of_eq fun stack => rfl) (.inr hBack.retains)
    suffices List.Forall₂ _ row row from
      ((hFirst d hLater).each_single hLater.retains hDrained this).congr (fun _ => rfl) rfl
    exact List.forall₂_same.mpr fun q _ left item rest d' hItem hKeeps hRest =>
      .found hItem (hLater.trans hKeeps) fun c' hLater' => .ask (hRest c' hLater')

/-- The results of all alternatives, in their order. -/
theorem enumerates_choice {es : List Expr} {rows : List (List (Value → Prop))}
    (hes : List.Forall₂ (fun e row => c.Enumerates (k := .value) e.start row) es rows) :
    Enumerates c (k := .value) rows.flatten (ask (.choice es)) c := by
  have hNoted : c.Keeps c.checkpoint := .checkpoint c
  have hAll := enumerates_alternatives (hes.imp fun _ _ h => h.keeps hNoted) (.refl c.checkpoint)
  exact .ask ((hAll.mono hNoted).after (.of_eq fun stack => rfl) (.inl hNoted.retains))

-- ---------------------------------------------------------------------------
-- Combinations
-- ---------------------------------------------------------------------------

end Machine

/-- Every choice of one item from each list, in lexicographic order: the item from the first list
varies slowest. -/
def combinations : List (List α) → List (List α)
  | [] => [[]]
  | xs :: rest => xs.flatMap fun x => (combinations rest).map (x :: ·)

/-- An item of the first list goes with each combination of the others. -/
theorem combinations_cons (xs : List α) (rest : List (List α)) :
    combinations (xs :: rest) = (xs ×ˢ combinations rest).map fun x => x.1 :: x.2 := by
  show (xs.flatMap fun x => (combinations rest).map (x :: ·)) =
    (xs.flatMap fun x => (combinations rest).map (Prod.mk x)).map fun x => x.1 :: x.2
  simp only [List.map_flatMap, List.map_map, Function.comp_def]

/-- A function of the second part of a pair. -/
theorem product_map {β γ : Type} (xs : List α) (ys : List β) (f : β → γ) :
    xs ×ˢ ys.map f = (xs ×ˢ ys).map fun x => (x.1, f x.2) := by
  show (xs.flatMap fun x => (ys.map f).map (Prod.mk x)) =
    (xs.flatMap fun x => ys.map (Prod.mk x)).map fun x => (x.1, f x.2)
  simp only [List.map_flatMap, List.map_map, Function.comp_def]

/-- Of one list the combinations are its items. -/
theorem combinations_one (xs : List α) : combinations [xs] = xs.map ([·]) :=
  List.flatMap_pure_eq_map _ xs

/-- Of two lists they are the pairs. -/
theorem combinations_two (xs ys : List α) :
    combinations [xs, ys] = (xs ×ˢ ys).map fun x => [x.1, x.2] := by
  rw [combinations_cons, combinations_one, product_map, List.map_map]
  rfl

/-- As many values as there are conditions, one fulfilling each. -/
def Fits (ps : List (Value → Prop)) (vs : List Value) : Prop := List.Forall₂ (fun p v => p v) ps vs

namespace Machine

/-- The combinations whose first values are there already. -/
def Completes (values : List Value) (ps : List (Value → Prop)) (vs : List Value) : Prop :=
  ∃ ws, vs = values.reverse ++ ws ∧ Fits ps ws

/-- Where no value is there yet, all of them are still to come. -/
theorem Completes.fits {ps : List (Value → Prop)} {vs : List Value} (h : Completes [] ps vs) :
    Fits ps vs := by
  obtain ⟨ws, rfl, hFits⟩ := h
  exact hFits

/-- Once an operand has found a value, all combinations with that value are enumerated, before what
is left of the operand. -/
def CombinesRest (start : Context) (es : List Expr) (rows : List (List (Value → Prop))) : Prop :=
  ∀ {left : List (List Value → Prop)} {below : List Operand} {values : List Value}
    {p : Value → Prop} {v : Value} {s : Search .value} {d : Context}, p v → start.Keeps d →
    (∀ e, d.Precedes e → Enumerates start (k := .tuple) left
      (fun stack => ask s (.push (.operand es below values) stack)) e) →
    Enumerates start (k := .tuple)
      ((combinations rows).map (fun combo => Completes values (p :: combo)) ++ left)
      (fillOperand (.mk es s) below values v) d

/-- All combinations of the values of an operand with those behind it. `left` is what is enumerated
once the operand has no more values. -/
theorem CombinesRest.enumerates {es : List Expr} {rows : List (List (Value → Prop))}
    (hCombines : CombinesRest start es rows) {left : List (List Value → Prop)}
    {below : List Operand}
    {values : List Value} {row : List (Value → Prop)} {x : Stack .value → Eval Machine}
    (hLater : start.Keeps d)
    (hBelow : ∀ e, d.Precedes e → Enumerates start (k := .tuple) left
      (fun stack => pure (pullOperand below values.tail stack)) e)
    (h : Enumerates d (k := .value) row x c) :
    Enumerates start (k := .tuple) ((combinations (row :: rows)).map (Completes values) ++ left)
      (fun stack => x (.push (.operand es below values) stack)) c := by
  have hRows : (combinations (row :: rows)).map (Completes values) = (row.map fun p =>
      (combinations rows).map fun combo => Completes values (p :: combo)).flatten := by
    rw [combinations, List.map_flatMap, List.flatMap_def]
    simp only [List.map_map, Function.comp_def]
  rw [hRows]
  -- each value of the first operand is combined with all of the others before the next one is asked
  -- for
  refine h.each hLater.retains (fun rest e hLater' => ?_)
    (List.forall₂_map_right_iff.mpr (List.forall₂_same.mpr
      fun p _ left' v rest e hItem hKeeps hRest => hCombines hItem (hLater.trans hKeeps) hRest))
  exact (hBelow e hLater').congr (fun _ => rfl) rfl

/-- All combinations with a value that was found, by induction on the expressions behind. -/
theorem combinesRest {es : List Expr} {rows : List (List (Value → Prop))}
    (hes : List.Forall₂ (fun e row => start.Enumerates (k := .value) e.start row) es rows) :
    CombinesRest start es rows := by
  induction hes with
  | nil =>
    intro left below values p v s d hItem hLater hRest
    have hComplete : Completes values [p] (v :: values).reverse :=
      ⟨[v], List.reverse_cons, .cons hItem .nil⟩
    have hFound (c' : Context) (hLater' : d.Precedes c') : Enumerates start (k := .tuple) left
        (ask (.producing (.mk [] s :: below) values)) c' := .ask (hRest c' hLater')
    exact .found (k := .tuple) hComplete hLater hFound
  | @cons e row es rows hFirst _ ih =>
    intro left below values p v s d hItem hLater hRest
    have hNext : Enumerates start (k := .tuple)
        ((combinations (row :: rows)).map (Completes (v :: values)) ++ left)
        (fun stack => launch e.start
          (.push (.operand es (.mk (e :: es) s :: below) (v :: values)) stack)) d :=
      ih.enumerates hLater hRest (hFirst d hLater)
    refine (hNext.imp ?_).congr (fun _ => rfl) rfl
    refine List.rel_append ?_ (List.forall₂_same.mpr fun _ _ _ h => h)
    -- the value found stands before those that are still to come
    refine List.forall₂_map_left_iff.mpr (List.forall₂_map_right_iff.mpr
      (List.forall₂_same.mpr fun combo _ vs h => ?_))
    obtain ⟨ws, rfl, hFits⟩ := h
    exact ⟨v :: ws, by simp, .cons hItem hFits⟩

/-- All combinations of the values of a list of expressions. -/
theorem enumerates_product {es : List Expr} {rows : List (List (Value → Prop))}
    (hes : List.Forall₂ (fun e row => c.Enumerates (k := .value) e.start row) es rows) :
    Enumerates c (k := .tuple) ((combinations rows).map Fits) (ask (.product es)) c := by
  refine .ask ?_
  cases hes with
  | nil => exact .found (k := .tuple) .nil (.refl c) fun c' hLater => .ask (.drained hLater)
  | @cons e row es rows hFirst hRest =>
    have hAll : Enumerates c (k := .tuple) ((combinations (row :: rows)).map (Completes []) ++ [])
        (fun stack => launch e.start (.push (.operand es [] []) stack)) c :=
      CombinesRest.enumerates (combinesRest hRest) (.refl c) (fun d hLater => .drained hLater)
        (hFirst c (.refl c))
    rw [List.append_nil] at hAll
    refine (hAll.imp ?_).congr (fun _ => rfl) rfl
    exact List.forall₂_map_left_iff.mpr (List.forall₂_map_right_iff.mpr
      (List.forall₂_same.mpr fun combo _ vs h => h.fits))

-- ---------------------------------------------------------------------------
-- Statements
-- ---------------------------------------------------------------------------

/-- The completions of a row of statements, given those of each, if all but the last complete
ordinarily: from each completion it is gone on to the next statement. -/
def inTurn (row : List (Completion → Prop)) :
    List (List (Completion → Prop)) → List (Completion → Prop)
  | [] => row
  | next :: rows => row.flatMap fun _ => inTurn next rows

/-- Only values. -/
def Ordinary (row : List (Completion → Prop)) : Prop :=
  ∀ p ∈ row, ∀ completion, p completion → ∃ v, completion = .value v

/-- What is left of a statement goes on when the statements reached are asked again. -/
theorem enumerates_keep {index : Nat} {rest : List Stmt} {below : List Reached}
    {s : Search .completion} {left : List (Completion → Prop)}
    (h : Enumerates start (k := .completion) left
      (fun stack => ask s (.push (.statement index rest below none) stack)) c) :
    Enumerates start (k := .completion) left
      (fun stack => pure (pullStatement (keep s.isExhausted (.mk index rest s) below) none stack))
      c := by
  cases hExhausted : s.isExhausted with
  | false =>
    refine h.after (.of_eq fun stack => ?_) (.inl (.refl _))
    have hPull : pullStatement (.mk index rest s :: below) none stack =
        pull s (.push (.statement index rest below none) stack) :=
      pullStatement_cons rest s below rfl stack
    exact congrArg (fun m => (pure m : Eval Machine) c) hPull
  | true =>
    obtain ⟨_, hWalk⟩ := LeadsOn.exhausted hExhausted (.statement index rest below none) c
    exact h.before hWalk

/-- From a statement on. `left` is what is enumerated once it has no more completions. -/
theorem enumerates_statement {stmts : List Stmt} {rows : List (List (Completion → Prop))}
    (hStmts : List.Forall₂ (fun s row => start.Enumerates (k := .completion) s.start row ∧
      s.isCut = false) stmts rows)
    {left : List (Completion → Prop)} {index : Nat} {below : List Reached}
    {row : List (Completion → Prop)} {x : Stack .completion → Eval Machine}
    (hOrdinary : ∀ r ∈ (row :: rows).dropLast, Ordinary r) (hLater : start.Keeps d)
    (hBelow : ∀ e, d.Precedes e → Enumerates start (k := .completion) left
      (fun stack => pure (pullStatement below none stack)) e)
    (h : Enumerates d (k := .completion) row x c) :
    Enumerates start (k := .completion) (inTurn row rows ++ left)
      (fun stack => x (.push (.statement index stmts below none) stack)) c := by
  -- by induction on the statements still to come
  induction hStmts generalizing left below row x c d index with
  | nil =>
    have hRows : inTurn row [] = (row.map fun q => [q]).flatten := by
      rw [← List.flatMap_def, List.flatMap_singleton']
      rfl
    rw [hRows]
    refine h.each hLater.retains (fun rest e hLater' => ?_) (List.forall₂_map_right_iff.mpr
      (List.forall₂_same.mpr fun q _ left' item rest e hItem hKeeps hRest => ?_))
    · exact (hBelow e hLater').congr (fun _ => rfl) rfl
    · suffices Enumerates start (k := .completion) (q :: left') (fun stack => pure (found
          (k := .completion) item
          (.sequenced (keep rest.isExhausted (.mk index [] rest) below) none) stack)) e from
        this.after (.of_eq fun stack => by cases item <;> rfl) (.inl (.refl _))
      exact .found hItem (hLater.trans hKeeps) fun c' hLater' =>
        .ask (enumerates_keep (hRest c' hLater'))
  | @cons s next stmts rows hFirst _ ih =>
    have hRows : inTurn row (next :: rows) = (row.map fun _ => inTurn next rows).flatten :=
      List.flatMap_def
    rw [hRows]
    obtain ⟨hValues, hOrdinary⟩ := List.forall_mem_cons.mp hOrdinary
    refine h.each hLater.retains (fun rest e hLater' => ?_) (List.forall₂_map_right_iff.mpr
      (List.forall₂_same.mpr fun q hq left' item rest e hItem hKeeps hRest => ?_))
    · exact (hBelow e hLater').congr (fun _ => rfl) rfl
    · obtain ⟨v, rfl⟩ := hValues q hq item hItem
      -- after each result of this statement the others are run through in full, and only then is it
      -- asked for its next
      have hNext : Enumerates start (k := .completion) (inTurn next rows ++ left')
          (fun stack => launch s.start (.push (.statement (index + 1) stmts
            (keep rest.isExhausted (.mk index (s :: stmts) rest) below) none) stack)) e :=
        ih hOrdinary (hLater.trans hKeeps) (fun e' hLater' => enumerates_keep (hRest e' hLater'))
          (hFirst.1 e (hLater.trans hKeeps))
      refine hNext.after (.of_eq fun stack => ?_) (.inl (.refl _))
      show startStatement (index + 1) s stmts _ none stack e = _
      rw [startStatement_eq_launch s stmts _ rfl, hFirst.2]
      rfl

/-- The completions of a body. Statements behind the first one matter only if that completes. -/
theorem enumerates_sequence {s : Stmt} {stmts : List Stmt} {row : List (Completion → Prop)}
    {rows : List (List (Completion → Prop))} (hCut : s.isCut = false)
    (hFirst : c.Enumerates (k := .completion) s.start row)
    (hRest : row ≠ [] → List.Forall₂ (fun s row =>
      c.Enumerates (k := .completion) s.start row ∧ s.isCut = false) stmts rows)
    (hOrdinary : ∀ r ∈ (row :: rows).dropLast, Ordinary r) :
    Enumerates c (k := .completion) (inTurn row rows) (ask (.sequence (s :: stmts))) c := by
  have hAll : Enumerates c (k := .completion) (inTurn row rows ++ [])
      (fun stack => launch s.start (.push (.statement 0 stmts [] none) stack)) c := by
    -- without results of the first statement the others are never started, so nothing need be known
    -- of them
    cases row with
    | nil =>
      have hNone : inTurn [] rows = [] := by cases rows <;> rfl
      rw [hNone]
      exact (hFirst c (.refl c)).each_single (.refl _) (fun rest d hLater => .drained hLater) .nil
    | cons p row =>
      exact enumerates_statement (hRest (List.cons_ne_nil _ _)) hOrdinary (.refl c)
        (fun e hLater => .drained hLater) (hFirst c (.refl c))
  rw [List.append_nil] at hAll
  refine .ask (hAll.after (.of_eq fun stack => ?_) (.inl (.refl _)))
  show startStatement 0 s stmts [] none stack c = _
  rw [startStatement_eq_launch s stmts _ rfl, hCut]
  rfl

end Machine

end AmbScript
