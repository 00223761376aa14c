import AmbScript.Proofs.Listing.Searches

/-!
# Statements in a row

The completions of statements in a row are listed from left to right, statement by statement, but
found in depth: the machine goes on to the next statement as soon as one has completed. A `cut`
that is reached gives up what is left of the statements before it.

* `proceed` — what follows a single completion, in depth.
* `statementsList_eq_fold` — the two orders come to the same.
* `Eval.lists_sequence` — statements in a row deliver their completions.
-/

namespace AmbScript

open Machine Listing

variable {w w' : Renaming} {clock clock' : Nat} {deeper : Activity → Context → Listing Completion}

-- ---------------------------------------------------------------------------
-- In depth
-- ---------------------------------------------------------------------------

/-- What follows a completion when these statements are behind it and `X` is what follows the
completions after it. Behind a `cut` there are no completions after it. -/
def proceed (deeper : Activity → Context → Listing Completion) :
    List Stmt → Completion → Context → Listing Completion → Listing Completion
  | s :: rest, .value _, d, X =>
    if s.isCut then proceed deeper rest (.value .undefined) d .done
    else (s.list deeper d).fold (proceed deeper rest) X
  | _, completion, d, X => .result completion d X

/-- Behind the last statement a completion is one of the whole. -/
theorem proceed_nil (completion : Completion) (d : Context) (X : Listing Completion) :
    proceed deeper [] completion d X = .result completion d X := by
  cases completion <;> rfl

/-- Only an ordinary completion goes on to the next statement. -/
theorem proceed_returns (rest : List Stmt) (v : Value) (d : Context) (X : Listing Completion) :
    proceed deeper rest (.returns v) d X = .result (.returns v) d X := by
  cases rest <;> rfl

theorem proceed_break (rest : List Stmt) (d : Context) (X : Listing Completion) :
    proceed deeper rest .breakLoop d X = .result .breakLoop d X := by
  cases rest <;> rfl

theorem proceed_continue (rest : List Stmt) (d : Context) (X : Listing Completion) :
    proceed deeper rest .continueLoop d X = .result .continueLoop d X := by
  cases rest <;> rfl

/-- Behind a `cut` nothing follows from what was there before it. -/
theorem proceed_of_isCut {s : Stmt} (h : s.isCut = true) (rest : List Stmt) (v : Value)
    (d : Context) (X : Listing Completion) :
    proceed deeper (s :: rest) (.value v) d X = proceed deeper rest (.value .undefined) d .done := by
  rw [proceed, if_pos h]

/-- Behind a value the next statement is gone on to. -/
theorem proceed_of_not_isCut {s : Stmt} (h : s.isCut = false) (rest : List Stmt) (v : Value)
    (d : Context) (X : Listing Completion) :
    proceed deeper (s :: rest) (.value v) d X = (s.list deeper d).fold (proceed deeper rest) X := by
  rw [proceed, h]
  rfl

/-- An ordinary statement is gone on to from every completion. -/
theorem fold_andThen (L : Listing Completion) {s : Stmt} (h : s.isCut = false) (rest : List Stmt) :
    (L.andThen (s.list deeper)).fold (proceed deeper rest) .done =
      L.fold (proceed deeper (s :: rest)) .done := by
  unfold andThen
  rw [fold_bind]
  congr 1
  funext completion d X
  cases completion with
  | value v => rw [proceed_of_not_isCut h]
  | returns v => rw [fold_one, proceed_returns, proceed_returns]
  | breakLoop => rw [fold_one, proceed_break, proceed_break]
  | continueLoop => rw [fold_one, proceed_continue, proceed_continue]

/-- A `cut` is gone on to from the first one. -/
theorem fold_first_andThen (L : Listing Completion) {s : Stmt} (h : s.isCut = true)
    (rest : List Stmt) :
    (L.first.andThen (one (.value .undefined))).fold (proceed deeper rest) .done =
      L.fold (proceed deeper (s :: rest)) .done := by
  unfold andThen
  rw [fold_bind]
  refine fold_fold (fun completion d X => ?_) L
  cases completion with
  | value v => rw [proceed_of_isCut h, fold_one, fold_one]
  | returns v => rw [fold_result, fold_one, proceed_returns, proceed_returns]
  | breakLoop => rw [fold_result, fold_one, proceed_break, proceed_break]
  | continueLoop => rw [fold_result, fold_one, proceed_continue, proceed_continue]

/-- Going from statement to statement comes to the same as going in depth. -/
theorem statementsList_eq_fold (stmts : List Stmt) (L : Listing Completion) :
    statementsList deeper stmts L = L.fold (proceed deeper stmts) .done := by
  induction stmts generalizing L with
  | nil =>
    have hResult : proceed deeper [] = Listing.result := by
      funext completion d X
      exact proceed_nil completion d X
    rw [statementsList, hResult]
    exact (append_done L).symm
  | cons s rest ih =>
    rw [statementsList, ih]
    cases h : s.isCut with
    | true => exact fold_first_andThen L h rest
    | false => exact fold_andThen L h rest

-- ---------------------------------------------------------------------------
-- Delivery
-- ---------------------------------------------------------------------------

namespace Eval

/-- What the machine does when it is asked for a completion of the last statement reached, or of the
ones before. -/
theorem pullStatement_cons {index : Nat} (rest : List Stmt) (s : Search .completion)
    (below : List Reached) {commit : Option Nat} (hCommit : commit.any (index < ·) = false)
    (stack : Stack .completion) :
    pullStatement (.mk index rest s :: below) commit stack =
      pull s (.push (.statement index rest below commit) stack) := by
  unfold pullStatement
  simp [hCommit]

/-- Starting a statement is starting its search and asking it for a completion. -/
theorem startStatement_eq_launch {index : Nat} (stmt : Stmt) (rest : List Stmt)
    (below : List Reached) {commit : Option Nat} (hCommit : commit.any (index < ·) = false)
    (stack : Stack .completion) :
    startStatement index stmt rest below commit stack =
      launch stmt.start (.push (.statement index rest below
        (if stmt.isCut then some index else commit)) stack) := by
  unfold startStatement launch
  cases stmt with
  | cut span =>
    have hNone : (some index).any (index < ·) = false := by simp
    simp only [pullStatement_cons _ _ _ hNone]
    rfl
  | _ =>
    simp only [pullStatement_cons _ _ _ hCommit]
    rfl

/-- Whatever search is under way for a statement that has these statements behind it, the machine
goes on to them from each of its completions. -/
def GoesOn (deeper : Activity → Context → Listing Completion) (w : Renaming) (clock : Nat)
    (start : Context) (rest : List Stmt) : Prop :=
  ∀ {inside : Context} {w' : Renaming} {index : Nat} {below : List Reached} {commit : Option Nat}
    {L M : Listing Completion} {clock' : Nat} {shown : List String} {stack : Stack .completion}
    {r : Config}, start.Precedes inside → inside.Unbounded → w ≤ w' →
    commit.any (index < ·) = false → clock' ≤ clock →
    (∀ c stack, inside.Precedes c →
      Delivers (k := .completion) start w M clock' c.output.toList stack
        (.ok (pullStatement below commit stack) c)) →
    Delivers (k := .completion) inside w' L clock' shown
      (.push (.statement index rest below commit) stack) r →
    Delivers (k := .completion) start w (L.fold (proceed deeper rest) M) clock' shown stack r

/-- The next statement is started, and gone on from. `X` is what follows from the statements
reached before, unless the statement is a `cut`. -/
theorem delivers_started {start c d : Context} {stmt : Stmt} {rest : List Stmt}
    (hGoesOn : GoesOn deeper w clock start rest)
    (hStmt : Lists w clock stmt.start (stmt.list deeper)) (hStart : start.Precedes c)
    (hUnbounded : c.Unbounded) (hle : w ≤ w') (hAgree : Agree w' c d) {index : Nat}
    {reached : List Reached} {commit : Option Nat} (hCommit : commit.any (index < ·) = false)
    (hGivenUp : ∀ stack, pullStatement reached (some index) stack =
      drained (.sequenced [] (some index)) stack)
    {X : Listing Completion} (hClock : clock' ≤ clock)
    (hReached : ∀ c' stack, c.Precedes c' →
      Delivers (k := .completion) start w X clock' c'.output.toList stack
        (.ok (pullStatement reached commit stack) c'))
    (v : Value) (stack : Stack .completion) :
    Delivers (k := .completion) start w (proceed deeper (stmt :: rest) (.value v) d X) clock'
      c.output.toList stack (startStatement index stmt rest reached commit stack c) := by
  have hPart := hStmt w' hle c d hAgree hUnbounded
    (.push (.statement index rest reached (if stmt.isCut then some index else commit)) stack)
  rw [startStatement_eq_launch stmt rest reached hCommit]
  -- a cut has one result and gives up everything below it
  cases hCut : stmt.isCut with
  | true =>
    have hOne : stmt.list deeper d = one (.value .undefined) d := by
      cases stmt with
      | cut span => rfl
      | _ => cases hCut
    rw [hCut, hOne] at hPart
    rw [proceed_of_isCut hCut]
    refine hGoesOn hStart hUnbounded hle (by simp) hClock (fun c' stack hLater => ?_)
      (hPart.mono hClock)
    rw [if_pos rfl, hGivenUp]
    exact .atEnd (hStart.trans hLater)
  | false =>
    rw [hCut] at hPart
    rw [proceed_of_not_isCut hCut]
    exact hGoesOn hStart hUnbounded hle hCommit hClock hReached (hPart.mono hClock)

/-- A completion of the statements as a whole. Asked again, the last statement reached goes on. -/
theorem delivers_completed {start c d : Context} {item a : Completion} {index : Nat}
    {rest : List Stmt} {s : Search .completion} {below : List Reached} {commit : Option Nat}
    (hCommit : commit.any (index < ·) = false) (hStart : start.Precedes c) (hle : w ≤ w')
    (hAgree : Agree w' c d) (hItem : item.Alike w' a) {X : Listing Completion}
    (hAgain : ∀ c' stack', c.Precedes c' →
      Delivers (k := .completion) start w X clock c'.output.toList stack'
        (.ok (pull s (.push (.statement index rest below commit) stack')) c'))
    (stack : Stack .completion) :
    Delivers (k := .completion) start w (.result a d X) clock c.output.toList stack
      (.ok (found (k := .completion) item (.sequenced (.mk index rest s :: below) commit) stack)
        c) := by
  refine .atResult hStart hle hAgree hItem fun c' stack' hLater => ?_
  refine delivers_resumed ?_ (hAgain c' stack' hLater)
  show (pure (pullStatement _ _ _) : Eval Machine) c' = _
  rw [pullStatement_cons _ _ _ hCommit]
  rfl

/-- A sequence goes on with the statements that are left as they are listed. -/
theorem goesOn {start : Context} (rest : List Stmt)
    (hRest : ∀ s ∈ rest, Lists w clock s.start (s.list deeper)) :
    GoesOn deeper w clock start rest := by
  -- by induction on the statements still to come
  induction rest with
  | nil =>
    intro inside w' index below commit L M clock' shown stack r hStart _ hle hCommit _ hBelow hPart
    refine .fold hStart.reports (fun s c stack hLater => ?_) ?_ hPart
    · exact .of_step rfl ((hBelow c stack hLater).mono (Nat.sub_le _ _))
    · intro clock'' a d item s c w'' X stack _ hLater hle' hAgree hItem hAgain
      have hUnfinished : (found item s (.push (.statement index [] below commit) stack)).finished? =
          none := rfl
      refine .of_step hUnfinished (.mono ?_ (Nat.sub_le _ _))
      rw [proceed_nil]
      have hDone := delivers_completed hCommit (hStart.trans hLater) (hle.trans hle') hAgree hItem
        hAgain stack
      cases item <;> exact hDone
  | cons stmt rest ih =>
    intro inside w' index below commit L M clock' shown stack r hStart hUnbounded hle hCommit hClock
      hBelow hPart
    refine .fold hStart.reports (fun s c stack hLater => ?_) ?_ hPart
    · exact .of_step rfl ((hBelow c stack hLater).mono (Nat.sub_le _ _))
    · intro clock'' a d item s c w'' X stack hClock' hLater hle' hAgree hItem hAgain
      have hUnfinished : (found item s
          (.push (.statement index (stmt :: rest) below commit) stack)).finished? = none := rfl
      refine .of_step hUnfinished (.mono ?_ (Nat.sub_le _ _))
      have hDone := delivers_completed hCommit (hStart.trans hLater) (hle.trans hle') hAgree hItem
        hAgain stack
      cases (hItem : Completion.Alike w'' item a) with
      | returns _ =>
        rw [proceed_returns]
        exact hDone
      | breakLoop =>
        rw [proceed_break]
        exact hDone
      | continueLoop =>
        rw [proceed_continue]
        exact hDone
      | value _ =>
        refine delivers_started (ih fun s hs => hRest s (List.mem_cons_of_mem _ hs))
          (hRest stmt List.mem_cons_self) (hStart.trans hLater) (hLater.unbounded hUnbounded)
          (hle.trans hle') hAgree ?_ ?_ (Nat.le_trans hClock' hClock) ?_ _ stack
        · cases commit with
          | none => rfl
          | some n =>
            simp only [Option.any_some, decide_eq_false_iff_not] at hCommit ⊢
            omega
        -- a cut in the next statement gives up this one and all below
        · intro stack
          show pullStatement (.mk index (stmt :: rest) s :: below) (some (index + 1)) stack = _
          simp [pullStatement]
        · intro c' stack' hLater'
          have hPull := pullStatement_cons (stmt :: rest) s below hCommit stack'
          exact hPull ▸ hAgain c' stack' hLater'

/-- From the first statement on. -/
theorem lists_sequence {stmts : List Stmt}
    (hStmts : ∀ s ∈ stmts, Lists w clock s.start (s.list deeper)) :
    Lists w (clock + 1) (pure (.sequence stmts)) fun d =>
      statementsList deeper stmts (one (.value .undefined) d) := by
  intro w' hle c d hAgree hUnbounded stack
  refine .of_step rfl ?_
  rw [Nat.add_sub_cancel]
  -- below the first statement there is nothing to go back to
  have hNone : ∀ commit c' stack, c.Precedes c' →
      Delivers (k := .completion) c w' .done clock c'.output.toList stack
        (.ok (pullStatement [] commit stack) c') := fun _ _ _ hLater => .atEnd hLater
  cases stmts with
  | nil =>
    exact .atResult (.refl c) le_rfl hAgree (Completion.Alike.value .undefined)
      fun c' stack' hLater => .of_step rfl ((hNone none c' stack' hLater).mono (Nat.sub_le _ _))
  | cons stmt rest =>
    show Delivers (k := .completion) c w' (statementsList deeper (stmt :: rest) (one _ d)) clock _
      stack (startStatement 0 stmt rest [] none stack c)
    rw [statementsList_eq_fold, fold_one]
    exact delivers_started
      (goesOn rest fun s hs => (hStmts s (List.mem_cons_of_mem _ hs)).mono hle (Nat.le_refl _))
      ((hStmts stmt List.mem_cons_self).mono hle (Nat.le_refl _)) (.refl c) hUnbounded le_rfl hAgree
      rfl (fun _ => rfl) (Nat.le_refl _) (hNone none) _ stack

end Eval

end AmbScript
