import AmbScript.Proofs.Course.Basic
import AmbScript.Proofs.Listing.Statements

/-!
# Statements in sequence

What the completions of a row of statements are, told by what each statement does; and that the
machine, which keeps a stack of the statements reached and the number of the last `cut`, finds just
these, in the same order.

* `Course.rows` — every completion of the first statement is gone on from, one after the other.
* `Machine.pursues_startStatement` — the machine does so from any statement on.

A row is told from its first statement to its last, while the machine has the last one on top of its
stack. What connects the two is `otherwise`: what the row does when it has come to its end is what
the statements below do when they are asked again (`Machine.Resumes`).
-/

namespace AmbScript

open Machine Eval Course

-- ---------------------------------------------------------------------------
-- Rows of statements
-- ---------------------------------------------------------------------------

/-- What statements do that are run one after the other: an ordinary completion of the first goes on
to the statements behind it, if there are any, and all their completions come before its next one.
Any other completion is one of the whole row at once. When the row has come to its end `otherwise`
is to be done; but from a statement that commits on, nothing of what lies before is. -/
def Course.rows (commits : Stmt → Bool) (child : Stmt → Context → Course Completion) :
    List Stmt → (Context → Course Completion) → Context → Course Completion
  | [], otherwise, c => .result (.value .undefined) c otherwise
  | stmt :: rest, otherwise, c =>
    (child stmt c).each (if commits stmt then .done else otherwise) fun completion d again =>
      match completion, rest with
      | .value _, _ :: _ => rows commits child rest again d
      | completion, _ => .result completion d again

/-- As long as no statement is reached that commits, nothing is given up. -/
theorem Course.rows_abridges (commits : Stmt → Bool) (child : Stmt → Context → Course Completion)
    (stmts : List Stmt) {otherwise otherwise' : Context → Course Completion}
    (hOtherwise : ∀ c, (otherwise c).Abridges (otherwise' c)) (c : Context) :
    (rows (fun _ => false) (fun stmt c => if commits stmt then .unknown else child stmt c) stmts
      otherwise c).Abridges (rows commits child stmts otherwise' c) := by
  induction stmts generalizing otherwise otherwise' c with
  | nil => exact .result _ c hOtherwise
  | cons stmt rest ih =>
    rw [rows, rows]
    cases hCommits : commits stmt with
    -- At the first statement that commits the row without commits stops being known.
    | true => exact .unknown _
    | false =>
      refine .each (.refl _) hOtherwise fun completion d again again' hAgain => ?_
      cases rest with
      | nil => cases completion <;> exact .result _ d hAgain
      | cons next rest =>
        cases completion with
        | value v => exact ih hAgain d
        | _ => exact .result _ d hAgain

/-- The number of the statement. -/
def Reached.index : Reached → Nat
  | .mk index _ _ => index

/-- What comes once the statements reached have no more completions that are not known yet. -/
structure Machine.Resumes (clock : Nat) (otherwise : Context → Course Completion)
    (reached : List Reached) (commit : Option Nat) : Prop where
  resumed (c : Context) (stack : Stack .completion) :
    Pursues (k := .completion) (otherwise c) clock stack (.ok (pullStatement reached commit stack) c)
  ended (h : reached = []) (c : Context) : otherwise c = .done c

namespace Machine

variable {clock : Nat} {otherwise : Context → Course Completion} {reached below : List Reached}
  {commit : Option Nat}

/-- A clock that is behind. -/
theorem Resumes.mono {clock' : Nat} (h : Resumes clock otherwise reached commit)
    (hClock : clock' ≤ clock) : Resumes clock' otherwise reached commit := by
  refine ⟨?_, h.ended⟩
  intro c stack
  exact (h.resumed c stack).mono hClock

/-- Statements before one that commits are not asked again. -/
theorem pullStatement_givenUp {n : Nat} (h : ∀ r ∈ below.head?, r.index < n)
    (stack : Stack .completion) :
    pullStatement below (some n) stack = drained (.sequenced [] (some n)) stack := by
  match below, h with
  | [], _ => rfl
  | .mk index rest s :: below, h =>
    have hBefore : index < n := h _ rfl
    simp [pullStatement, hBefore]

/-- Statements that were given up have no more completions. -/
theorem resumes_givenUp {n : Nat} (h : ∀ r ∈ below.head?, r.index < n) :
    Resumes clock .done below (some n) := by
  refine ⟨fun _ stack => ?_, fun _ _ => rfl⟩
  rw [pullStatement_givenUp h stack]
  exact .atEnd

/-- The statement on top is the one reached last, or one before it. -/
theorem head?_keep {index : Nat} {rest : List Stmt} {s : Search .completion} {dropped : Bool}
    (h : ∀ r ∈ below.head?, r.index < index) :
    ∀ r ∈ (keep dropped (.mk index rest s) below).head?, r.index < index + 1 := by
  intro r hr
  cases dropped with
  | true => exact Nat.lt_succ_of_lt (h r hr)
  | false =>
    cases hr
    exact Nat.lt_succ_self index

/-- The statement reached last goes on, unless it has come to its end. -/
theorem resumes_keep {index : Nat} {rest : List Stmt} {s : Search .completion}
    {again : Context → Course Completion} (hCommit : commit.any (index < ·) = false)
    (hBelow : Resumes clock otherwise below commit)
    (hEnded : s.isExhausted = true → ∀ c, again c = otherwise c)
    (hAgain : ∀ c stack, Pursues (k := .completion) (again c) clock stack
      (.ok (pull s (.push (.statement index rest below commit) stack)) c)) :
    Resumes clock again (keep s.isExhausted (.mk index rest s) below) commit := by
  cases hExhausted : s.isExhausted with
  | true => exact funext (hEnded hExhausted) ▸ hBelow
  | false =>
    refine ⟨fun c stack => ?_, nofun⟩
    show Pursues (k := .completion) _ _ _ (.ok (pullStatement (.mk index rest s :: below) _ _) _)
    rw [pullStatement_cons rest s below hCommit]
    exact hAgain c stack

/-- A completion of the statements as a whole. -/
theorem pursues_completed (h : Resumes clock otherwise reached commit) (completion : Completion)
    (c : Context) (stack : Stack .completion) :
    Pursues (k := .completion) (.result completion c otherwise) clock stack
      (.ok (found (k := .completion) completion (.sequenced reached commit) stack) c) := by
  refine .atResult (fun hExhausted => h.ended ?_) fun c' stack' => ?_
  · rw [Search.isExhausted, List.isEmpty_iff] at hExhausted
    exact hExhausted
  · exact .of_step (Nat.lt_succ_self _) (h.resumed c' stack')

/-- From a statement on, the machine does what the row of statements does. Of the statements reached
before it is only known what they do when they are asked again. -/
theorem pursues_startStatement {clock : Nat} {otherwise : Context → Course Completion}
    {reached : List Reached} {commit : Option Nat} {child : Stmt → Context → Course Completion}
    (hChild : ∀ stmt c stack,
      Pursues (k := .completion) (child stmt c) clock stack (launch stmt.start stack c))
    (stmt : Stmt) (rest : List Stmt) {index : Nat} (hCommit : commit.any (index < ·) = false)
    (hBefore : ∀ r ∈ reached.head?, r.index < index)
    (hReached : Resumes clock otherwise reached commit) (c : Context)
    (stack : Stack .completion) :
    Pursues (k := .completion) (rows Stmt.isCut child (stmt :: rest) otherwise c) clock stack
      (startStatement index stmt rest reached commit stack c) := by
  rw [startStatement_eq_launch stmt rest reached hCommit, rows]
  -- a `cut` gives up the statements reached before, here and from now on
  generalize hCommitted : (if stmt.isCut = true then some index else commit) = committed
  generalize hOtherwise : (if stmt.isCut = true then Course.done else otherwise) = fallback
  have hCommit : committed.any (index < ·) = false := by
    subst hCommitted
    split
    · simp
    · exact hCommit
  have hReached : Resumes clock fallback reached committed := by
    subst hCommitted hOtherwise
    split
    · exact resumes_givenUp hBefore
    · exact hReached
  refine .each (p := .statement index rest reached committed) (fun s c stack => ?_)
    (fun clock' completion s c again stack hClock hEnded hAgain => ?_) (hChild stmt c _)
  · exact .of_step (Nat.lt_succ_self _) (hReached.resumed c stack)
  refine .of_step (Nat.lt_succ_self _) ?_
  have hResumes := resumes_keep hCommit (hReached.mono hClock) hEnded hAgain
  have hCompleted := pursues_completed hResumes completion c stack
  cases rest with
  | nil => cases completion <;> exact hCompleted
  | cons next rest =>
    cases completion with
    | value v =>
      refine pursues_startStatement (fun stmt c stack => (hChild stmt c stack).mono hClock) next rest
        ?_ (head?_keep hBefore) hResumes c stack
      cases committed with
      | none => rfl
      | some n =>
        simp only [Option.any_some, decide_eq_false_iff_not] at hCommit ⊢
        omega
    | _ => exact hCompleted
termination_by rest.length

/-- Without a statement there is nothing to come back to. -/
theorem resumes_nil (clock : Nat) (commit : Option Nat) : Resumes clock .done [] commit :=
  ⟨fun _ _ => .atEnd, fun _ _ => rfl⟩

/-- From the first statement on, the machine does what the row does. -/
theorem pursues_sequence {child : Stmt → Context → Course Completion}
    (hChild : ∀ stmt c stack,
      Pursues (k := .completion) (child stmt c) clock stack (launch stmt.start stack c))
    (stmts : List Stmt) (c : Context) (stack : Stack .completion) :
    Pursues (k := .completion) (rows Stmt.isCut child stmts .done c) clock stack
      (.ok (pull (.sequence stmts) stack) c) := by
  refine .of_step (Nat.lt_succ_self _) ?_
  cases stmts with
  | nil => exact pursues_completed (resumes_nil clock none) _ c stack
  | cons stmt rest =>
    exact pursues_startStatement hChild stmt rest rfl (by simp) (resumes_nil clock none) c stack

/-- Once a `cut` is reached, it does not matter which statements were reached before it. -/
theorem pursues_cut {child : Stmt → Context → Course Completion}
    (hChild : ∀ stmt c stack,
      Pursues (k := .completion) (child stmt c) clock stack (launch stmt.start stack c))
    {index : Nat} {below : List Reached} (hBefore : ∀ r ∈ below.head?, r.index < index)
    (rest : List Stmt) (c : Context) (stack : Stack .completion) :
    Pursues (k := .completion) (rows Stmt.isCut child rest .done c) clock stack
      (.ok (pull (.sequenced (.mk index rest (.found (.value .undefined)) :: below) (some index))
        stack) c) := by
  have hCommit : (some index).any (index < ·) = false := by simp
  refine .of_step (Nat.lt_succ_self _) ?_
  show Pursues (k := .completion) _ _ _ (.ok (pullStatement _ _ stack) c)
  rw [pullStatement_cons rest _ below hCommit]
  refine .of_step (Nat.lt_succ_of_lt (Nat.lt_succ_self _)) (.of_step (Nat.lt_succ_self _) ?_)
  -- what was reached before the cut is not asked again
  have hGivenUp : Resumes clock .done below (some index) := resumes_givenUp hBefore
  cases rest with
  | nil => exact pursues_completed hGivenUp _ c stack
  | cons next rest =>
    exact pursues_startStatement hChild next rest (by simp)
      (fun r hr => Nat.lt_succ_of_lt (hBefore r hr)) hGivenUp c stack

end Machine

end AmbScript
