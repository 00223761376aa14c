import AmbScript.Proofs.Orphan.Actions

/-!
# Steps with one more frame

A renumbered machine takes the same steps where there is one more frame.

* `Machine.echoes_stepPull`, `Machine.echoes_stepFound`, `Machine.echoes_stepDrained` — the three
  kinds of steps.
* `Machine.echoes_step` — the step.

The proofs go by the constructors of searches and of what waits for them, and each case is put
together from the actions that the step consists of. Whether a search is kept or dropped is settled
by `Search.isExhausted_renumber`, which is what the lemmas about `keep` are for.
-/

namespace AmbScript

variable {k : FrameId} {v : Bool}

open Eval

namespace Machine

-- ---------------------------------------------------------------------------
-- Lists of expressions and statements
-- ---------------------------------------------------------------------------

/-- The last operand is asked. -/
theorem pullOperand_renumber (operands : List Operand) (values : List Value)
    (stack : Stack .tuple) :
    pullOperand (renumberOperands k operands) (values.map (Value.renumber k)) (stack.renumber k) =
      (pullOperand operands values stack).renumber k := by
  rcases operands with _ | ⟨⟨rest, s⟩, below⟩ <;> rfl

/-- The last statement is asked. -/
theorem pullStatement_renumber (reached : List Reached) (commit : Option Nat)
    (stack : Stack .completion) :
    pullStatement (renumberReached k reached) commit (stack.renumber k) =
      (pullStatement reached commit stack).renumber k := by
  rcases reached with _ | ⟨⟨index, rest, s⟩, below⟩
  · rfl
  · show (if _ then _ else _) = (if _ then _ else _ : Machine).renumber k
    split <;> rfl

/-- The next alternative is started. -/
theorem echoes_nextAlternative (start : Checkpoint) (alternatives : List Expr)
    (stack : Stack .value) :
    Echoes k v Context.Grounded (renumber k) (nextAlternative start alternatives stack)
      (nextAlternative start alternatives (stack.renumber k)) := by
  cases alternatives with
  | nil => exact echoes_pure rfl
  | cons e rest => exact e.echoes_start.bind fun _ => echoes_pure rfl

/-- The first operand is started. -/
theorem echoes_startProduct (exprs : List Expr) (stack : Stack .tuple) :
    Echoes k v Context.Grounded (renumber k) (startProduct exprs stack)
      (startProduct exprs (stack.renumber k)) := by
  cases exprs with
  | nil => exact echoes_pure rfl
  | cons e rest => exact e.echoes_start.bind fun _ => echoes_pure rfl

/-- A value is put in its place, and the next operand is started. -/
theorem echoes_fillOperand (operand : Operand) (below : List Operand) (values : List Value)
    (u : Value) (stack : Stack .tuple) :
    Echoes k v Context.Grounded (renumber k) (fillOperand operand below values u stack)
      (fillOperand (operand.renumber k) (renumberOperands k below) (values.map (Value.renumber k))
        (u.renumber k) (stack.renumber k)) := by
  obtain ⟨rest, s⟩ := operand
  cases rest with
  | nil =>
    refine echoes_pure ?_
    show found (k := .tuple) (List.map (Value.renumber k) (u :: values)).reverse _ _ =
      found (k := .tuple) ((u :: values).reverse.map (Value.renumber k)) _ _
    rw [List.map_reverse]
    rfl
  | cons e rest =>
    exact e.echoes_start.bind fun s' =>
      echoes_pure (pullOperand_renumber (.mk rest s' :: .mk (e :: rest) s :: below) (u :: values) stack)

theorem echoes_startStatement (index : Nat) (stmt : Stmt) (rest : List Stmt)
    (below : List Reached) (commit : Option Nat) (stack : Stack .completion) :
    Echoes k v Context.Grounded (renumber k) (startStatement index stmt rest below commit stack)
      (startStatement index stmt rest (renumberReached k below) commit (stack.renumber k)) := by
  refine stmt.echoes_start.bind fun s => ?_
  exact echoes_pure (pullStatement_renumber (.mk index rest s :: below) _ stack)

/-- The first statement is started. -/
theorem echoes_startSequence (statements : List Stmt) (stack : Stack .completion) :
    Echoes k v Context.Grounded (renumber k) (startSequence statements stack)
      (startSequence statements (stack.renumber k)) := by
  cases statements with
  | nil => exact echoes_pure rfl
  | cons stmt rest => exact echoes_startStatement 0 stmt rest [] none stack

/-- A statement is completed, and the next one is started unless it was the last one or leaves the
block. -/
theorem echoes_completeStatement (index : Nat) (rest : List Stmt) (completion : Completion)
    (reached : List Reached) (commit : Option Nat) (stack : Stack .completion) :
    Echoes k v Context.Grounded (renumber k)
      (completeStatement index rest completion reached commit stack)
      (completeStatement index rest (completion.renumber k) (renumberReached k reached) commit
        (stack.renumber k)) := by
  cases completion with
  | value u =>
    cases rest with
    | nil => exact echoes_pure rfl
    | cons stmt rest => exact echoes_startStatement (index + 1) stmt rest reached commit stack
  | _ => exact echoes_pure rfl

/-- The same searches are dropped. -/
theorem renumberReached_keep {i : Kind} (rest : Search i) (top : Reached) (below : List Reached) :
    renumberReached k (keep rest.isExhausted top below) =
      keep (rest.renumber k).isExhausted (top.renumber k) (renumberReached k below) := by
  rw [rest.isExhausted_renumber]
  cases rest.isExhausted <;> rfl

-- ---------------------------------------------------------------------------
-- Loops
-- ---------------------------------------------------------------------------

/-- The same phases of a loop are dropped. -/
theorem renumberPhases_keep {i : Kind} (rest : Search i) (top : Phase) (below : List Phase) :
    renumberPhases k (keep rest.isExhausted top below) =
      keep (rest.renumber k).isExhausted (top.renumber k) (renumberPhases k below) := by
  rw [rest.isExhausted_renumber]
  cases rest.isExhausted <;> rfl

section

variable {P : Context → Prop} (header : Loop) (phases : List Phase) (stack : Stack .completion)

/-- The frame of the loop is entered, if it has one. -/
theorem echoes_enterLoop : Echoes k v P id (enterLoop header) (enterLoop (header.renumber k)) := by
  cases header with
  | whileLoop test body => exact echoes_pure rfl
  | forLoop init test update body frame => exact echoes_enter frame

/-- Entering a loop makes no frame. -/
theorem grounded_enterLoop {c d : Context} {u : Unit} (hc : c.Grounded)
    (h : enterLoop header c = .ok u d) : d.Grounded := by
  cases header <;> cases h <;> exact hc

theorem echoes_leaveLoop : Echoes k v P id (leaveLoop header) (leaveLoop (header.renumber k)) := by
  cases header with
  | whileLoop test body => exact echoes_pure rfl
  | forLoop init test update body frame => exact echoes_leave

/-- The test, or true where there is none. -/
theorem echoes_startTest :
    Echoes k v Context.Grounded (Phase.renumber k) (startTest header)
      (startTest (header.renumber k)) := by
  cases header with
  | whileLoop test body => exact test.echoes_start.bind fun _ => echoes_pure rfl
  | forLoop init test update body frame =>
    cases test with
    | none => exact echoes_pure rfl
    | some test => exact test.echoes_start.bind fun _ => echoes_pure rfl

theorem echoes_startLoop :
    Echoes k v Context.Grounded (Phase.renumber k) (startLoop header)
      (startLoop (header.renumber k)) := by
  cases header with
  | whileLoop test body => exact echoes_startTest (.whileLoop test body)
  | forLoop init test update body frame =>
    cases init with
    | none => exact echoes_startTest (.forLoop none test update body frame)
    | some init => exact init.toStmt.echoes_start.bind fun _ => echoes_pure rfl

/-- The body, in a new frame if the loop has variables of its own. -/
theorem echoes_startBody :
    Echoes k v P (Phase.renumber k) (startBody header) (startBody (header.renumber k)) := by
  cases header with
  | whileLoop test body => exact body.echoes_start.bind fun _ => echoes_pure rfl
  | forLoop init test update body frame =>
    exact (echoes_openRound init frame).bind fun round => (echoes_enter round).bind fun _ =>
      body.echoes_start.bind fun _ => echoes_leave.bind fun _ => echoes_pure rfl

theorem echoes_startUpdate :
    Echoes k v Context.Grounded (Phase.renumber k) (startUpdate header)
      (startUpdate (header.renumber k)) := by
  cases header with
  | whileLoop test body => exact echoes_startTest (.whileLoop test body)
  | forLoop init test update body frame =>
    cases update with
    | none => exact echoes_startTest (.forLoop init test none body frame)
    | some update => exact update.echoes_start.bind fun _ => echoes_pure rfl

theorem echoes_pullPhase :
    Echoes k v P (renumber k) (pullPhase header phases stack)
      (pullPhase (header.renumber k) (renumberPhases k phases) (stack.renumber k)) := by
  cases phases with
  | nil => exact (echoes_leaveLoop header).bind fun _ => echoes_pure rfl
  | cons p below => cases p <;> exact echoes_pure rfl

/-- A part of the loop is started on top of the others. -/
theorem echoes_launchPhase {x y : Eval Phase} (h : Echoes k v P (Phase.renumber k) x y) :
    Echoes k v P (renumber k) (do pullPhase header ((← x) :: phases) stack)
      (do pullPhase (header.renumber k) ((← y) :: renumberPhases k phases) (stack.renumber k)) := by
  refine h.bind fun p => ?_
  exact echoes_pullPhase header (p :: phases) stack

theorem echoes_completeLoop (completion : Completion) :
    Echoes k v P (renumber k) (completeLoop header phases completion stack)
      (completeLoop (header.renumber k) (renumberPhases k phases) (completion.renumber k)
        (stack.renumber k)) := by
  refine (echoes_leaveLoop header).bind fun _ => ?_
  exact echoes_pure rfl

theorem testSpan_renumber : testSpan (header.renumber k) = testSpan header := by
  cases header <;> rfl

/-- The loop goes on or is over, according to the same truth value. -/
theorem echoes_afterTest (test : Value) :
    Echoes k v P (renumber k) (afterTest header phases test stack)
      (afterTest (header.renumber k) (renumberPhases k phases) (test.renumber k)
        (stack.renumber k)) := by
  have hBad : Echoes k v P (renumber k) (nonBoolean test (testSpan header))
      (nonBoolean (test.renumber k) (testSpan (header.renumber k))) := by
    rw [testSpan_renumber]
    exact echoes_nonBoolean test _
  cases test with
  | bool b =>
    cases b
    · exact echoes_completeLoop header phases stack (.value .undefined)
    · exact echoes_launchPhase header phases stack (echoes_startBody header)
  | _ => exact hBad

/-- The body is left, and what comes next depends on how it was completed. -/
theorem echoes_afterBody (completion : Completion) :
    Echoes k v Context.Grounded (renumber k) (afterBody header phases completion stack)
      (afterBody (header.renumber k) (renumberPhases k phases) (completion.renumber k)
        (stack.renumber k)) := by
  cases completion with
  | value u => exact echoes_launchPhase header phases stack (echoes_startUpdate header)
  | continueLoop => exact echoes_launchPhase header phases stack (echoes_startUpdate header)
  | breakLoop => exact echoes_completeLoop header phases stack (.value .undefined)
  | returns u => exact echoes_completeLoop header phases stack (.returns u)

end

-- ---------------------------------------------------------------------------
-- The step
-- ---------------------------------------------------------------------------

theorem echoes_checkpoint {P : Context → Prop} :
    Echoes k v P id Eval.checkpoint Eval.checkpoint := by
  intro c d _ hShifted
  show Echoed k v id (.ok c.moment _) (.ok d.moment _)
  rw [hShifted.moment]
  exact .ok c.moment hShifted.checkpoint

theorem echoes_restore {P : Context → Prop} (start : Checkpoint) :
    Echoes k v P id (Eval.restore start) (Eval.restore start) :=
  echoes_modify fun _ _ h => h.restore start

/-- A search is asked for a result. -/
theorem echoes_stepPull {i : Kind} (s : Search i) (stack : Stack i) :
    Echoes k v Context.Grounded (renumber k) (stepPull s stack)
      (stepPull (s.renumber k) (stack.renumber k)) := by
  cases s with
  | once item => cases item <;> exact echoes_pure rfl
  | within frame inner => exact (echoes_enter frame).bind fun _ => echoes_pure rfl
  | choice alternatives =>
    -- A mark changes no frame, so the alternative starts where frames are still grounded.
    refine echoes_checkpoint.bindKept (fun c start d hc h => ?_) fun start =>
      echoes_nextAlternative start alternatives stack
    cases h
    exact hc
  | choosing start current alternatives =>
    cases current with
    | none => exact echoes_nextAlternative start alternatives stack
    | some s => exact echoes_pure rfl
  | product exprs => exact echoes_startProduct exprs stack
  | producing operands values => exact echoes_pure (pullOperand_renumber operands values stack)
  | sequence statements => exact echoes_startSequence statements stack
  | sequenced reached commit => exact echoes_pure (pullStatement_renumber reached commit stack)
  | loop header =>
    refine (echoes_enterLoop header).bindKept (fun _ _ _ => grounded_enterLoop header) fun _ => ?_
    exact echoes_launchPhase header [] stack (echoes_startLoop header)
  | looping header phases =>
    exact (echoes_enterLoop header).bind fun _ => echoes_pullPhase header phases stack
  | _ => exact echoes_pure rfl

/-- A search has found a result, and what waits for it goes on. -/
theorem echoes_stepFound {i o : Kind} (item : i.Item) (rest : Search i) (p : Pending i o)
    (stack : Stack o) :
    Echoes k v Context.Grounded (renumber k) (stepFound Search.isExhausted item rest p stack)
      (stepFound Search.isExhausted (i.renumber k item) (rest.renumber k) (p.renumber k)
        (stack.renumber k)) := by
  cases p with
  | map f => exact (f.echoes_apply item).bind fun _ => echoes_pure rfl
  | outer f => exact (f.echoes_apply item).bind fun _ => echoes_pure rfl
  | inner f outer =>
    refine echoes_pure ?_
    show found _ (if (rest.renumber k).isExhausted then _ else _) _ =
      (found item (if rest.isExhausted then _ else _) stack).renumber k
    -- whether a search is exhausted does not depend on its frames' numbers
    rw [rest.isExhausted_renumber]
    cases rest.isExhausted <;> rfl
  | within frame => exact echoes_leave.bind fun _ => echoes_pure rfl
  | choosing start alternatives => exact echoes_pure rfl
  | operand exprs below values => exact echoes_fillOperand (.mk exprs rest) below values item stack
  | statement index stmts below commit =>
    have hNext := echoes_completeStatement (k := k) (v := v) index stmts item
      (keep rest.isExhausted (.mk index stmts rest) below) commit stack
    rw [renumberReached_keep] at hNext
    exact hNext
  | init header below =>
    have hNext := echoes_launchPhase (v := v) header (keep rest.isExhausted (.init rest) below) stack
      (echoes_startTest (k := k) header)
    rw [renumberPhases_keep] at hNext
    exact hNext
  | test header below =>
    have hNext := echoes_afterTest (k := k) (v := v) (P := Context.Grounded) header
      (keep rest.isExhausted (.test rest) below) stack item
    rw [renumberPhases_keep] at hNext
    exact hNext
  | body header below =>
    have hNext := echoes_afterBody (k := k) (v := v) header
      (keep rest.isExhausted (.body rest) below) stack item
    rw [renumberPhases_keep] at hNext
    exact hNext
  | update header below =>
    have hNext := echoes_launchPhase (v := v) header (keep rest.isExhausted (.update rest) below)
      stack (echoes_startTest (k := k) header)
    rw [renumberPhases_keep] at hNext
    exact hNext

/-- A search has no more results, and what waits for it looks elsewhere. -/
theorem echoes_stepDrained {i o : Kind} (rest : Search i) (p : Pending i o) (stack : Stack o) :
    Echoes k v Context.Grounded (renumber k) (stepDrained rest p stack)
      (stepDrained (rest.renumber k) (p.renumber k) (stack.renumber k)) := by
  cases p with
  | within frame => exact echoes_leave.bind fun _ => echoes_pure rfl
  | choosing start alternatives =>
    -- Going back removes bindings but no frames.
    refine (echoes_restore start).bindKept (fun c u d hc h => ?_) fun _ =>
      echoes_nextAlternative start alternatives stack
    cases h
    exact Store.Grounded.unwindTo hc _
  | operand exprs below values =>
    refine echoes_pure ?_
    rw [← pullOperand_renumber, List.map_tail]
  | statement index stmts below commit =>
    exact echoes_pure (pullStatement_renumber below commit stack)
  | init header below | test header below | body header below | update header below =>
    exact echoes_pullPhase header below stack
  | _ => exact echoes_pure rfl

/-- Where there is one more frame, a renumbered machine takes the same step. -/
theorem echoes_step (m : Machine) :
    Echoes k v Context.Grounded (renumber k) (m.step Search.isExhausted)
      ((m.renumber k).step Search.isExhausted) := by
  obtain ⟨i, walk, stack⟩ := m
  cases walk with
  | pull s => exact echoes_stepPull s stack
  | found item rest =>
    cases stack with
    | nil => exact echoes_pure rfl
    | push p below => exact echoes_stepFound item rest p below
  | drained rest =>
    cases stack with
    | nil => exact echoes_pure rfl
    | push p below => exact echoes_stepDrained rest p below

end Machine

end AmbScript
