import AmbScript.Proofs.Course.Basic
import AmbScript.Proofs.Listing.Loops
import AmbScript.Proofs.Machine.Budget

/-!
# Loops

What the completions of a loop are, told by what its test, body and update do, round by round; and
that the machine, which keeps one stack of all parts of the loop that were reached, finds just
these, in the same order.

* `Loop.rounds`, `Loop.unfolding` — the rounds of a loop, from a test on and from the start on.
* `Machine.pursues_rounds` — the machine takes these rounds.
* `Search.loop_unfolds` — what the completions of a loop are.

A loop may go round without ever completing, so its unfolding is cut off after a number of rounds.
The machine takes a step at least for each of them, which is why the clock of `Machine.Pursues` and
the number of rounds can be the same number.
-/

namespace AmbScript

open Machine Eval Course

variable {clock : Nat}

-- ---------------------------------------------------------------------------
-- Inside a frame
-- ---------------------------------------------------------------------------

/-- What is done inside the frame, seen from outside. -/
def Course.inside {α : Type} (frame : FrameId) (P : Course α) : Course α :=
  P.each (fun c => .done c.leave) fun item c again =>
    .result item c.leave fun c' => again (c'.enter frame)

/-- The machine leaves the frame with each result and enters it again for the next one. -/
theorem Machine.pursues_inside {k : Kind} {P : Course k.Item} {frame : FrameId} {stack : Stack k}
    {r : EStateM.Result Fault Context Machine}
    (h : Pursues P clock (.push (.within frame) stack) r) :
    Pursues (P.inside frame) clock stack r := by
  refine .each (p := .within frame) (fun rest c stack => .of_step (Nat.lt_succ_self _) .atEnd)
    (fun clock' item rest c again stack hClock hEnded hAgain => ?_) h
  refine .of_step (Nat.lt_succ_self _) (.atResult (fun hExhausted c' => ?_) fun c' stack' => ?_)
  · rw [Search.isExhausted] at hExhausted
    exact hEnded hExhausted _
  · exact .of_step (Nat.lt_succ_self _) (hAgain _ stack')

-- ---------------------------------------------------------------------------
-- Rounds
-- ---------------------------------------------------------------------------

/-- What the expressions, statements and blocks do that are parts of a loop. -/
structure Course.Parts where
  expr : Expr → Context → Course Value
  stmt : Stmt → Context → Course Completion
  block : Block → Context → Course Completion

/-- What they do when they are started. -/
noncomputable def Course.parts (n : Nat) : Course.Parts :=
  ⟨fun e => Eval.course n e.start, fun s => Eval.course n s.start, fun b => Eval.course n b.start⟩

namespace Loop

/-- A completion of the loop: it is found outside of the loop's frame; what is to be done afterwards
is done inside again. -/
def completes (header : Loop) (completion : Completion) (c : Context)
    (again : Context → Course Completion) : Course Completion :=
  .result completion (header.left c) fun c' => again (header.entered c')

/-- The values of the test. A missing test holds. -/
def tested (parts : Course.Parts) (header : Loop) (c : Context) : Course Value :=
  match header.test? with
  | some test => parts.expr test c
  | none => .result (.bool true) c .done

/-- The completions of the body. In a `for` loop it is run inside of the frame of the round. -/
def bodyRun (parts : Course.Parts) : Loop → Context → Course Completion
  | whileLoop _ body, c => parts.block body c
  | forLoop init _ _ body frame, c =>
    match Eval.openRound init frame c with
    | .ok round d => (parts.block body (d.enter round)).inside round
    | .error t d => .fault t d

/-- What comes after the body: each value of the update, if there is one, goes on to `next`. -/
def updated (parts : Course.Parts) (header : Loop)
    (next : (Context → Course Completion) → Context → Course Completion) (c : Context)
    (again : Context → Course Completion) : Course Completion :=
  match header.update? with
  | none => next again c
  | some update => (parts.expr update c).each again fun _ d again => next again d

/-- Up to a number of rounds, from a test on. Each result of the test, of the body and of the update
is gone on from, one after the other; when all comes to its end `otherwise` is to be done. -/
def rounds (parts : Course.Parts) (header : Loop) :
    Nat → (Context → Course Completion) → Context → Course Completion
  | 0, _, _ => .unknown
  | n + 1, otherwise, c =>
    (header.tested parts c).each otherwise fun test d again =>
      match test with
      | .bool false => header.completes (.value .undefined) d again
      | .bool true =>
        (header.bodyRun parts d).each again fun completion e again =>
          match completion with
          | .breakLoop => header.completes (.value .undefined) e again
          | .returns v => header.completes (.returns v) e again
          | .value _ => header.updated parts (rounds parts header n) e again
          | .continueLoop => header.updated parts (rounds parts header n) e again
      | v => .fault (.nonBooleanCondition v.typeName (testSpan header)) d

/-- The loop as a whole. Each result of what comes first in a `for` loop starts rounds of its
own. -/
def unfolding (parts : Course.Parts) (n : Nat) (header : Loop) (c : Context) : Course Completion :=
  let ended (c : Context) : Course Completion := .done (header.left c)
  match header with
  | forLoop (some init) _ _ _ _ =>
    (parts.stmt init.toStmt (header.entered c)).each ended fun _ d again =>
      header.rounds parts n again d
  | _ => header.rounds parts n ended (header.entered c)

end Loop

-- ---------------------------------------------------------------------------
-- The machine takes the rounds
-- ---------------------------------------------------------------------------

namespace Machine

/-- The parts do what is said of them. -/
structure PursuesParts (parts : Course.Parts) (clock : Nat) : Prop where
  expr (e : Expr) (c : Context) (stack : Stack .value) :
    Pursues (k := .value) (parts.expr e c) clock stack (launch e.start stack c)
  stmt (s : Stmt) (c : Context) (stack : Stack .completion) :
    Pursues (k := .completion) (parts.stmt s c) clock stack (launch s.start stack c)
  block (b : Block) (c : Context) (stack : Stack .completion) :
    Pursues (k := .completion) (parts.block b c) clock stack (launch b.start stack c)

/-- A clock that is behind. -/
theorem PursuesParts.mono {parts : Course.Parts} {clock' : Nat} (h : PursuesParts parts clock)
    (hClock : clock' ≤ clock) : PursuesParts parts clock' := by
  refine ⟨?_, ?_, ?_⟩
  · intro e c stack
    exact (h.expr e c stack).mono hClock
  · intro s c stack
    exact (h.stmt s c stack).mono hClock
  · intro b c stack
    exact (h.block b c stack).mono hClock

/-- Parts that are started do what their searches do. -/
theorem pursuesParts_parts (n : Nat) : PursuesParts (Course.parts n) n := by
  refine ⟨?_, ?_, ?_⟩
  · intro e c stack
    exact pursues_launch n e.start c stack
  · intro s c stack
    exact pursues_launch n s.start c stack
  · intro b c stack
    exact pursues_launch n b.start c stack

/-- What comes once the parts of the loop that were reached have no more results that are not known
yet. -/
structure Rejoins (header : Loop) (clock : Nat) (otherwise : Context → Course Completion)
    (phases : List Phase) : Prop where
  resumed (c : Context) (stack : Stack .completion) :
    Pursues (k := .completion) (otherwise c) clock stack (pullPhase header phases stack c)
  ended (h : phases = []) (c : Context) : otherwise c = .done (header.left c)

section

variable {header : Loop} {otherwise again : Context → Course Completion} {below phases : List Phase}
  {parts : Course.Parts}

/-- A clock that is behind. -/
theorem Rejoins.mono {clock' : Nat} (h : Rejoins header clock otherwise phases)
    (hClock : clock' ≤ clock) : Rejoins header clock' otherwise phases := by
  refine ⟨?_, h.ended⟩
  intro c stack
  exact (h.resumed c stack).mono hClock

/-- To enter a loop and to leave it again changes nothing. -/
theorem left_entered (header : Loop) (c : Context) : header.left (header.entered c) = c := by
  cases header <;> rfl

/-- The part of the loop that was reached last goes on, unless it has come to its end. -/
theorem rejoins_keep {k : Kind} {s : Search k} {p : Pending k .completion} (phase : Phase)
    (hPull : ∀ stack c, pullPhase header (phase :: below) stack c = .ok (pull s (.push p stack)) c)
    (hBelow : Rejoins header clock otherwise below)
    (hEnded : s.isExhausted = true → ∀ c, again c = otherwise c)
    (hAgain : ∀ c stack, Pursues (k := .completion) (again c) clock stack
      (.ok (pull s (.push p stack)) c)) :
    Rejoins header clock again (keep s.isExhausted phase below) := by
  cases hExhausted : s.isExhausted with
  | true => exact funext (hEnded hExhausted) ▸ hBelow
  | false => exact ⟨fun c stack => hPull stack c ▸ hAgain c stack, nofun⟩

/-- A completion of the loop as a whole. -/
theorem pursues_completes (h : Rejoins header clock again phases) (completion : Completion)
    (c : Context) (stack : Stack .completion) :
    Pursues (k := .completion) (header.completes completion c again) clock stack
      (completeLoop header phases completion stack c) := by
  unfold completeLoop
  rw [bind_of_ok (header.leaveLoop_apply c)]
  refine .atResult (fun hExhausted c' => ?_) fun c' stack' => .of_step (Nat.lt_succ_self _) ?_
  · rw [Search.isExhausted, List.isEmpty_iff] at hExhausted
    rw [h.ended hExhausted, left_entered]
  · show Pursues (k := .completion) _ _ _ ((enterLoop header >>= fun _ => _) c')
    rw [bind_of_ok (enterLoop_apply header c')]
    exact h.resumed _ stack'

/-- To start a part of the loop is to start its search and to ask it for a result. -/
theorem launch_phase {k : Kind} (x : Eval (Search k)) (phase : Search k → Phase)
    (p : Pending k .completion) {stack : Stack .completion}
    (hPull : ∀ s c, pullPhase header (phase s :: below) stack c = .ok (pull s (.push p stack)) c)
    (c : Context) :
    ((do return phase (← x)) >>= fun part => pullPhase header (part :: below) stack) c =
      launch x (.push p stack) c := by
  show EStateM.bind (EStateM.bind x _) _ c = EStateM.bind x _ c
  unfold EStateM.bind
  cases x c with
  | error t d => rfl
  | ok s d => exact hPull s d

/-- The machine finds the values of the test. -/
theorem pursues_tested (hParts : PursuesParts parts clock) (header : Loop) (below : List Phase)
    (c : Context) (stack : Stack .completion) :
    Pursues (k := .value) (header.tested parts c) clock (.push (.test header below) stack)
      ((startTest header >>= fun part => pullPhase header (part :: below) stack) c) := by
  rw [header.startTest_eq, launch_phase header.testStart .test (.test header below) (fun _ _ => rfl)]
  match header with
  | .whileLoop test body => exact hParts.expr test c _
  | .forLoop init (some test) update body frame => exact hParts.expr test c _
  | .forLoop init none update body frame =>
    exact .of_step (Nat.lt_succ_self _)
      (.atResult (fun _ _ => rfl) fun c' stack' => .of_step (Nat.lt_succ_self _) .atEnd)

/-- It finds the completions of the body. -/
theorem pursues_bodyRun (hParts : PursuesParts parts clock) (header : Loop) (below : List Phase)
    (c : Context) (stack : Stack .completion) :
    Pursues (k := .completion) (header.bodyRun parts c) clock (.push (.body header below) stack)
      ((startBody header >>= fun part => pullPhase header (part :: below) stack) c) := by
  rw [header.startBody_eq, launch_phase header.bodyStart .body (.body header below) (fun _ _ => rfl)]
  generalize Stack.push (Pending.body header below) stack = stack
  cases header with
  | whileLoop test body => exact hParts.block body c stack
  | forLoop init test update body frame =>
    obtain ⟨round, store, hRound⟩ := openRound_apply init frame c
    let d : Context := { c with store := store }
    have hBlock := pursues_inside (hParts.block body (d.enter round) (.push (.within round) stack))
    unfold launch Loop.bodyStart
    simp only [Loop.bodyRun, hRound, bind_assoc]
    rw [bind_of_ok hRound, bind_of_ok (show Eval.enter round d = .ok () (d.enter round) from rfl)]
    cases hStart : body.start (d.enter round) with
    | error t e =>
      rw [bind_of_error hStart]
      rwa [show launch body.start _ _ = .error t e from bind_of_error hStart _] at hBlock
    | ok s e =>
      rw [bind_of_ok hStart]
      rw [show launch body.start _ _ = .ok (pull s _) e from bind_of_ok hStart _] at hBlock
      refine .of_step (Nat.lt_succ_self _) ?_
      -- the frame of the round is left for a moment only
      have hInner : e.inner = round :: c.inner := (body.forward_start _ _ _ hStart).inner
      have hBack : e.leave.enter round = e := by
        show { e with inner := round :: e.inner.tail } = e
        rw [hInner]
        exact congrArg (fun fs => { e with inner := fs }) hInner.symm
      show Pursues (k := .completion) _ clock _ (.ok (pull s _) (e.leave.enter round))
      rwa [hBack]

/-- From the values of the update, or else at once, the machine goes on to what comes next. -/
theorem pursues_updated (hParts : PursuesParts parts clock)
    {next : (Context → Course Completion) → Context → Course Completion}
    (hNext : ∀ clock' again phases c stack, clock' ≤ clock → Rejoins header clock' again phases →
      Pursues (k := .completion) (next again c) clock' stack
        ((startTest header >>= fun part => pullPhase header (part :: phases) stack) c))
    (hRejoins : Rejoins header clock again phases) (c : Context) (stack : Stack .completion) :
    Pursues (k := .completion) (header.updated parts next c again) clock stack
      ((startUpdate header >>= fun part => pullPhase header (part :: phases) stack) c) := by
  match header with
  | .whileLoop test body => exact hNext clock again phases c stack (Nat.le_refl _) hRejoins
  | .forLoop init test none body frame =>
    exact hNext clock again phases c stack (Nat.le_refl _) hRejoins
  | .forLoop init test (some update) body frame =>
    unfold startUpdate
    rw [launch_phase update.start .update
      (.update (.forLoop init test (some update) body frame) phases) (fun _ _ => rfl) c]
    -- each value of the update is followed by rounds of its own
    refine .each (fun s c stack => .of_step (Nat.lt_succ_self _) (hRejoins.resumed c stack))
      (fun clock' v s c again stack hLess hEnded hAgain => ?_) (hParts.expr update c _)
    refine .of_step (Nat.lt_succ_self _) (hNext clock' again _ c stack hLess ?_)
    exact rejoins_keep (.update s) (fun _ _ => rfl) (hRejoins.mono hLess) hEnded hAgain

/-- From a test on the machine takes the rounds of the loop, at least a step for each. -/
theorem pursues_rounds (hParts : PursuesParts parts clock) {n : Nat} (hClock : clock ≤ n)
    (hRejoins : Rejoins header clock otherwise phases) (c : Context) (stack : Stack .completion) :
    Pursues (k := .completion) (header.rounds parts n otherwise c) clock stack
      ((startTest header >>= fun part => pullPhase header (part :: phases) stack) c) := by
  induction n generalizing clock otherwise phases c stack with
  -- No round is known, and no step is asked about.
  | zero => exact fun i hi => absurd hi (by omega)
  | succ n ih =>
    rw [Loop.rounds]
    refine .each (p := .test header phases)
      (fun s c stack => .of_step (Nat.lt_succ_self _) (hRejoins.resumed c stack))
      (fun clock' test s c again stack hLess hEnded hAgain => ?_)
      (pursues_tested hParts header phases c stack)
    have hTested := rejoins_keep (.test s) (fun _ _ => rfl) (hRejoins.mono hLess) hEnded
      hAgain
    refine .of_counted_step (Nat.lt_succ_self _) ?_
    show Pursues (k := .completion) _ _ stack (afterTest header _ test stack c)
    have hTested := hTested.mono (Nat.sub_le clock' 1)
    have hParts := hParts.mono (Nat.le_trans (Nat.sub_le clock' 1) hLess)
    have hClock : clock' - 1 ≤ n := by omega
    generalize keep s.isExhausted (Phase.test s) phases = phases at *
    generalize clock' - 1 = clock' at *
    match test with
    | .bool false => exact pursues_completes hTested _ c stack
    | .bool true =>
      refine .each (p := .body header phases)
        (fun s c stack => .of_step (Nat.lt_succ_self _) (hTested.resumed c stack))
        (fun clock' completion s c again stack hLess hEnded hAgain => ?_)
        (pursues_bodyRun hParts header phases c stack)
      -- From here on it is a matter of the completion: the round before this one goes on in any
      -- case.
      have hRun := rejoins_keep (.body s) (fun _ _ => rfl) (hTested.mono hLess) hEnded
        hAgain
      have hUpdated := pursues_updated (hParts.mono hLess)
        (fun clock'' again phases c stack hLess' hRejoins =>
          ih (hParts.mono (Nat.le_trans hLess' hLess)) (by omega) hRejoins c stack) hRun c stack
      refine .of_step (Nat.lt_succ_self _) ?_
      cases completion with
      | value v => exact hUpdated
      | continueLoop => exact hUpdated
      | breakLoop => exact pursues_completes hRun _ c stack
      | returns v => exact pursues_completes hRun _ c stack
    | .undefined | .null | .number _ | .string _ | .pair .. | .array .. | .closure ..
    | .primitive _ =>
      exact .atFault

/-- Without a part that was reached the loop is left. -/
theorem rejoins_nil (header : Loop) (clock : Nat) :
    Rejoins header clock (fun c => .done (header.left c)) [] := by
  refine ⟨fun c stack => ?_, fun _ _ => rfl⟩
  show Pursues (k := .completion) _ clock stack ((leaveLoop header >>= fun _ => _) c)
  rw [bind_of_ok (header.leaveLoop_apply c)]
  exact .atEnd

/-- The loop as a whole. -/
theorem pursues_loop (hParts : PursuesParts parts clock) (header : Loop) (c : Context)
    (stack : Stack .completion) :
    Pursues (k := .completion) (header.unfolding parts clock c) clock stack
      (.ok (pull (.loop header) stack) c) := by
  refine .of_step (Nat.lt_succ_self _) ?_
  show Pursues (k := .completion) _ clock stack ((enterLoop header >>= fun _ => _) c)
  rw [bind_of_ok (enterLoop_apply header c)]
  have hNone := rejoins_nil header clock
  match header with
  | .whileLoop test body => exact pursues_rounds hParts (Nat.le_refl _) hNone _ stack
  | .forLoop none test update body frame =>
    exact pursues_rounds hParts (Nat.le_refl _) hNone _ stack
  | .forLoop (some init) test update body frame =>
    -- each result of the initializer is followed by all rounds that start from it
    unfold startLoop
    rw [launch_phase init.toStmt.start .init
      (.init (.forLoop (some init) test update body frame) []) (fun _ _ => rfl)]
    refine .each (fun s c stack => .of_step (Nat.lt_succ_self _) (hNone.resumed c stack))
      (fun clock' completion s c again stack hLess hEnded hAgain => ?_) (hParts.stmt init.toStmt _ _)
    refine .of_step (Nat.lt_succ_self _)
      (pursues_rounds (hParts.mono hLess) hLess ?_ c stack)
    exact rejoins_keep (.init s) (fun _ _ => rfl) (hNone.mono hLess) hEnded hAgain

end

end Machine

-- ---------------------------------------------------------------------------
-- The frames of a loop
-- ---------------------------------------------------------------------------

namespace Eval

/-- Copies are made in one frame only, of the variables named. -/
theorem copyVariables_eq_ok {source target : FrameId} (hOther : source ≠ target)
    (names : List Ident) {c : Context} {scope : Scope}
    (hScope : c.store.scope? target = some scope) :
    ∃ d, copyVariables source target names c = .ok () d ∧
      d.store.scope? target = some { scope with
        binding? := fun n => if n ∈ names.map Ident.name then
          some (.ofValue ((c.store.binding? source n >>= Binding.value?).getD .undefined) true)
        else scope.binding? n } ∧
      ∀ f, f ≠ target → d.store.scope? f = c.store.scope? f := by
  induction names generalizing c scope with
  | nil => exact ⟨c, rfl, by simpa using hScope, fun _ _ => rfl⟩
  | cons name names ih =>
    let v := (c.store.binding? source name.name >>= Binding.value?).getD .undefined
    let c₁ : Context := { c with store := c.store.write target name.name (.ofValue v true) }
    have hFirst : c₁.store.scope? target = some (scope.set name.name (some (.ofValue v true))) := by
      show (c.store.write target name.name _).scope? target = _
      rw [Store.scope?_write, if_pos rfl, hScope]
      rfl
    have hOthers (f : FrameId) (hf : f ≠ target) : c₁.store.scope? f = c.store.scope? f := by
      show (c.store.write target name.name _).scope? f = _
      rw [Store.scope?_write, if_neg hf]
    -- The copies are made in another frame, so the later ones see the same variables.
    have hSource (n : String) : c₁.store.binding? source n = c.store.binding? source n := by
      rw [Store.binding?_eq, Store.binding?_eq, hOthers source hOther]
    obtain ⟨d, hRest, hTarget, hSame⟩ := ih hFirst
    refine ⟨d, hRest, hTarget.trans (congrArg some ?_),
      fun f hf => (hSame f hf).trans (hOthers f hf)⟩
    simp only [Scope.set, Scope.mk.injEq, true_and, hSource]
    funext n
    by_cases hName : n = name.name
    · subst hName
      simp [v]
    · simp [hName]

/-- The frame of a round has constant copies of the loop's variables, and nothing else. -/
theorem openRound_eq_ok (init : Option LoopInit) {frame : FrameId} {c : Context}
    (hMade : frame < c.store.nextFrame) :
    ∃ d, openRound init frame c = .ok c.store.nextFrame d ∧ ∀ f, d.store.scope? f =
      if f = c.store.nextFrame then
        some ⟨"forBlockEnvironment", some c.current, none, fun n =>
          if n ∈ ((init.map LoopInit.declared).getD []).map Ident.name then
            some (.ofValue ((c.store.binding? frame n >>= Binding.value?).getD .undefined) true)
          else none⟩
      else c.store.scope? f := by
  let c₁ := c.newFrame "forBlockEnvironment" c.current none
  have hNew : c₁.store.scope? c.store.nextFrame =
      some ⟨"forBlockEnvironment", some c.current, none, fun _ => none⟩ :=
    (Store.scope?_newFrame ..).trans (if_pos rfl)
  have hOld (f : FrameId) (hf : f ≠ c.store.nextFrame) : c₁.store.scope? f = c.store.scope? f :=
    (Store.scope?_newFrame ..).trans (if_neg hf)
  -- the copies are read from the frame of the loop, which is another one than that of the round
  obtain ⟨d, hCopied, hRound, hOthers⟩ := copyVariables_eq_ok (Nat.ne_of_lt hMade)
    ((init.map LoopInit.declared).getD []) hNew
  refine ⟨d, bind_eq_ok.mpr ⟨_, c₁, rfl, bind_eq_ok.mpr ⟨(), d, hCopied, rfl⟩⟩, fun f => ?_⟩
  split
  · next hSame =>
    rw [hSame, hRound]
    simp only [Store.binding?_eq, hOld frame (Nat.ne_of_lt hMade)]
  · next hOther => rw [hOthers f hOther, hOld f hOther]

end Eval

/-- A block is run in a frame that was not there before. -/
theorem Block.start_eq_ok {b : Block} {c d : Context} {s : Search .completion}
    (h : b.start c = .ok s d) :
    s = .within c.store.nextFrame (.sequence b.statements) ∧
      c.store.nextFrame < d.store.nextFrame := by
  obtain ⟨frame, e, hOpen, hPure⟩ := bind_eq_ok.mp h
  obtain ⟨frame', c₁, hChild, hRest⟩ := bind_eq_ok.mp hOpen
  obtain ⟨u, e', hHoist, hGiven⟩ := bind_eq_ok.mp hRest
  cases hPure
  cases hGiven
  cases hChild
  have hLater := ((filling_hoist b).forward _ _ _ hHoist).store.frames
  exact ⟨rfl, Nat.lt_of_lt_of_le (Store.nextFrame_newFrame .. ▸ Nat.lt_succ_self _) hLater⟩

-- ---------------------------------------------------------------------------
-- The law
-- ---------------------------------------------------------------------------

/-- The completions of a loop are those of its rounds, each result of a part of a round being gone
on from before the next one is asked for; once they have come to their end there are no more. The
body is run in a frame of its own, in a `for` loop inside of one that has constant copies of the
loop's variables as they are when the round begins. -/
theorem Search.loop_unfolds (header : Loop) (c : Context) :
    (∀ cs event, (Search.loop header).Tells c cs event ↔
      ∃ n, (header.unfolding (Course.parts n) n c).told cs = some event) ∧
    (∀ (b : Block) c d s, b.start c = .ok s d →
      s = .within c.store.nextFrame (.sequence b.statements) ∧
        c.store.nextFrame < d.store.nextFrame) ∧
    (∀ (init : Option LoopInit) frame (c : Context), frame < c.store.nextFrame →
      ∃ d, Eval.openRound init frame c = .ok c.store.nextFrame d ∧ ∀ f, d.store.scope? f =
        if f = c.store.nextFrame then
          some ⟨"forBlockEnvironment", some c.current, none, fun n =>
            if n ∈ ((init.map LoopInit.declared).getD []).map Ident.name then
              some (.ofValue ((c.store.binding? frame n >>= Binding.value?).getD .undefined) true)
            else none⟩
        else c.store.scope? f) := by
  refine ⟨?_, ?_, ?_⟩
  · refine Search.tells_iff fun n => ?_
    exact pursues_loop (pursuesParts_parts n) header c
  · intro _ _ _ _ h
    exact Block.start_eq_ok h
  · intro init _ _ hMade
    exact Eval.openRound_eq_ok init hMade

/-- A context with one frame, in which `n` is bound to `true`. -/
def Context.withTruth : Context :=
  { (default : Context) with
    store := (Store.empty.newFrame "forLoopEnvironment" none none).write 0 "n"
      (.ofValue (.bool true) false) }

/-- A round of `for (let n = true; ; ) {}` has a constant `n`, which is `true`. -/
theorem Loop.copies_truth : ∃ d,
    Eval.openRound (some (.declare ⟨"n", default⟩ (.bool true default) default)) 0 .withTruth =
      .ok 1 d ∧ d.store.binding? 1 "n" = some (.ofValue (.bool true) true) := by
  obtain ⟨d, hRound, hScopes⟩ := (Search.loop_unfolds (.whileLoop default default) default).2.2
    (some (.declare ⟨"n", default⟩ (.bool true default) default)) 0 .withTruth (by decide)
  refine ⟨d, hRound, ?_⟩
  rw [Store.binding?_eq, hScopes 1]
  rfl

end AmbScript
