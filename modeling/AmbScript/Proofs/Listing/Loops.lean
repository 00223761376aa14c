import AmbScript.Proofs.Listing.Searches
import AmbScript.Proofs.Machine.Spent

/-!
# Loops

The rounds of a loop are delivered part by part: from every value of the test on the body, from
every completion of the body the update, and from there the rounds that are still to come, which
are listed deeper. When a part has no more results, the part before it is asked again.

* `Loop.Alike`, `Loop.left` — loops up to the frame of their variables, and the way out of it.
* `Eval.DeliversRounds` — what it means that rounds are delivered.
* `Eval.delivers_rounds` — rounds are delivered if the parts of one round are, and deeper rounds.
* `Eval.lists_loop` — the loop as a whole.

The parts that were reached lie on each other like statements of a sequence, with the difference
that there is no end to them. So the rounds that are listed deeper are taken as given, for as many
steps of the machine as remain on the clock, and every part takes at least one.
-/

namespace AmbScript

open Machine

variable {w w' : Renaming} {clock clock' : Nat} {deeper : Activity → Context → Listing Completion}

-- ---------------------------------------------------------------------------
-- Parts of loops
-- ---------------------------------------------------------------------------

/-- The same loop, up to the name of the frame of its variables. -/
inductive Loop.Alike (w : Renaming) : Loop → Loop → Prop
  | whileLoop (test : Expr) (body : Block) :
      Loop.Alike w (.whileLoop test body) (.whileLoop test body)
  | forLoop (init : Option LoopInit) (test update : Option Expr) (body : Block) {f g : FrameId}
      (h : w.frames.Pairs f g) :
      Loop.Alike w (.forLoop init test update body f) (.forLoop init test update body g)

/-- Loops that are alike stay so. -/
theorem Loop.Alike.mono {header header' : Loop} (h : header.Alike w header') (hle : w ≤ w') :
    header.Alike w' header' := by
  cases h with
  | whileLoop test body => exact .whileLoop test body
  | forLoop init test update body h =>
    exact .forLoop init test update body (Renaming.frames_of_le hle h)

namespace Loop

/-- The context outside of the frame of the loop's variables. -/
def left : Loop → Context → Context
  | .whileLoop .., c => c
  | .forLoop .., c => c.leave

/-- To leave a loop is to leave the frame of its variables. -/
theorem leaveLoop_apply (header : Loop) (c : Context) :
    leaveLoop header c = .ok () (header.left c) := by
  cases header <;> rfl

/-- The search for the values of the test. -/
def testStart : Loop → Eval (Search .value)
  | .whileLoop test _ => test.start
  | .forLoop _ (some test) _ _ _ => test.start
  | .forLoop _ none _ _ _ => pure (.found (.bool true))

/-- The search for the completions of the body. -/
def bodyStart : Loop → Eval (Search .completion)
  | .whileLoop _ body => body.start
  | .forLoop init _ _ body frame => do
    let round ← Eval.openRound init frame
    Eval.enter round
    let s ← body.start
    Eval.leave
    return .within round s

/-- The test is started by its search. -/
theorem startTest_eq (header : Loop) :
    startTest header = do return .test (← header.testStart) := by
  rcases header with _ | ⟨_, _ | _, _, _, _⟩ <;> rfl

theorem startBody_eq (header : Loop) :
    startBody header = do return .body (← header.bodyStart) := by
  cases header with
  | whileLoop => rfl
  | forLoop => simp only [startBody, bodyStart, bind_assoc, pure_bind]

variable {header : Loop} {c d : Context}

/-- Inside the loop faults are reported alike. -/
theorem reports_inside (h : (header.entered c).Precedes d) : c.Reports d := by
  have hEntered : c.Reports (header.entered c) := by
    cases header <;> exact ⟨rfl, rfl⟩
  exact hEntered.trans h.reports

/-- No limits come up when a loop is entered. -/
theorem entered_unbounded (header : Loop) (h : c.Unbounded) : (header.entered c).Unbounded := by
  cases header <;> exact h

/-- To leave a loop displays nothing. -/
theorem output_left (header : Loop) (c : Context) : (header.left c).output = c.output := by
  cases header <;> rfl

/-- Inside the loop's frame the run goes on outside of it. -/
theorem precedes_left (h : (header.entered c).Precedes d) : c.Precedes (header.left d) := by
  cases header with
  | whileLoop => exact h
  | forLoop => exact h.leave

/-- The loop's frame is entered again. -/
theorem precedes_entered (h : (header.entered c).Precedes d) {e : Context}
    (hLater : (header.left d).Precedes e) : d.Precedes (header.entered e) := by
  cases header with
  | whileLoop => exact hLater
  | forLoop init test update body frame => exact Eval.enter_leave h ▸ hLater.enter frame

/-- Loops that are alike are entered in contexts that agree. -/
theorem agree_entered {header' : Loop} (hAlike : header.Alike w header') (h : Agree w c d) :
    Agree w (header.entered c) (header'.entered d) := by
  cases hAlike with
  | whileLoop => exact h
  | forLoop _ _ _ _ hPair => exact h.enter hPair

theorem agree_left {header' : Loop} (hAlike : header.Alike w header') (h : Agree w c d) :
    Agree w (header.left c) (header'.left d) := by
  cases hAlike with
  | whileLoop => exact h
  | forLoop => exact h.leave

/-- The place of the test is the same. -/
theorem testSpan_eq {header' : Loop} (hAlike : header.Alike w header') :
    testSpan header = testSpan header' := by
  cases hAlike <;> rfl

end Loop

namespace Loop

variable (deeper)

/-- What comes before the rounds. -/
def beforeList : Loop → Context → Listing Completion
  | .whileLoop .., c => Listing.one (.value .undefined) c
  | .forLoop init _ _ _ _, c => initList deeper init c

/-- The completions of a loop as a whole. -/
def list : Loop → Context → Listing Completion
  | .whileLoop test body, c => deeper (.rounds (.whileLoop test body)) c
  | .forLoop init test update body frame, c =>
    Listing.inside frame (fun c => (initList deeper init c).bind fun _ c =>
      deeper (.rounds (.forLoop init test update body frame)) c) c

end Loop

/-- The completions, each of them outside of the loop's frame, and then those of `M`. -/
def Listing.leaving (header : Loop) (L M : Listing Completion) : Listing Completion :=
  L.fold (fun a d X => .result a (header.left d) X) M

-- ---------------------------------------------------------------------------
-- Rounds
-- ---------------------------------------------------------------------------

namespace Eval

/-- A part of a loop is started, on top of the parts reached before. -/
def launchPhase (header : Loop) (x : Eval Phase) (below : List Phase)
    (stack : Stack .completion) : Eval Machine := do
  pullPhase header ((← x) :: below) stack

/-- Whenever the machine starts on a test of a loop, it delivers what is listed for the rounds from
there on, and then what the parts reached before deliver. -/
def DeliversRounds (rounds : Loop → Context → Listing Completion) (clock : Nat) : Prop :=
  ∀ {w w' : Renaming} {header header' : Loop} {start c d : Context} {below : List Phase}
    {M : Listing Completion} {clock' : Nat} {stack : Stack .completion},
    header.Alike w' header' → (header.entered start).Precedes c → c.Unbounded → w ≤ w' →
    Agree w' c d → clock' ≤ clock →
    (∀ c' stack', c.Precedes c' →
      Delivers (k := .completion) start w M clock' c'.output.toList stack'
        (pullPhase header below stack' c')) →
    Delivers (k := .completion) start w ((rounds header' d).leaving header' M) clock'
      c.output.toList stack (launchPhase header (startTest header) below stack c)

/-- For a clock that runs out earlier. -/
theorem DeliversRounds.mono {rounds : Loop → Context → Listing Completion}
    (h : DeliversRounds rounds clock) (hClock : clock' ≤ clock) : DeliversRounds rounds clock' :=
  fun hAlike hInside hUnbounded hle hAgree hLess =>
    h hAlike hInside hUnbounded hle hAgree (Nat.le_trans hLess hClock)

/-- Each kind of part is asked for its results with the parts below it at hand. -/
theorem launchPhase_test (header : Loop) (x : Eval (Search .value)) (below : List Phase)
    (stack : Stack .completion) :
    launchPhase header (do return .test (← x)) below stack =
      launch x (.push (.test header below) stack) := by
  simp only [launchPhase, launch, bind_assoc, pure_bind, pullPhase]

theorem launchPhase_body (header : Loop) (x : Eval (Search .completion)) (below : List Phase)
    (stack : Stack .completion) :
    launchPhase header (do return .body (← x)) below stack =
      launch x (.push (.body header below) stack) := by
  simp only [launchPhase, launch, bind_assoc, pure_bind, pullPhase]

theorem launchPhase_update (header : Loop) (x : Eval (Search .value)) (below : List Phase)
    (stack : Stack .completion) :
    launchPhase header (do return .update (← x)) below stack =
      launch x (.push (.update header below) stack) := by
  simp only [launchPhase, launch, bind_assoc, pure_bind, pullPhase]

theorem launchPhase_init (header : Loop) (x : Eval (Search .completion)) (below : List Phase)
    (stack : Stack .completion) :
    launchPhase header (do return .init (← x)) below stack =
      launch x (.push (.init header below) stack) := by
  simp only [launchPhase, launch, bind_assoc, pure_bind, pullPhase]

section

variable {header header' : Loop} {start c d : Context} {below : List Phase}
  {M X : Listing Completion} {stack : Stack .completion}

/-- The loop has completed. Asked again, the last part reached goes on. -/
theorem delivers_completeLoop (hAlike : header.Alike w' header')
    (hInside : (header.entered start).Precedes c) (hle : w ≤ w') (hAgree : Agree w' c d)
    {item a : Completion} (hItem : item.Alike w' a)
    (hAgain : ∀ c' stack', c.Precedes c' →
      Delivers (k := .completion) start w X clock c'.output.toList stack'
        (pullPhase header below stack' c')) :
    Delivers (k := .completion) start w (.result a (header'.left d) X) clock c.output.toList stack
      (completeLoop header below item stack c) := by
  -- the frame of the variables is left with the completion, and entered again when the next one is
  -- asked for
  have hComplete : completeLoop header below item stack c =
      .ok (found (k := .completion) item (.looping header below) stack) (header.left c) := by
    show EStateM.bind (leaveLoop header) _ c = _
    unfold EStateM.bind
    rw [Loop.leaveLoop_apply]
    rfl
  rw [hComplete, ← header.output_left c]
  refine .atResult (Loop.precedes_left hInside) hle (Loop.agree_left hAlike hAgree) hItem
    fun c' stack' hLater => .of_step rfl (.mono ?_ (Nat.sub_le _ _))
  have hStep : (pull (.looping header below) stack').step Search.neverExhausted c' =
      pullPhase header below stack' (header.entered c') := by
    show EStateM.bind (enterLoop header) _ c' = _
    unfold EStateM.bind
    rw [enterLoop_apply]
  rw [hStep]
  have hOutput : c'.output = (header.entered c').output := by
    cases header <;> rfl
  rw [hOutput]
  exact hAgain _ stack' (Loop.precedes_entered hInside hLater)

/-- A part of a loop that finds completions, and what becomes of each of them. -/
theorem delivers_part {i : Kind} {p : Pending i .completion} {x : Eval (Search i)}
    {part : Context → Listing i.Item} {f : i.Item → Context → Listing Completion}
    (hx : Lists w' clock x part) (hStart : start.Reports c) (hUnbounded : c.Unbounded)
    (hAgree : Agree w' c d)
    (hDrained : ∀ rest c' stack', c.Precedes c' →
      Delivers (k := .completion) start w M clock c'.output.toList stack'
        (stepDrained rest p stack' c'))
    (hFound : ∀ {clock' w'' item a s c' d' X} stack', clock' ≤ clock → c.Precedes c' → w' ≤ w'' →
      Agree w'' c' d' → AlikeItems i w'' item a →
      (∀ c'' stack'', c'.Precedes c'' →
        Delivers (k := .completion) start w X clock' c''.output.toList stack''
          (.ok (pull s (.push p stack'')) c'')) →
      Delivers (k := .completion) start w ((f a d').leaving header' X) (clock' - 1)
        c'.output.toList stack' (stepFound Search.neverExhausted item s p stack' c')) :
    Delivers (k := .completion) start w (((part d).bind f).leaving header' M) clock
      c.output.toList stack (launch x (.push p stack) c) := by
  unfold Listing.leaving
  rw [Listing.fold_bind]
  refine .fold hStart ?_ ?_ (hx w' le_rfl c d hAgree hUnbounded (.push p stack))
  -- a part that drains hands over to the part before it
  · intro s c' stack' hLater
    exact .of_step rfl ((hDrained s c' stack' hLater).mono (Nat.sub_le _ _))
  · intro clock' a d' item s c' w'' X stack' hClock hLater hle hAgree' hItem hRest
    have hUnfinished : (found item s (.push p stack')).finished? = none := rfl
    exact .of_step hUnfinished (hFound stack' hClock hLater hle hAgree' hItem hRest)

variable (hExprs : ∀ (e : Expr) (w : Renaming), Lists w clock e.start (e.list deeper))
  (hBlocks : ∀ (b : Block) (w : Renaming), Lists w clock b.start (b.list deeper))

include hExprs in
/-- The test delivers its values; a missing one is true. -/
theorem lists_testStart (hAlike : header.Alike w header') :
    Lists w clock header.testStart (header'.testList deeper) := by
  cases hAlike with
  | whileLoop test body => exact hExprs test w
  | forLoop init test update body hPair =>
    cases test with
    | some test => exact hExprs test w
    | none => exact lists_found (k := .value) (Value.Alike.bool true)

include hBlocks in
/-- The body delivers its completions, in a `for` loop inside the frame of a round. -/
theorem lists_bodyStart (hAlike : header.Alike w header') :
    Lists w clock header.bodyStart (header'.bodyList deeper) := by
  cases hAlike with
  | whileLoop test body => exact hBlocks body w
  | forLoop init test update body hPair =>
    exact lists_bind (opening_openRound _ _).forward (matches_openRound init hPair) fun w' _ _ _ hNew =>
      lists_enter hNew (Block.forward_start body) (hBlocks body w')

include hExprs in
/-- The update, and from each of its values the rounds that are still to come. -/
theorem delivers_update (hAlike : header.Alike w' header')
    (hRounds : DeliversRounds (fun header => deeper (.rounds header)) clock)
    (hInside : (header.entered start).Precedes c) (hUnbounded : c.Unbounded) (hle : w ≤ w')
    (hAgree : Agree w' c d)
    (hBelow : ∀ c' stack', c.Precedes c' →
      Delivers (k := .completion) start w M clock c'.output.toList stack'
        (pullPhase header below stack' c')) :
    Delivers (k := .completion) start w
      (((header'.updateList deeper d).bind fun _ d => deeper (.rounds header') d).leaving header' M)
      clock c.output.toList stack (launchPhase header (startUpdate header) below stack c) := by
  have hRest := @hRounds _ _ _ _ _ _ _ _ _ _ stack hAlike hInside hUnbounded hle hAgree
    (Nat.le_refl _) hBelow
  -- without an update the rounds go on at once
  have hSame (header : Loop) (h : header.updateList deeper d = Listing.one .undefined d) :
      ((header.updateList deeper d).bind fun _ d => deeper (.rounds header) d) =
        deeper (.rounds header) d := by
    rw [h, Listing.one_bind]
  cases hAlike with
  | whileLoop test body =>
    rw [hSame _ rfl]
    exact hRest
  | forLoop init test update body hPair =>
    cases update with
    | none =>
      rw [hSame _ rfl]
      exact hRest
    | some update =>
      rw [startUpdate, launchPhase_update]
      refine delivers_part (hExprs update w') (Loop.reports_inside hInside) hUnbounded hAgree ?_ ?_
      · exact fun _ c' stack' hLater => hBelow c' stack' hLater
      · intro clock' w'' item a s c' d' X stack' hClock hLater hle' hAgree' hItem hAgain
        exact hRounds (.forLoop init test (some update) body (Renaming.frames_of_le hle' hPair))
          (hInside.trans hLater) (hLater.unbounded hUnbounded) (hle.trans hle') hAgree'
          (by omega) fun c'' stack'' hLater' => (hAgain c'' stack'' hLater').mono (Nat.sub_le _ _)

include hExprs hBlocks in
/-- The body, and from its completions what follows in the loop. -/
theorem delivers_body (hAlike : header.Alike w' header')
    (hRounds : DeliversRounds (fun header => deeper (.rounds header)) (clock - 1))
    (hClock : clock' ≤ clock)
    (hInside : (header.entered start).Precedes c) (hUnbounded : c.Unbounded) (hle : w ≤ w')
    (hAgree : Agree w' c d)
    (hBelow : ∀ c' stack', c.Precedes c' →
      Delivers (k := .completion) start w M clock' c'.output.toList stack'
        (pullPhase header below stack' c')) :
    Delivers (k := .completion) start w
      (((header'.bodyList deeper d).bind fun completion d =>
        match completion with
        | .value _ => (header'.updateList deeper d).bind fun _ d => deeper (.rounds header') d
        | .continueLoop => (header'.updateList deeper d).bind fun _ d => deeper (.rounds header') d
        | .breakLoop => Listing.one (.value .undefined) d
        | .returns v => Listing.one (.returns v) d).leaving header' M)
      clock' c.output.toList stack (launchPhase header (startBody header) below stack c) := by
  rw [Loop.startBody_eq, launchPhase_body]
  refine delivers_part ((lists_bodyStart hBlocks hAlike).mono le_rfl hClock)
    (Loop.reports_inside hInside) hUnbounded hAgree (fun _ c' stack' hLater => hBelow c' stack' hLater) ?_
  intro clock'' w'' item a s c' d' X stack' hClock' hLater hle' hAgree' hItem hAgain
  have hAlike' := hAlike.mono hle'
  have hInside' := hInside.trans hLater
  -- what is left of the body is reached again
  have hBelow' : ∀ e stack, c'.Precedes e →
      Delivers (k := .completion) start w X (clock'' - 1) e.output.toList stack
        (pullPhase header (.body s :: below) stack e) := fun e stack hLater' =>
    (hAgain e stack hLater').mono (Nat.sub_le _ _)
  have hUpdate : Delivers (k := .completion) start w
      (((header'.updateList deeper d').bind fun _ d => deeper (.rounds header') d).leaving header' X)
      (clock'' - 1) c'.output.toList stack'
      (launchPhase header (startUpdate header) (.body s :: below) stack' c') :=
    delivers_update (fun e w => (hExprs e w).mono le_rfl (by omega)) hAlike'
      (hRounds.mono (by omega)) hInside' (hLater.unbounded hUnbounded) (hle.trans hle') hAgree'
      hBelow'
  cases (hItem : Completion.Alike w'' item a) with
  | value _ => exact hUpdate
  | continueLoop => exact hUpdate
  | breakLoop =>
    exact delivers_completeLoop hAlike' hInside' (hle.trans hle') hAgree' (.value .undefined)
      hBelow'
  | returns h =>
    exact delivers_completeLoop hAlike' hInside' (hle.trans hle') hAgree' (.returns h) hBelow'

include hExprs hBlocks in
/-- A round, and those that follow it. -/
theorem delivers_rounds
    (hRounds : DeliversRounds (fun header => deeper (.rounds header)) (clock - 1)) :
    DeliversRounds (fun header => header.roundsList deeper) clock := by
  intro w w' header header' start c d below M clock' stack hAlike hInside hUnbounded hle hAgree
    hClock hBelow
  rw [Loop.startTest_eq, launchPhase_test]
  refine delivers_part ((lists_testStart hExprs hAlike).mono le_rfl hClock)
    (Loop.reports_inside hInside) hUnbounded hAgree (fun _ c' stack' hLater => hBelow c' stack' hLater) ?_
  intro clock'' w'' item a s c' d' X stack' hClock' hLater hle' hAgree' hItem hAgain
  have hAlike' := hAlike.mono hle'
  have hInside' := hInside.trans hLater
  -- what is left of the test is reached again
  have hBelow' : ∀ e stack, c'.Precedes e →
      Delivers (k := .completion) start w X (clock'' - 1) e.output.toList stack
        (pullPhase header (.test s :: below) stack e) := fun e stack hLater' =>
    (hAgain e stack hLater').mono (Nat.sub_le _ _)
  have hFault : Delivers (k := .completion) start w
      (.fault (.nonBooleanCondition a.typeName (testSpan header))) (clock'' - 1) c'.output.toList
      stack' (.error (.nonBooleanCondition a.typeName (testSpan header)) c') :=
    .atFault (Loop.reports_inside hInside')
  cases (hItem : Value.Alike w'' item a) with
  | bool b =>
    cases b with
    | true =>
      exact delivers_body hExprs hBlocks hAlike' hRounds (by omega) hInside'
        (hLater.unbounded hUnbounded) (hle.trans hle') hAgree' hBelow'
    | false =>
      exact delivers_completeLoop hAlike' hInside' (hle.trans hle') hAgree' (.value .undefined)
        hBelow'
  | _ =>
    rw [← Loop.testSpan_eq hAlike']
    exact hFault

/-- The first part of a `for` loop, and from there the rounds. -/
theorem delivers_init
    (hInits : ∀ (init : LoopInit) (w : Renaming),
      Lists w clock init.toStmt.start (initList deeper (some init)))
    (hRounds : DeliversRounds (fun header => deeper (.rounds header)) clock)
    (hAlike : header.Alike w header') (hInside : (header.entered start).Precedes c)
    (hUnbounded : c.Unbounded) (hAgree : Agree w c d)
    (hNone : ∀ c' stack', c.Precedes c' →
      Delivers (k := .completion) start w .done clock c'.output.toList stack'
        (pullPhase header [] stack' c')) :
    Delivers (k := .completion) start w
      (((header'.beforeList deeper d).bind fun _ d => deeper (.rounds header') d).leaving header'
        .done) clock c.output.toList stack (launchPhase header (startLoop header) [] stack c) := by
  have hRest := @hRounds _ _ _ _ _ _ _ _ _ _ stack hAlike hInside hUnbounded le_rfl hAgree
    (Nat.le_refl _) hNone
  cases hAlike with
  | whileLoop test body =>
    rw [Loop.beforeList, Listing.one_bind]
    exact hRest
  | forLoop init test update body hPair =>
    -- without an initializer the rounds follow at once, with one they follow each of its results
    cases init with
    | none =>
      rw [Loop.beforeList, initList, Listing.one_bind]
      exact hRest
    | some init =>
      rw [startLoop, launchPhase_init]
      refine delivers_part (hInits init w) (Loop.reports_inside hInside) hUnbounded hAgree
        (fun _ c' stack' hLater => hNone c' stack' hLater) ?_
      intro clock' w'' item a s c' d' X stack' hClock hLater hle hAgree' hItem hAgain
      exact hRounds (.forLoop (some init) test update body (Renaming.frames_of_le hle hPair))
        (hInside.trans hLater) (hLater.unbounded hUnbounded) hle hAgree' (by omega)
        fun c'' stack'' hLater' => (hAgain c'' stack'' hLater').mono (Nat.sub_le _ _)

end

/-- A loop as a whole; in a `for` loop everything is inside the frame of the variables. -/
theorem lists_loop {header header' : Loop} (hAlike : header.Alike w header')
    (hInits : ∀ (init : LoopInit) (w : Renaming),
      Lists w (clock - 1) init.toStmt.start (initList deeper (some init)))
    (hRounds : DeliversRounds (fun header => deeper (.rounds header)) (clock - 1)) :
    Lists w clock (pure (.loop header)) (header'.list deeper) := by
  intro w' hle c d hAgree hUnbounded stack
  have hAlike' := hAlike.mono hle
  refine .of_step rfl ?_
  -- the first step enters the loop and starts what comes first in its header
  have hStep : (pull (.loop header) stack).step Search.neverExhausted c =
      launchPhase header (startLoop header) [] stack (header.entered c) := by
    show EStateM.bind (enterLoop header) _ c = _
    unfold EStateM.bind
    rw [enterLoop_apply]
    rfl
  -- when everything has been tried the loop leaves its frame and drains
  have hNone : ∀ c' stack', (header.entered c).Precedes c' →
      Delivers (k := .completion) c w' .done (clock - 1) c'.output.toList stack'
        (pullPhase header [] stack' c') := by
    intro c' stack' hLater
    have hDrained : pullPhase header [] stack' c' =
        .ok (drained (.looping header []) stack') (header.left c') := by
      show EStateM.bind (leaveLoop header) _ c' = _
      unfold EStateM.bind
      rw [Loop.leaveLoop_apply]
      rfl
    rw [hDrained, ← header.output_left c']
    exact .atEnd (Loop.precedes_left hLater)
  have hAll : Delivers (k := .completion) c w'
      (((header'.beforeList deeper (header'.entered d)).bind fun _ d =>
        deeper (.rounds header') d).leaving header' .done) (clock - 1)
      (header.entered c).output.toList stack
      (launchPhase header (startLoop header) [] stack (header.entered c)) :=
    delivers_init hInits hRounds hAlike' (.refl _) (header.entered_unbounded hUnbounded)
      (Loop.agree_entered hAlike' hAgree) hNone
  rw [← hStep] at hAll
  cases hAlike' with
  | whileLoop test body =>
    rw [Loop.beforeList, Listing.one_bind] at hAll
    rw [Loop.list, ← Listing.append_done (deeper _ d)]
    exact hAll
  | forLoop init test update body hPair =>
    exact hAll

end Eval

end AmbScript
