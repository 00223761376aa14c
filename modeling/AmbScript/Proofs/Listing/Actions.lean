import AmbScript.Machine.Start
import AmbScript.Proofs.Listing.Agreement

/-!
# Actions in contexts that agree

Every action that evaluation is made of does the same in contexts that agree: it faults in both or
in neither, displays the same lines, and leaves contexts that agree again, with more frames and
cells that correspond.

* `Eval.matches_lookup`, `Eval.matches_assign` and so on — actions on bindings.
* `Eval.matches_openBlock`, `Eval.matches_openCall`, `Eval.matches_openRound` — new scopes.
* `Primitive.Relates` — what relates the actions that primitives are made of relates primitives.
* `Primitive.matches_call`, `Eval.matches_applyPrimitive` — primitives.

Primitives are gone through only once, in `Primitive.Relates.call`, for any relation that holds of
the few actions that they are made of. Whoever needs another relation than the one here proves it of
these actions.
-/

namespace AmbScript

variable {α β : Type} {w w' : Renaming}

namespace Eval

-- ---------------------------------------------------------------------------
-- Single actions
-- ---------------------------------------------------------------------------

/-- A result that was computed without looking at the context. -/
theorem matches_ofExcept {x y : Except Fault Value} (h : Value.ResultAlike w x y) :
    Matches w AlikeValues (ofExcept x) (ofExcept y) := by
  cases h with
  | error t => exact matches_throw t
  | ok h => exact matches_pure fun _ hle => h.mono hle

/-- A new cell on either side; the two correspond from there on. -/
theorem matches_newCell : Matches w SameCells newCell newCell := by
  intro w' _ c d hAgree
  obtain ⟨w'', hle, hPair, hAgree'⟩ := hAgree.newCell
  exact meets_self hle hAgree' hPair ⟨rfl, rfl⟩ rfl rfl

/-- A new frame on either side, inside frames that correspond. -/
theorem matches_newFrame (name : String) {p q : FrameId} (hPair : w.frames.Pairs p q)
    (callSite : Option Span) :
    Matches w SameFrames (newFrame name p callSite) (newFrame name q callSite) := by
  intro w' hle c d hAgree
  obtain ⟨w'', hle', hNew, hAgree'⟩ :=
    hAgree.newFrame name name (Renaming.frames_of_le hle hPair) callSite
  exact meets_self hle' hAgree' hNew ⟨rfl, rfl⟩ rfl rfl

/-- A new frame inside the ones in force. -/
theorem matches_childFrame (name : String) :
    Matches w SameFrames (childFrame name) (childFrame name) := by
  refine matches_get_bind fun w' _ c d hAgree => ?_
  exact matches_newFrame name hAgree.current none w' le_rfl c d hAgree

/-- A name is bound in frames that correspond. -/
theorem matches_bindName {f g : FrameId} (hPair : w.frames.Pairs f g) (name : String)
    {b b' : Binding} (hb : b.Alike w b') :
    Matches w NoResult (bindName f name b) (bindName g name b') := by
  refine matches_modify ?_ ?_ ?_ ?_
  · intro _ hle _ _ hAgree
    exact hAgree.write (Renaming.frames_of_le hle hPair) name (hb.mono hle)
  · intro _
    exact ⟨rfl, rfl⟩
  · intro _
    exact rfl
  · intro _
    exact rfl

/-- A placeholder is bound. -/
theorem matches_declare {f g : FrameId} (hPair : w.frames.Pairs f g) (name : Ident) :
    Matches w NoResult (declare f name) (declare g name) := by
  refine matches_get_bind fun w' hle c d hAgree => ?_
  have hPair' := Renaming.frames_of_le hle hPair
  have hBinding := hAgree.binding? hPair' name.name
  revert hBinding
  generalize c.store.binding? f name.name = b
  generalize d.store.binding? g name.name = b'
  rintro (_ | _)
  · exact matches_throw _ w' le_rfl c d hAgree
  · exact matches_bindName hPair' _ (.placeholder false) w' le_rfl c d hAgree

/-- The name has a placeholder on both sides, or on neither. -/
theorem matches_defineIn {f g : FrameId} (hPair : w.frames.Pairs f g) (name : Ident)
    {v v' : Value} (hv : v.Alike w v') (isConst : Bool) :
    Matches w NoResult (defineIn f name v isConst) (defineIn g name v' isConst) := by
  refine matches_get_bind fun w' hle c d hAgree => ?_
  have hPair' := Renaming.frames_of_le hle hPair
  have hBinding := hAgree.binding? hPair' name.name
  revert hBinding
  generalize c.store.binding? f name.name = b
  generalize d.store.binding? g name.name = b'
  rintro (⟨_ | _⟩ | _)
  · exact matches_bindName hPair' _ (.value (hv.mono hle) isConst) w' le_rfl c d hAgree
  · exact matches_throw _ w' le_rfl c d hAgree
  · exact matches_throw _ w' le_rfl c d hAgree

theorem matches_define (name : Ident) {v v' : Value} (hv : v.Alike w v') (isConst : Bool) :
    Matches w NoResult (define name v isConst) (define name v' isConst) := by
  refine matches_get_bind fun w' hle c d hAgree => ?_
  exact matches_defineIn hAgree.current name (hv.mono hle) isConst w' le_rfl c d hAgree

/-- What is found is alike, and so are the faults where there is nothing, or only a placeholder. -/
theorem matches_lookup (name : Ident) : Matches w AlikeValues (lookup name) (lookup name) := by
  refine matches_get_bind fun w' _ c d hAgree => ?_
  have hFound := hAgree.resolve? name.name hAgree.current
  revert hFound
  generalize c.store.resolve? c.current name.name = x
  generalize d.store.resolve? d.current name.name = y
  rintro (@⟨⟨f, b⟩, ⟨g, b'⟩, -, hBinding⟩ | _)
  · cases hBinding with
    | placeholder isConst => exact matches_throw _ w' le_rfl c d hAgree
    | value hv isConst => exact matches_pure (fun _ hle => hv.mono hle) w' le_rfl c d hAgree
  · exact matches_throw _ w' le_rfl c d hAgree

/-- A name is found in frames that correspond, as a variable on both sides or on neither. -/
theorem matches_assign (name : Ident) {v v' : Value} (hv : v.Alike w v') :
    Matches w NoResult (assign name v) (assign name v') := by
  refine matches_get_bind fun w' hle c d hAgree => ?_
  have hFound := hAgree.resolve? name.name hAgree.current
  revert hFound
  -- the name is found in frames that correspond, bound alike, or in neither context
  generalize c.store.resolve? c.current name.name = x
  generalize d.store.resolve? d.current name.name = y
  rintro (@⟨⟨f, b⟩, ⟨g, b'⟩, hPair, hBinding⟩ | _)
  · cases hBinding with
    | placeholder isConst =>
      cases isConst <;> exact matches_throw _ w' le_rfl c d hAgree
    | value _ isConst =>
      cases isConst with
      | false =>
        exact matches_bindName hPair _ (.value (hv.mono hle) false) w' le_rfl c d hAgree
      | true => exact matches_throw _ w' le_rfl c d hAgree
  · exact matches_throw _ w' le_rfl c d hAgree

/-- Closures of one function, made in frames that correspond. -/
theorem matches_newClosure (function : Function) {f g : FrameId} (hPair : w.frames.Pairs f g) :
    Matches w AlikeValues (newClosure function f) (newClosure function g) := by
  refine matches_bind matches_newCell fun _ hle _ _ hCell => ?_
  refine matches_pure fun _ hle' => ?_
  exact .closure function (Renaming.cells_of_le hle' hCell) (Renaming.frames_of_le (hle.trans
    hle') hPair)

/-- The closure of a function in the current frame. -/
theorem matches_closeOver (function : Function) :
    Matches w AlikeValues (get >>= fun c => newClosure function c.current)
      (get >>= fun c => newClosure function c.current) := by
  refine matches_get_bind fun w' _ c d hAgree => ?_
  exact matches_newClosure function hAgree.current w' le_rfl c d hAgree

-- ---------------------------------------------------------------------------
-- Scopes
-- ---------------------------------------------------------------------------

theorem matches_declareAll {f g : FrameId} (hPair : w.frames.Pairs f g) (names : List Ident) :
    Matches w NoResult (declareAll f names) (declareAll g names) := by
  induction names with
  | nil => exact matches_pure fun _ _ => trivial
  | cons name names ih =>
    exact matches_bind (matches_declare hPair name) fun _ hle _ _ _ => ih.mono hle

/-- The functions that a block declares. -/
theorem matches_defineFunctions {f g : FrameId} (hPair : w.frames.Pairs f g)
    (stmts : List Stmt) : Matches w NoResult (defineFunctions f stmts) (defineFunctions g stmts) := by
  induction stmts with
  | nil => exact matches_pure fun _ _ => trivial
  | cons stmt rest ih =>
    cases stmt with
    | function function =>
      rw [defineFunctions, defineFunctions]
      cases function.name? with
      | none => exact ih
      | some name =>
        refine matches_bind (matches_newClosure function hPair) fun _ hle _ _ hv => ?_
        exact matches_bind (matches_defineIn (Renaming.frames_of_le hle hPair) name hv true)
          fun _ hle' _ _ _ => ih.mono (hle.trans hle')
    | _ => exact ih

/-- All that is done when a block is entered. -/
theorem matches_hoist {f g : FrameId} (hPair : w.frames.Pairs f g) (b : Block) :
    Matches w NoResult (hoist f b) (hoist g b) := by
  refine matches_bind (matches_declareAll hPair _) fun _ hle _ _ _ => ?_
  exact matches_defineFunctions (Renaming.frames_of_le hle hPair) _

/-- The frame of a block. -/
theorem matches_openBlock (b : Block) : Matches w SameFrames (openBlock b) (openBlock b) := by
  refine matches_bind (matches_childFrame _) fun _ _ _ _ hPair => ?_
  refine matches_bind (matches_hoist hPair b) fun _ hle _ _ _ => ?_
  refine matches_pure fun _ hle' => ?_
  exact Renaming.frames_of_le (hle.trans hle') hPair

/-- The frame of a loop's variables. -/
theorem matches_openLoop (init : Option LoopInit) :
    Matches w SameFrames (openLoop init) (openLoop init) := by
  refine matches_bind (matches_childFrame _) fun _ _ _ _ hPair => ?_
  refine matches_bind (matches_declareAll hPair _) fun _ hle _ _ _ => ?_
  refine matches_pure fun _ hle' => ?_
  exact Renaming.frames_of_le (hle.trans hle') hPair

/-- Arguments that are alike are bound one by one. -/
theorem matches_bindParams {f g : FrameId} (hPair : w.frames.Pairs f g) (params : List Ident)
    {vs vs' : List Value} (hArgs : List.Forall₂ (Value.Alike w) vs vs') :
    Matches w NoResult (bindParams f params vs) (bindParams g params vs') := by
  induction params generalizing w vs vs' with
  | nil => exact matches_pure fun _ _ => trivial
  | cons p ps ih =>
    cases hArgs with
    | nil => exact matches_pure fun _ _ => trivial
    | cons hv hRest =>
      exact matches_bind (matches_bindName hPair _ (.value hv false)) fun _ hle _ _ _ =>
        ih (Renaming.frames_of_le hle hPair) (hRest.imp fun _ _ h => h.mono hle)

/-- The frame of a call. The numbers of arguments are the same, so that both sides fail or neither
does. -/
theorem matches_openCall (function : Function) {f g : FrameId} (hPair : w.frames.Pairs f g)
    {vs vs' : List Value} (hArgs : List.Forall₂ (Value.Alike w) vs vs') (span : Span) :
    Matches w SameFrames (openCall function f vs span) (openCall function g vs' span) := by
  unfold openCall
  rw [hArgs.length_eq]
  split
  · exact matches_throw _
  · refine matches_bind (matches_newFrame _ hPair _) fun w₁ hle₁ frame frame' hNew => ?_
    refine matches_bind (matches_bindParams hNew _ (hArgs.imp fun _ _ h => h.mono hle₁))
      fun w₂ hle₂ _ _ _ => ?_
    have hNew₂ := Renaming.frames_of_le hle₂ hNew
    exact matches_bind (matches_hoist hNew₂ _) fun w₃ hle₃ _ _ _ =>
      matches_pure fun _ hle₄ => Renaming.frames_of_le (hle₃.trans hle₄) hNew₂

/-- The value that a variable is copied with. -/
theorem copied_alike {b b' : Option Binding} (h : Option.Rel (Binding.Alike w) b b') :
    ((b >>= Binding.value?).getD .undefined).Alike w ((b' >>= Binding.value?).getD .undefined) := by
  cases h with
  | none => exact .undefined
  | some h =>
    cases h with
    | placeholder => exact .undefined
    | value hv => exact hv

/-- Variables are copied between frames that correspond. -/
theorem matches_copyVariables {f g f' g' : FrameId} (hSource : w.frames.Pairs f g)
    (hTarget : w.frames.Pairs f' g') (names : List Ident) :
    Matches w NoResult (copyVariables f f' names) (copyVariables g g' names) := by
  induction names generalizing w with
  | nil => exact matches_pure fun _ _ => trivial
  | cons name names ih =>
    refine matches_get_bind fun w' hle c d hAgree => ?_
    have hSource' := Renaming.frames_of_le hle hSource
    have hTarget' := Renaming.frames_of_le hle hTarget
    have hCopy := matches_bindName hTarget' name.name
      (.value (copied_alike (hAgree.binding? hSource' name.name)) true)
    exact matches_bind hCopy
      (fun _ hle' _ _ _ =>
        ih (Renaming.frames_of_le hle' hSource') (Renaming.frames_of_le hle' hTarget'))
      w' le_rfl c d hAgree

/-- The frame of a round. -/
theorem matches_openRound (init : Option LoopInit) {f g : FrameId} (hPair : w.frames.Pairs f g) :
    Matches w SameFrames (openRound init f) (openRound init g) := by
  refine matches_bind (matches_childFrame _) fun _ hle _ _ hNew => ?_
  refine matches_bind (matches_copyVariables (Renaming.frames_of_le hle hPair) hNew _) fun _
    hle' _ _ _ => ?_
  refine matches_pure fun _ hle'' => ?_
  exact Renaming.frames_of_le (hle'.trans hle'') hNew

end Eval

-- ---------------------------------------------------------------------------
-- Primitives
-- ---------------------------------------------------------------------------

/-- Answers of primitives that are alike. -/
def AlikeAnswers (w : Renaming) (x y : Except HostFault Value) : Prop := Value.ResultAlike w x y

namespace Primitive

open Eval

variable {vs vs' : List Value} {v v' : Value}

/-- What is wrong with an argument is said without the names of frames and cells. -/
theorem badArgument_eq (p : Primitive) (position : Nat) (expected : String)
    (hv : v.Alike w v') : p.badArgument position expected v = p.badArgument position expected v' := by
  unfold badArgument
  rw [hv.render_eq]

theorem badArgument_alike (p : Primitive) (position : Nat) (expected : String)
    (hv : v.Alike w v') :
    AlikeAnswers w (.error (p.badArgument position expected v))
      (.error (p.badArgument position expected v')) := by
  rw [badArgument_eq p position expected hv]
  exact .error _

/-- An answer that is given without an effect. -/
theorem matches_answer {x y : Except HostFault Value} (h : AlikeAnswers w x y) :
    Matches w AlikeAnswers (pure x) (pure y) := by
  refine matches_pure fun w' hle => ?_
  cases h with
  | error e => exact .error e
  | ok hv => exact .ok (hv.mono hle)

/-- A value that is the answer. -/
theorem matches_ok {x y : Eval Value} (h : Matches w AlikeValues x y) :
    Matches w AlikeAnswers (do return .ok (← x)) (do return .ok (← y)) := by
  refine matches_bind h fun _ _ _ _ hv => ?_
  exact matches_answer (.ok hv)

/-- A pair of values that are alike. -/
theorem matches_newPair {a a' b b' : Value} (ha : a.Alike w a') (hb : b.Alike w b') :
    Matches w AlikeValues (newPair a b) (newPair a' b') := by
  refine matches_bind matches_newCell fun _ hle _ _ hCell => ?_
  refine matches_pure fun _ hle' => ?_
  exact .pair (Renaming.cells_of_le hle' hCell) (ha.mono (hle.trans hle')) (hb.mono (hle.trans
    hle'))

/-- A list is made in both memories, one pair in front of the other. -/
theorem matches_listOnto (hItems : List.Forall₂ (Value.Alike w) vs vs') (hDone : v.Alike w v') :
    Matches w AlikeValues (listOnto vs v) (listOnto vs' v') := by
  induction vs generalizing w vs' v v' with
  | nil =>
    cases hItems
    exact matches_pure fun _ hle => hDone.mono hle
  | cons u us ih =>
    cases hItems with
    | cons hHead hTail =>
      exact matches_bind (matches_newPair hHead hDone) fun _ hle _ _ hPair =>
        ih (hTail.imp fun _ _ h => h.mono hle) hPair

/-- A list of values that are alike. -/
theorem matches_newList (hItems : List.Forall₂ (Value.Alike w) vs vs') :
    Matches w AlikeValues (newList vs) (newList vs') :=
  matches_listOnto (List.rel_reverse hItems) .null

/-- A heading is a text, or it is none. -/
theorem headed_eq {heading heading' : Option Value}
    (h : Option.Rel (Value.Alike w) heading heading') (text : String) :
    headed heading text = headed heading' text := by
  cases h with
  | none => rfl
  | some h => exact congrArg (fun s => s ++ " " ++ text) h.messageText_eq

/-- The same line is displayed. -/
theorem matches_showLine (hv : v.Alike w v') {heading heading' : Option Value}
    (hHeading : Option.Rel (Value.Alike w) heading heading') :
    Matches w AlikeValues (showLine v heading) (showLine v' heading') := by
  intro w' hle c d hAgree
  have hText : headed heading v.render = headed heading' v'.render := by
    rw [hv.render_eq, headed_eq hHeading]
  refine .ok [headed heading v.render] le_rfl ?_ (hv.mono hle) ⟨rfl, rfl⟩ ?_ ?_
  · exact hAgree.ofStore (fun _ _ => rfl) (fun _ _ => rfl) (Nat.le_refl _) (Nat.le_refl _) rfl rfl
      rfl rfl rfl
  · exact Array.toList_push
  · rw [hText]
    exact Array.toList_push

/-- Arguments that are alike are the same numbers, or fail in the same place. -/
theorem numberArgs_eq (p : Primitive) (h : List.Forall₂ (Value.Alike w) vs vs') (position : Nat) :
    p.numberArgs position vs = p.numberArgs position vs' := by
  induction h generalizing position with
  | nil => rfl
  | cons hv _ ih =>
    have hBad := badArgument_eq p position "a number" hv
    cases hv with
    | number x =>
      unfold numberArgs
      rw [ih]
    | _ => exact congrArg Except.error hBad

/-- So the same number is selected. -/
theorem selectNumber_alike (p : Primitive) (displaces : Float → Float → Bool)
    (h : List.Forall₂ (Value.Alike w) vs vs') (position : Nat) (best : Float) :
    AlikeAnswers w (p.selectNumber displaces position best vs)
      (p.selectNumber displaces position best vs') := by
  induction h generalizing position best with
  | nil => exact .ok (.number _)
  | cons hv _ ih =>
    have hBad := badArgument_alike p position "a number" hv
    cases hv with
    | number x =>
      unfold selectNumber
      dsimp only
      split
      · exact .ok (.number _)
      · exact ih _ _
    | _ => exact hBad

/-- A function of numbers has the same answer. -/
theorem onNumber_alike (p : Primitive) (f : Float → Float) (hv : v.Alike w v') :
    AlikeAnswers w (p.onNumber f v) (p.onNumber f v') := by
  have hBad := badArgument_alike p 1 "a number" hv
  cases hv with
  | number x => exact .ok (.number _)
  | _ => exact hBad

/-- A question about the kind of a value has the same answer. -/
theorem question_eq (p : Primitive) (hv : v.Alike w v') : p.question v = p.question v' := by
  cases hv <;> cases p <;> rfl

/-- A relation between actions that holds of answers that are alike, and of making cells and showing
lines with values that are alike. -/
structure Relates (w : Renaming) (J : Answer → Answer → Prop) : Prop where
  answer {x y : Except HostFault Value} (h : AlikeAnswers w x y) : J (pure x) (pure y)
  newPair {a a' b b' : Value} (ha : a.Alike w a') (hb : b.Alike w b') :
    J (do return .ok (← newPair a b)) (do return .ok (← newPair a' b'))
  newList {vs vs' : List Value} (h : List.Forall₂ (Value.Alike w) vs vs') :
    J (do return .ok (← newList vs)) (do return .ok (← newList vs'))
  showLine {v v' : Value} (hv : v.Alike w v') {heading heading' : Option Value}
    (hHeading : Option.Rel (Value.Alike w) heading heading') :
    J (do return .ok (← showLine v heading)) (do return .ok (← showLine v' heading'))

section

variable {J : Answer → Answer → Prop}

/-- The answer to a question is a boolean. -/
theorem Relates.question (h : Relates w J) (p : Primitive) (hv : v.Alike w v') :
    J (pure (.ok (.bool (p.question v)))) (pure (.ok (.bool (p.question v')))) := by
  rw [question_eq p hv]
  exact h.answer (.ok (.bool _))

/-- It holds of everything that primitives do with values that are alike. -/
theorem Relates.call (h : Relates w J) (p : Primitive)
    (hArgs : List.Forall₂ (Value.Alike w) vs vs') : J (p.call vs) (p.call vs') := by
  -- these three take any number of arguments
  have hMax := selectNumber_alike max (· ≥ ·) hArgs 1 (Float.ofBits 0xfff0000000000000)
  have hMin := selectNumber_alike min (· ≤ ·) hArgs 1 (Float.ofBits 0x7ff0000000000000)
  have hNewList := h.newList hArgs
  rcases hArgs with _ | ⟨hv, _ | ⟨hu, _ | ⟨ht, hRest⟩⟩⟩
  · cases p with
    | list => exact hNewList
    | max => exact h.answer hMax
    | min => exact h.answer hMin
    | _ => exact h.answer (.ok .undefined)
  · cases p with
    | list => exact hNewList
    | max => exact h.answer hMax
    | min => exact h.answer hMin
    | head =>
      have hBad := badArgument_alike head 1 "a pair" hv
      cases hv with
      | pair _ hHead _ => exact h.answer (.ok hHead)
      | _ => exact h.answer hBad
    | tail =>
      have hBad := badArgument_alike tail 1 "a pair" hv
      cases hv with
      | pair _ _ hTail => exact h.answer (.ok hTail)
      | _ => exact h.answer hBad
    | display => exact h.showLine hv .none
    | error =>
      refine h.answer ?_
      rw [hv.messageText_eq]
      exact .error _
    | stringify =>
      refine h.answer ?_
      rw [hv.render_eq]
      exact .ok (.string _)
    | abs => exact h.answer (onNumber_alike _ _ hv)
    | floor => exact h.answer (onNumber_alike _ _ hv)
    | ceil => exact h.answer (onNumber_alike _ _ hv)
    | sqrt => exact h.answer (onNumber_alike _ _ hv)
    | round => exact h.answer (onNumber_alike _ _ hv)
    | arrayLength =>
      have hBad := badArgument_alike arrayLength 1 "an array" hv
      cases hv with
      | array _ hItems =>
        refine h.answer ?_
        rw [(Value.itemsAlike_iff.mp hItems).length_eq]
        exact .ok (.number _)
      | _ => exact h.answer hBad
    | _ => exact h.question _ hv
  · cases p with
    | list => exact hNewList
    | max => exact h.answer hMax
    | min => exact h.answer hMin
    | pair => exact h.newPair hv hu
    | equal =>
      refine h.answer ?_
      rw [hv.structuralEquals_eq hu]
      exact .ok (.bool _)
    | display => exact h.showLine hv (.some hu)
    | error =>
      refine h.answer ?_
      rw [hv.messageText_eq, headed_eq (.some hu)]
      exact .error _
    | pow =>
      refine h.answer ?_
      rw [numberArgs_eq pow (.cons hv (.cons hu .nil))]
      refine Value.resultAlike_of_eq rfl fun u hu => ?_
      revert hu
      generalize pow.numberArgs 1 _ = x
      rcases x with e | ⟨_ | ⟨x, _ | ⟨y, _ | ⟨z, zs⟩⟩⟩⟩ <;> rintro ⟨⟩ <;> constructor
    | _ => cases hv <;> exact h.answer (.ok .undefined)
  · cases p with
    | list => exact hNewList
    | max => exact h.answer hMax
    | min => exact h.answer hMin
    | _ => cases hv <;> exact h.answer (.ok .undefined)

end

/-- To do the same is such a relation. -/
theorem relates_matches (w : Renaming) : Relates w (Matches w AlikeAnswers) where
  answer := matches_answer
  newPair ha hb := matches_ok (matches_newPair ha hb)
  newList h := matches_ok (matches_newList h)
  showLine hv _ _ hHeading := matches_ok (matches_showLine hv hHeading)

/-- Primitives do the same with values that are alike. -/
theorem matches_call (p : Primitive) (hArgs : List.Forall₂ (Value.Alike w) vs vs') :
    Matches w AlikeAnswers (p.call vs) (p.call vs') := (relates_matches w).call p hArgs

end Primitive

/-- The number of arguments and the answer are the same, and so is the fault that an answer may
be. -/
theorem Eval.matches_applyPrimitive (p : Primitive) {vs vs' : List Value}
    (hArgs : List.Forall₂ (Value.Alike w) vs vs') (span : Span) :
    Matches w AlikeValues (applyPrimitive p vs span) (applyPrimitive p vs' span) := by
  unfold applyPrimitive
  rw [hArgs.length_eq]
  split
  · exact matches_throw _
  · refine matches_bind (Primitive.matches_call p hArgs) fun _ _ x y hAnswer => ?_
    cases hAnswer with
    | error e => exact matches_throw _
    | ok hv => exact matches_pure fun _ hle => hv.mono hle

end AmbScript
