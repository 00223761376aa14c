import AmbScript.Proofs.Listing.Loops
import AmbScript.Proofs.Listing.Statements

/-!
# Every node delivers its results

The search of every node of a program delivers what is listed for the node, provided that calls and
further rounds do, which are listed deeper. A search that goes deeper takes a step to do so, so the
clock can be as late as that of what is deeper, and one more.

* `Expr.lists`, `Stmt.lists`, `Block.lists` — the nodes, by recursion on the tree.
* `Activity.delivers` — calls and rounds, by recursion on the depth.

There are two recursions, one inside the other. A node is listed in terms of its parts, at the same
depth; a call and a further round are listed in terms of what is one less deep. So the lemmas about
nodes take it as a hypothesis that deeper activities are delivered, and the last theorem closes the
circle.
-/

namespace AmbScript

open Machine Eval

variable {α β : Type} {w w' : Renaming} {clock : Nat} {k : Kind}

-- ---------------------------------------------------------------------------
-- Single results
-- ---------------------------------------------------------------------------

/-- An action that does nothing but have a result. -/
theorem Listing.perform_pure (a : α) (c : Context) : perform (pure a) c = one a c := by
  show say (c.output.toList.drop c.output.size) (one a c) = _
  rw [← Array.length_toList, List.drop_length]
  rfl

/-- What is made of the result of an action. -/
theorem Listing.perform_map (x : Eval α) (g : α → β) (c : Context) :
    perform (do return g (← x)) c = (perform x c).bind fun a d => one (g a) d := by
  cases hResult : x c with
  | ok a d =>
    have hMap : (do return g (← x) : Eval β) c = .ok (g a) d :=
      Eval.bind_eq_ok.mpr ⟨a, d, hResult, rfl⟩
    unfold perform
    rw [hMap, hResult]
    dsimp only
    rw [say_bind, one_bind]
  | error t d =>
    have hMap : (do return g (← x) : Eval β) c = .error t d := by
      show EStateM.bind x (fun a => pure (g a)) c = _
      rw [EStateM.bind, hResult]
    unfold perform
    rw [hMap, hResult]
    dsimp only
    rw [say_bind, fault_bind]

/-- An action that does nothing but fail. -/
theorem Listing.perform_throw (t : Fault) (c : Context) :
    perform (throw t : Eval α) c = .fault t := by
  show say (c.output.toList.drop c.output.size) (.fault t) = _
  rw [← Array.length_toList, List.drop_length]
  rfl

namespace Eval

/-- Faults that say the same. -/
theorem lists_throw_of_eq {t t' : Fault} (h : t = t') :
    Lists w clock (throw t : Eval (Search k)) fun _ => .fault t' := h ▸ lists_throw t

/-- A condition that is no boolean is a fault that names its kind. -/
theorem lists_nonBoolean {v v' : Value} (hv : v.Alike w v') (span : Span) :
    Lists w clock (nonBoolean v span : Eval (Search k)) fun _ =>
      .fault (.nonBooleanCondition v'.typeName span) :=
  lists_throw_of_eq (by rw [hv.typeName_eq])

/-- What is made of a result with the help of an action. -/
theorem lists_made {i o : Kind} {f : Mapping i o} {x : Eval (Search i)}
    {L : Context → Listing i.Item} {y : i.Item → Eval α} {g : i.Item → α → o.Item}
    (hx : Lists w clock x L)
    (hf : ∀ w', w ≤ w' → ∀ item a, AlikeItems i w' item a →
      Matches w' (AlikeItems o) (f.apply item) (do return g a (← y a))) :
    Lists w clock (do return .map f (← x)) fun d =>
      (L d).bind fun a d => (Listing.perform (y a) d).bind fun b d => Listing.one (g a b) d := by
  have hMap := lists_map hx hf
  simpa only [Listing.perform_map] using hMap

/-- What follows from a result without an action. -/
theorem lists_result {i o : Kind} {f : Mapping i o} {g : i.Item → o.Item} {x : Eval (Search i)}
    {L : Context → Listing i.Item} (hApply : ∀ item, f.apply item = pure (g item))
    (hAlike : ∀ w item a, AlikeItems i w item a → AlikeItems o w (g item) (g a))
    (hx : Lists w clock x L) :
    Lists w clock (do return .map f (← x)) fun d => (L d).bind fun a d => Listing.one (g a) d := by
  have hMap := lists_map (f := f) (y := fun a => pure (g a)) hx fun w' _ item a hItem => by
    rw [hApply]
    exact matches_pure fun w'' hle => hAlike w'' _ _ (hItem.mono hle)
  simpa only [Listing.perform_pure] using hMap

end Eval

/-- What is listed deeper is delivered: the bodies of calls and the rounds of loops. -/
structure Eval.DeliversDeeper (deeper : Activity → Context → Listing Completion) (clock : Nat) :
    Prop where
  bodies (stmts : List Stmt) (w : Renaming) :
    Lists w clock (pure (.sequence stmts)) (deeper (.body stmts))
  rounds : DeliversRounds (fun header => deeper (.rounds header)) clock

section

variable {deeper : Activity → Context → Listing Completion}

/-- A call of a closure is its body, deeper; of a primitive, its answer; all else is a fault. -/
theorem Eval.lists_startCall (hDeeper : DeliversDeeper deeper clock) {f f' : Value}
    {vs vs' : List Value} (hFunction : f.Alike w f')
    (hArgs : List.Forall₂ (Value.Alike w) vs vs') (span : Span) :
    Lists w clock (startCall f vs span) (callList deeper f' vs' span) := by
  have hRender := hFunction.render_eq
  cases hFunction with
  | closure function hCell hFrame =>
    refine lists_bind (opening_openCall _ _ _ _).forward (matches_openCall function hFrame hArgs span)
      fun w' hle frame frame' hNew => ?_
    have hBody := lists_within hNew (hDeeper.bodies function.body.statements w')
    exact lists_result (f := .call) (g := Completion.ofCall) (fun _ => rfl)
      (fun w item a hItem => by cases hItem <;> first | exact .undefined | assumption) hBody
  | primitive p =>
    exact lists_perform (filling_applyPrimitive 0 _ _ _).forward (matches_applyPrimitive p hArgs span)
  | _ => exact lists_throw_of_eq (congrArg (Fault.callingNonFunction · span) hRender)

-- ---------------------------------------------------------------------------
-- Expressions
-- ---------------------------------------------------------------------------

/-- The listing of a call of `amb`. -/
theorem Expr.list_amb {callee : Expr} {args : List Expr} {span : Span}
    (hAmb : callee.ident?.map (·.name) = some "amb") :
    (Expr.call callee args span).list deeper = alternativesList deeper args := by
  funext c
  rw [Expr.list]
  split
  · rfl
  · next h => simp [hAmb] at h
  · next h _ => exact absurd hAmb h

/-- The listing of a call of `require`. -/
theorem Expr.list_require {callee : Expr} {args : List Expr} {span : Span}
    (hRequire : callee.ident?.map (·.name) = some "require") :
    (Expr.call callee args span).list deeper = requireList deeper args span := by
  funext c
  rw [Expr.list]
  split
  · next h => simp [hRequire] at h
  · rfl
  · next h => exact absurd hRequire h

/-- The listing of every other call. -/
theorem Expr.list_call {callee : Expr} {args : List Expr} {span : Span}
    (hAmb : callee.ident?.map (·.name) ≠ some "amb")
    (hRequire : callee.ident?.map (·.name) ≠ some "require") :
    (Expr.call callee args span).list deeper = fun c =>
      (callee.list deeper c).bind fun f c => (tuplesList deeper args c).bind fun vs c =>
        callList deeper f vs span c := by
  funext c
  rw [Expr.list]
  split
  · next h => exact absurd h hAmb
  · next h => exact absurd h hRequire
  · rfl

mutual

/-- By recursion on the expression, one case for each form. -/
theorem Expr.lists (hDeeper : DeliversDeeper deeper (clock - 1)) :
    ∀ (e : Expr) (w : Renaming), Lists w clock e.start (e.list deeper)
  | .number x _, _ => lists_tick _ (lists_found (k := .value) (Value.Alike.number x))
  | .string text _, _ => lists_tick _ (lists_found (k := .value) (Value.Alike.string text))
  | .bool b _, _ => lists_tick _ (lists_found (k := .value) (Value.Alike.bool b))
  | .null _, _ => lists_tick _ (lists_found (k := .value) Value.Alike.null)
  | .undefined _, _ => lists_tick _ (lists_found (k := .value) Value.Alike.undefined)
  | .array items _, w => by
    have hItems := lists_product (fun e he => exprs_lists hDeeper items w e he)
    refine lists_tick _ (lists_made (o := .value) (g := fun vs cell => .array cell vs)
      (x := pure (.product items)) hItems
      fun w' _ vs vs' hVs => matches_bind matches_newCell fun _ hle _ _ hCell => ?_)
    exact matches_pure fun _ hle' => .array (Renaming.cells_of_le hle' hCell)
      (Value.itemsAlike_iff.mpr (hVs.imp fun _ _ h => h.mono (hle.trans hle')))
  | .ident name, _ => lists_tick _ (lists_perform (forward_lookup _) (matches_lookup name))
  | .assign target value _, w => by
    refine lists_tick _ ?_
    refine lists_made (g := fun v _ => v) (value.lists hDeeper w) fun w' _ v v' hv => ?_
    refine matches_bind (matches_assign target hv) fun _ hle _ _ _ => ?_
    refine matches_pure fun _ hle' => ?_
    exact Value.Alike.mono (hle.trans hle') hv
  | .unary op operand span, w => by
    refine lists_tick _ ?_
    refine lists_map (operand.lists hDeeper w) fun w' _ v v' hv => ?_
    exact matches_ofExcept (hv.unary op span)
  | .binary op left right span, w => by
    refine lists_tick _ ?_
    refine lists_expand (left.lists hDeeper w) fun w' _ l l' hl => ?_
    refine lists_map ((right.lists hDeeper w').mono le_rfl (Nat.sub_le _ _)) fun w'' hle r r' hr
      => ?_
    exact matches_ofExcept (Value.Alike.binary op (hl.mono hle) hr span)
  -- the right operand is listed only where the left one does not decide
  | .logical op left right _, w => by
    refine lists_tick _ (lists_expand (left.lists hDeeper w) fun w' _ l l' hl => ?_)
    have hRight := (right.lists hDeeper w').mono le_rfl (Nat.sub_le clock 1)
    have hLeft : Value.Alike w' l l' := hl
    cases hLeft with
    | bool b =>
      cases op <;> cases b
      · exact lists_found (k := .value) (Value.Alike.bool false)
      · exact hRight
      · exact hRight
      · exact lists_found (k := .value) (Value.Alike.bool true)
    | _ => cases op <;> exact lists_nonBoolean hl _
  | .conditional test consequent alternate _, w => by
    refine lists_tick _ (lists_expand (test.lists hDeeper w) fun w' _ v v' hv => ?_)
    have hTest : Value.Alike w' v v' := hv
    cases hTest with
    | bool b =>
      cases b with
      | true => exact (consequent.lists hDeeper w').mono le_rfl (Nat.sub_le _ _)
      | false => exact (alternate.lists hDeeper w').mono le_rfl (Nat.sub_le _ _)
    | _ => exact lists_nonBoolean hv _
  | .call callee args span, w => by
    have hArgs (w' : Renaming) : ∀ e ∈ args, Lists w' clock e.start (e.list deeper) :=
      fun e he => exprs_lists hDeeper args w' e he
    refine lists_tick _ ?_
    by_cases hAmb : callee.ident?.map (·.name) = some "amb"
    · rw [Expr.list_amb hAmb, hAmb]
      exact lists_choice (hArgs w)
    by_cases hRequire : callee.ident?.map (·.name) = some "require"
    · rw [Expr.list_require hRequire, hRequire]
      exact require_lists hDeeper args span w
    · rw [Expr.list_call hAmb hRequire]
      split
      · next h => exact absurd h hAmb
      · next h => exact absurd h hRequire
      · refine lists_expand (callee.lists hDeeper w) fun w' _ f f' hf => ?_
        refine lists_expand (lists_product fun e he => (hArgs w' e he).mono le_rfl (Nat.sub_le _ _))
          fun w'' hle vs vs' hVs => ?_
        exact (lists_startCall hDeeper (Value.Alike.mono hle hf) hVs span).mono le_rfl
          (Nat.sub_le _ _)
  | .index object key span, w => by
    refine lists_tick _ ?_
    refine lists_expand (object.lists hDeeper w) fun w' _ o o' ho => ?_
    refine lists_map ((key.lists hDeeper w').mono le_rfl (Nat.sub_le _ _)) fun w'' hle v v' hv =>
      ?_
    exact matches_ofExcept (Value.Alike.index (ho.mono hle) hv span)
  | .member object property span, w => by
    have hMap := lists_map (f := .member property.name span)
      (y := fun o => throw (o.property property.name span)) (object.lists hDeeper w) fun w' _ o o' ho => by
        have hFault : o.property property.name span = o'.property property.name span :=
          congrArg (Fault.illegalMemberAccess property.name · span) (Value.Alike.typeName_eq ho)
        exact hFault ▸ matches_throw _
    simp only [Listing.perform_throw] at hMap
    exact lists_tick _ hMap
  | .function f, w => by
    have hClosure := @lists_perform w .value clock _ _
      (forward_get_bind fun c => (filling_newClosure f c.current).forward) (matches_closeOver (w := w) f)
    rw [bind_assoc] at hClosure
    exact lists_tick _ hClosure

/-- A condition that holds has a result, and one that does not has none. -/
theorem require_lists (hDeeper : DeliversDeeper deeper (clock - 1)) :
    ∀ (args : List Expr) (span : Span) (w : Renaming),
    Lists w clock (startRequire args span) (requireList deeper args span)
  | [predicate], _, w => by
    refine lists_expand (predicate.lists hDeeper w) fun w' _ v v' hv => ?_
    have hPredicate : Value.Alike w' v v' := hv
    cases hPredicate with
    | bool b =>
      cases b with
      | true => exact lists_found (k := .value) Value.Alike.undefined
      | false => exact lists_failed
    | _ => exact lists_throw_of_eq (by rw [Value.Alike.typeName_eq hv])
  | [], _, _ => lists_throw _
  | _ :: _ :: _, _, _ => lists_throw _

theorem exprs_lists (hDeeper : DeliversDeeper deeper (clock - 1)) :
    ∀ (es : List Expr) (w : Renaming), ∀ e ∈ es,
    Lists w clock e.start (e.list deeper)
  | [], _, _, h => absurd h List.not_mem_nil
  | first :: rest, w, e, h => by
    rcases List.mem_cons.mp h with hFirst | hRest
    · exact hFirst ▸ first.lists hDeeper w
    · exact exprs_lists hDeeper rest w e hRest

end

-- ---------------------------------------------------------------------------
-- Statements
-- ---------------------------------------------------------------------------

/-- An expression as a statement. -/
theorem Eval.lists_expression (hDeeper : DeliversDeeper deeper (clock - 1)) (e : Expr) (span : Span)
    (w : Renaming) :
    Lists w clock (do Eval.tick span; return .map .statement (← e.start)) fun c =>
      (e.list deeper c).bind fun v c => Listing.one (.value v) c := by
  refine lists_tick _ ?_
  exact lists_result (i := .value) (o := .completion) (g := .value) (fun _ => rfl)
    (fun _ _ _ hv => Completion.Alike.value hv) (e.lists hDeeper w)

/-- A declaration, whose name is bound with each value. -/
theorem Eval.lists_declare (hDeeper : DeliversDeeper deeper (clock - 1)) (isConst : Bool)
    (name : Ident) (init : Expr) (span : Span) (w : Renaming) :
    Lists w clock (Stmt.declare isConst name init span).start fun c =>
      (init.list deeper c).bind fun v c =>
        settle (Eval.define name v isConst) (Completion.value v) c := by
  refine lists_tick _ ?_
  refine lists_made (i := .value) (o := .completion) (g := fun v _ => .value v)
    (init.lists hDeeper w) fun _ _ _ _ hv => ?_
  refine matches_bind (matches_define name hv isConst) fun _ hle _ _ _ => ?_
  refine matches_pure fun _ hle' => ?_
  exact Completion.Alike.value (Value.Alike.mono (hle.trans hle') hv)

/-- The first part of a `for` loop is an expression or a declaration. -/
theorem LoopInit.lists (hDeeper : DeliversDeeper deeper (clock - 1)) (init : LoopInit)
    (w : Renaming) : Lists w clock init.toStmt.start (initList deeper (some init)) := by
  cases init with
  | declare name init span => exact lists_declare hDeeper false name init span w
  | expr e => exact lists_expression hDeeper e e.span w

mutual

/-- By recursion on the statement, one case for each form. -/
theorem Stmt.lists (hDeeper : DeliversDeeper deeper (clock - 1)) :
    ∀ (s : Stmt) (w : Renaming), Lists w clock s.start (s.list deeper)
  | .expr e, w => lists_expression hDeeper e e.span w
  | .declare isConst name init span, w => lists_declare hDeeper isConst name init span w
  | .function _, _ => lists_tick _ (lists_found (k := .completion) (.value .undefined))
  | .returns value _, w => by
    refine lists_tick _ ?_
    refine lists_result (i := .value) (o := .completion) (g := .returns) ?_ ?_ (value.lists
      hDeeper w)
    · intro _
      exact rfl
    · intro _ _ _ hv
      exact Completion.Alike.returns hv
  | .branch b, w => b.lists hDeeper w
  | .block b, w => lists_tick _ (b.lists hDeeper w)
  | .whileLoop test body _, _ => by
    refine lists_tick _ ?_
    refine lists_loop (.whileLoop test body) ?_ hDeeper.rounds
    intro init w
    exact (init.lists hDeeper w).mono le_rfl (Nat.sub_le _ _)
  -- the frame of the variables is made before the loop is entered, and is not listed
  | .forLoop init test update body _, _ => by
    refine lists_tick _ ?_
    refine lists_bind (opening_openLoop init).forward (matches_openLoop init) fun _ _ _ _ hNew =>
      ?_
    refine lists_loop (.forLoop init test update body hNew) ?_ hDeeper.rounds
    intro init w
    exact (init.lists hDeeper w).mono le_rfl (Nat.sub_le _ _)
  | .breakLoop _, _ => lists_tick _ (lists_found (k := .completion) .breakLoop)
  | .continueLoop _, _ => lists_tick _ (lists_found (k := .completion) .continueLoop)
  | .cut _, _ => lists_tick _ (lists_found (k := .completion) (.value .undefined))

theorem stmts_lists (hDeeper : DeliversDeeper deeper (clock - 1)) :
    ∀ (stmts : List Stmt) (w : Renaming), ∀ s ∈ stmts, Lists w clock s.start (s.list deeper)
  | [], _, _, h => absurd h List.not_mem_nil
  | first :: rest, w, s, h => by
    rcases List.mem_cons.mp h with hFirst | hRest
    · exact hFirst ▸ first.lists hDeeper w
    · exact stmts_lists hDeeper rest w s hRest

/-- A block is its statements in a new frame. -/
theorem Block.lists (hDeeper : DeliversDeeper deeper (clock - 1)) :
    ∀ (b : Block) (w : Renaming), Lists w clock b.start (b.list deeper)
  | .mk stmts span, _ => lists_bind (opening_openBlock _).forward (matches_openBlock (.mk stmts span))
      fun w' _ _ _ hNew => lists_within hNew
        ((lists_sequence fun s hs => stmts_lists hDeeper stmts w' s hs).mono le_rfl
          (Nat.le_succ _))

/-- A branch goes on with one of two blocks. -/
theorem Branch.lists (hDeeper : DeliversDeeper deeper (clock - 1)) :
    ∀ (b : Branch) (w : Renaming), Lists w clock b.start (b.list deeper)
  | .mk test consequent alternate span, w => by
    refine lists_tick _ (lists_expand (test.lists hDeeper w) fun w' _ v v' hv => ?_)
    have hTest : Value.Alike w' v v' := hv
    cases hTest with
    | bool b =>
      cases b with
      | true => exact (consequent.lists hDeeper w').mono le_rfl (Nat.sub_le _ _)
      | false => exact (alternate.lists hDeeper w').mono le_rfl (Nat.sub_le _ _)
    | _ => exact lists_nonBoolean hv _

/-- What stands after `else`. -/
theorem Alternate.lists (hDeeper : DeliversDeeper deeper (clock - 1)) :
    ∀ (a : Alternate) (w : Renaming), Lists w clock a.start (a.list deeper)
  | .absent, _ => lists_found (k := .completion) (.value .undefined)
  | .block b, w => b.lists hDeeper w
  | .branch b, w => b.lists hDeeper w

end

/-- What is delivered deeper for a while is delivered here for a step more. -/
theorem Eval.deliversDeeper_succ (hDeeper : DeliversDeeper deeper clock) :
    DeliversDeeper (fun
      | .body stmts, c => statementsList deeper stmts (Listing.one (.value .undefined) c)
      | .rounds header, c => header.roundsList deeper c) (clock + 1) where
  bodies stmts w :=
    (lists_sequence fun s hs => @stmts_lists (clock + 1) deeper hDeeper stmts w s hs).mono le_rfl
      (Nat.le_succ _)
  rounds := delivers_rounds (fun e w => e.lists hDeeper w) (fun b w => b.lists hDeeper w)
    hDeeper.rounds

end

/-- Calls and rounds are delivered as deep as they are listed, for at least so many steps. -/
theorem Activity.delivers (depth : Nat) : DeliversDeeper (Activity.list depth) depth := by
  induction depth with
  | zero =>
    refine ⟨fun stmts w w' hle c d hAgree hUnbounded stack i hi => absurd hi (Nat.not_lt_zero i), ?_⟩
    intro w w' header header' start c d below M clock stack _ _ _ _ _ hClock _ i hi
    exact absurd hi (by omega)
  | succ depth ih =>
    have hSucc := deliversDeeper_succ ih
    exact ⟨hSucc.bodies, hSucc.rounds⟩

end AmbScript
