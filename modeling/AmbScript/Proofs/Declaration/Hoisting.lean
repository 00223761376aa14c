import AmbScript.Proofs.Declaration.Promises
import AmbScript.Proofs.Scoping.Consulted
import AmbScript.Proofs.Session.Entering

/-!
# Scopes that declare a name twice

When a scope is entered, the names that are declared directly in it are added to its new frame,
after the parameters if it is that of a call. This fails if, and only if, one of them is there
already. If it does not, each variable and constant of the scope is a placeholder afterwards.

* `Construct.redeclared?` — the name that cannot be added; `Construct.isSome_redeclared?_iff` tells
  when there is one.
* `Eval.refusal?` — the name that an action fails to declare.
* `Eval.Leaves` — what is true of the store once an action has a result.
* `Eval.refusal?_openBlock`, `Eval.refusal?_openCall` — the scopes that may fail to be entered.
* `Eval.leaves_openBlock`, `Eval.leaves_openCall`, `Eval.leaves_openLoop`, `Eval.leaves_openRound` —
  what their frames have.

A name is refused by the frame it is added to, and by nothing else: the frame was made a moment
before, so what is in it is known from the text. Which of several repeated names is refused depends
on the order in which names are added; `firstAgain?` follows this order.
-/

namespace AmbScript

variable {α β : Type}

open Eval Store

-- ---------------------------------------------------------------------------
-- What a scope declares
-- ---------------------------------------------------------------------------

namespace Construct

/-- The names that are bound before any is declared. -/
def params : Construct → List Ident
  | call f => f.params
  | _ => []

/-- The names that are declared directly in the scope, in their order. -/
def declared : Construct → List Ident
  | program statements => statements.filterMap Stmt.declaredName?
  | block b => b.declarations
  | call f => f.body.declarations
  | loop init => loopVariables init
  | globals | round _ => []

/-- A name is declared directly in the scope twice, or once and it is a parameter. -/
def DeclaresTwice (k : Construct) : Prop :=
  ¬ (k.declared.map Ident.name).Nodup ∨
    ∃ name ∈ k.declared, name.name ∈ k.params.map Ident.name

/-- The first name that is declared although it is there. -/
def redeclared? (k : Construct) : Option Ident :=
  firstAgain? (k.params.map Ident.name) k.declared

/-- There is such a name just if a name is declared twice. -/
theorem isSome_redeclared?_iff (k : Construct) : k.redeclared?.isSome ↔ k.DeclaresTwice := by
  rw [Option.isSome_iff_ne_none, redeclared?, Ne, firstAgain?_eq_none_iff, not_and_or]
  unfold DeclaresTwice
  push Not
  rfl

/-- If parameters differ, as they do in a text that is a program, it is the names of both that are
not all different. -/
theorem declaresTwice_iff {k : Construct} (h : (k.params.map Ident.name).Nodup) :
    k.DeclaresTwice ↔ ¬ ((k.params ++ k.declared).map Ident.name).Nodup := by
  have hApart : (∀ a ∈ k.params.map Ident.name, ∀ b ∈ k.declared.map Ident.name, a ≠ b) ↔
      ¬ ∃ name ∈ k.declared, name.name ∈ k.params.map Ident.name := by
    constructor
    · rintro hApart ⟨name, hName, hParam⟩
      exact hApart _ hParam _ (List.mem_map_of_mem hName) rfl
    · rintro hNone a ha b hb rfl
      obtain ⟨name, hName, hSame⟩ := List.mem_map.mp hb
      exact hNone ⟨name, hName, hSame ▸ ha⟩
  rw [DeclaresTwice, List.map_append, List.nodup_append, hApart, and_iff_right h, not_and_or,
    not_not]

end Construct

-- ---------------------------------------------------------------------------
-- Names that cannot be declared
-- ---------------------------------------------------------------------------

/-- The name that was declared again. -/
def Fault.redeclared? : Fault → Option Ident
  | variableRedeclaration name span => some ⟨name, span⟩
  | _ => none

/-- A fault that is about no name is not about a declared one. -/
theorem Fault.redeclared?_of_isOfName {t : Fault} (h : t.isOfName = false) :
    t.redeclared? = none := by
  cases t with
  | variableRedeclaration name span => cases h
  | _ => rfl

namespace Eval

/-- The name that an action has failed to declare, if this is what it has failed at. -/
def refusal? : EStateM.Result Fault Context α → Option Ident
  | .error t _ => t.redeclared?
  | .ok _ _ => none

/-- An action refuses a name by the fault that says so. -/
theorem refusal?_eq_some_iff {r : EStateM.Result Fault Context α} {name : Ident} :
    refusal? r = some name ↔
      ∃ d, r = .error (.variableRedeclaration name.name name.span) d := by
  constructor
  · intro h
    cases r with
    | ok a d => cases h
    | error t d =>
      cases t with
      | variableRedeclaration n span =>
        cases h
        exact ⟨d, rfl⟩
      | _ => cases h
  · rintro ⟨d, rfl⟩
    rfl

/-- The action does not fail to declare a name. -/
abbrev Clear (x : Eval α) : Prop := Faults (fun t => t.redeclared? = none) x

/-- An action with no faults about names refuses none. -/
theorem Faults.clear {x : Eval α} (h : Faults (fun t => t.isOfName = false) x) : Clear x := by
  refine h.mono fun _ => ?_
  exact Fault.redeclared?_of_isOfName

/-- A clear action refuses no name. -/
theorem Clear.refusal?_eq_none {x : Eval α} (h : Clear x) (c : Context) :
    refusal? (x c) = none := by
  cases hEq : x c with
  | ok a d => rfl
  | error t d => exact h c t d hEq

/-- What follows cannot be what fails. -/
theorem refusal?_bind {x : Eval α} {g : α → Eval β} (hg : ∀ a, Clear (g a)) (c : Context) :
    refusal? ((x >>= g) c) = refusal? (x c) := by
  cases hEq : x c with
  | ok a d =>
    rw [bind_of_ok hEq]
    exact (hg a).refusal?_eq_none d
  | error t d =>
    rw [bind_of_error hEq]
    rfl

/-- What comes first has succeeded. -/
theorem refusal?_bind_of_ok {x : Eval α} {g : α → Eval β} {c d : Context} {a : α}
    (h : x c = .ok a d) : refusal? ((x >>= g) c) = refusal? (g a d) :=
  congrArg refusal? (bind_of_ok h g)

/-- A name that is missing is not one that is there twice. -/
theorem clear_lookup (name : Ident) : Clear (lookup name) := by
  refine faults_bind faults_get fun c => ?_
  split
  · exact faults_pure _
  · exact faults_throw rfl
  · exact faults_throw rfl

theorem clear_assign (name : Ident) (v : Value) : Clear (assign name v) := by
  refine faults_bind faults_get fun c => ?_
  split
  · exact faults_throw rfl
  · split
    · exact faults_throw rfl
    · split
      · exact faults_throw rfl
      · exact faults_modify _

end Eval

-- ---------------------------------------------------------------------------
-- What is true of the store afterwards
-- ---------------------------------------------------------------------------

namespace Eval

/-- From every store with the one property, an action that has a result leaves a store with the
other one. -/
def Leaves (P : Store → Prop) (Q : α → Store → Prop) (x : Eval α) : Prop :=
  ∀ c a d, P c.store → x c = .ok a d → Q a d.store

variable {P : Store → Prop} {Q : α → Store → Prop} {R : β → Store → Prop}

theorem leaves_pure {a : α} (h : ∀ s, P s → Q a s) : Leaves P Q (pure a) := by
  intro c b d hP hEq
  cases hEq
  exact h _ hP

theorem leaves_throw (t : Fault) : Leaves P Q (throw t) := by
  intro c a d _ hEq
  cases hEq

/-- What the first action leaves is what the second one starts from. -/
theorem leaves_bind {x : Eval α} {g : α → Eval β} (hx : Leaves P Q x)
    (hg : ∀ a, Leaves (Q a) R (g a)) : Leaves P R (x >>= g) := by
  intro c b d hP hEq
  obtain ⟨a, e, hFirst, hSecond⟩ := bind_eq_ok.mp hEq
  exact hg a e b d (hx c a e hP hFirst) hSecond

/-- An action that leaves the store alone. -/
theorem Idle.leaves {x : Eval α} (h : Idle x) : Leaves P (fun _ => P) x := by
  intro c a d hP hEq
  have hStore := h c
  rw [after_ok hEq] at hStore
  exact hStore ▸ hP

end Eval

-- ---------------------------------------------------------------------------
-- Hoisting
-- ---------------------------------------------------------------------------

/-- The frame has been made, and the names that are bound in it are these. -/
structure Store.Binds (s : Store) (g : FrameId) (names : List String) : Prop where
  made : g < s.nextFrame
  names : ∀ n, (s.binding? g n).isSome ↔ n ∈ names

namespace Eval

variable {g : FrameId} {c d : Context} {seen : List String}

/-- A new frame binds no name. -/
theorem binds_newFrame (c : Context) (name : String) (parent : FrameId) (callSite : Option Span) :
    (c.newFrame name parent callSite).store.Binds c.store.nextFrame [] where
  made := by
    show c.store.nextFrame < (c.store.newFrame name (some parent) callSite).nextFrame
    rw [nextFrame_newFrame]
    exact Nat.lt_succ_self _
  names n := by
    show ((c.store.newFrame name (some parent) callSite).binding? c.store.nextFrame n).isSome ↔ _
    rw [binding?_eq, scope?_newFrame, if_pos rfl]
    simp

/-- The first name is refused that is there already when it is added. -/
theorem refusal?_declareAll (h : c.store.Binds g seen) (names : List Ident) :
    refusal? (declareAll g names c) = firstAgain? seen names := by
  cases hAgain : firstAgain? seen names with
  | some name =>
    obtain ⟨s, hError⟩ := declareAll_eq_error h.made h.names hAgain
    rw [hError]
    rfl
  | none =>
    obtain ⟨hDistinct, hNew⟩ := firstAgain?_eq_none_iff.mp hAgain
    obtain ⟨d, hOk, -⟩ := declareAll_eq_ok hDistinct h.made fun name hName =>
      Option.not_isSome_iff_eq_none.mp fun hThere => hNew name hName ((h.names _).mp hThere)
    rw [hOk]
    rfl

/-- Names that have been declared differ, and they are placeholders. -/
theorem declareAll_leaves (h : c.store.Binds g seen) {names : List Ident}
    (hEq : declareAll g names c = .ok () d) :
    (names.map Ident.name).Nodup ∧
      ∀ n ∈ names.map Ident.name, d.store.binding? g n = some .placeholder := by
  have hAgain := refusal?_declareAll h names
  rw [hEq] at hAgain
  obtain ⟨hDistinct, hNew⟩ := firstAgain?_eq_none_iff.mp hAgain.symm
  obtain ⟨e, hOk, hNames⟩ := declareAll_eq_ok hDistinct h.made fun name hName =>
    Option.not_isSome_iff_eq_none.mp fun hThere => hNew name hName ((h.names _).mp hThere)
  rw [hEq] at hOk
  cases hOk
  exact ⟨hDistinct, fun n hn => (hNames n).trans (if_pos hn)⟩

/-- A block refuses the first name that it has declared before. -/
theorem refusal?_hoist (h : c.store.Binds g seen) (b : Block) :
    refusal? (hoist g b c) = firstAgain? seen b.declarations := by
  cases hAgain : firstAgain? seen b.declarations with
  | some name =>
    obtain ⟨s, hError⟩ := declareAll_eq_error h.made h.names hAgain
    exact congrArg refusal? (bind_of_error hError _)
  | none =>
    obtain ⟨hDistinct, hNew⟩ := firstAgain?_eq_none_iff.mp hAgain
    obtain ⟨d, hOk, -⟩ := hoist_eq_ok hDistinct h.made fun name hName =>
      Option.not_isSome_iff_eq_none.mp fun hThere => hNew name hName ((h.names _).mp hThere)
    rw [hOk]
    rfl

end Eval

/-- What the statement promises is declared by it. -/
theorem promised_sublist_declared (statements : List Stmt) :
    (statements.flatMap Stmt.promised).Sublist
      ((statements.filterMap Stmt.declaredName?).map Ident.name) := by
  induction statements with
  | nil => exact List.Sublist.slnil
  | cons s rest ih =>
    rw [List.flatMap_cons]
    cases s with
    -- variables are declared with a promise, functions without one as they have their values at
    -- once
    | declare isConst name init span => exact ih.cons_cons name.name
    | function f =>
      cases hName : f.name? with
      | none =>
        rw [List.filterMap_cons_none (show (Stmt.function f).declaredName? = none from hName)]
        exact ih
      | some name =>
        rw [List.filterMap_cons_some
          (show (Stmt.function f).declaredName? = some name from hName)]
        exact ih.cons name.name
    | _ => exact ih

namespace Eval

variable {g : FrameId} {c d : Context} {seen : List String}

/-- A placeholder gets its value. -/
theorem defineIn_eq_ok {name : Ident} (v : Value) (isConst : Bool)
    (h : c.store.binding? g name.name = some .placeholder) :
    defineIn g name v isConst c =
      .ok () { c with store := c.store.write g name.name (.ofValue v isConst) } := by
  refine (get_bind _ c).trans ?_
  rw [h]
  rfl

/-- Functions get their closures, and the other names are placeholders still. -/
theorem defineFunctions_leaves {statements : List Stmt} (hMade : g < c.store.nextFrame)
    (hDistinct : ((statements.filterMap Stmt.declaredName?).map Ident.name).Nodup)
    (hDeclared : ∀ n ∈ (statements.filterMap Stmt.declaredName?).map Ident.name,
      c.store.binding? g n = some .placeholder)
    (hEq : defineFunctions g statements c = .ok () d) :
    ∀ n ∈ statements.flatMap Stmt.promised, d.store.binding? g n = some .placeholder := by
  induction statements generalizing c with
  | nil => exact fun n hn => absurd hn List.not_mem_nil
  | cons s rest ih =>
    have hFewer : (rest.filterMap Stmt.declaredName?).Sublist
        ((s :: rest).filterMap Stmt.declaredName?) := (List.sublist_cons_self s rest).filterMap _
    have hRestDistinct := hDistinct.sublist (hFewer.map Ident.name)
    have hRestDeclared := fun n hn => hDeclared n ((hFewer.map Ident.name).subset hn)
    rw [List.flatMap_cons]
    cases s with
    | function f =>
      cases hName : f.name? with
      | none =>
        rw [defineFunctions, hName] at hEq
        exact ih hMade hRestDistinct hRestDeclared hEq
      | some name =>
        rw [List.filterMap_cons_some
          (show (Stmt.function f).declaredName? = some name from hName)] at hDistinct hDeclared
        obtain ⟨hOther, -⟩ := List.nodup_cons.mp hDistinct
        rw [defineFunctions, hName] at hEq
        obtain ⟨v, e, hClosure, hEq⟩ := bind_eq_ok.mp hEq
        cases hClosure
        obtain ⟨u, e, hDefine, hEq⟩ := bind_eq_ok.mp hEq
        cases hDefine.symm.trans (defineIn_eq_ok (c := { c with nextCell := c.nextCell + 1 })
          (.closure c.nextCell f g) true (hDeclared _ List.mem_cons_self))
        refine ih ((nextFrame_write _ _ _ _).symm ▸ hMade) hRestDistinct (fun n hn => ?_) hEq
        refine (binding?_write_of_ne ?_ _).trans (hRestDeclared n hn)
        -- A function gets its value at once, so its name must not be one of those that wait.
        rintro ⟨-, rfl⟩
        exact hOther hn
    | declare isConst name init span =>
      obtain ⟨hOther, -⟩ := List.nodup_cons.mp hDistinct
      obtain ⟨e, hOk, -, hSame⟩ := defineFunctions_eq_ok hRestDistinct hMade
        fun n hn => hRestDeclared _ (List.mem_map_of_mem hn)
      have hEq : defineFunctions g rest c = .ok () d := hEq
      rw [hEq] at hOk
      cases hOk
      intro n hn
      rcases List.mem_append.mp hn with hHead | hRest
      · cases List.mem_singleton.mp hHead
        exact (hSame _ hOther).trans (hDeclared _ List.mem_cons_self)
      · exact ih hMade hRestDistinct hRestDeclared hEq n hRest
    | _ => exact ih hMade hRestDistinct hRestDeclared hEq

/-- The names that are still to get their values are placeholders, and all different. -/
theorem hoist_leaves (h : c.store.Binds g seen) {b : Block} (hEq : hoist g b c = .ok () d) :
    (b.statements.flatMap Stmt.promised).Nodup ∧
      ∀ n ∈ b.statements.flatMap Stmt.promised, d.store.binding? g n = some .placeholder := by
  obtain ⟨u, e, hDeclare, hDefine⟩ := bind_eq_ok.mp hEq
  obtain ⟨hDistinct, hDeclared⟩ := declareAll_leaves h hDeclare
  have hFills := (filling_declareAll b.declarations).furnishes (f := g) c
  rw [after_ok hDeclare] at hFills
  exact ⟨hDistinct.sublist (promised_sublist_declared b.statements),
    defineFunctions_leaves (hFills.nextFrame ▸ h.made) hDistinct hDeclared hDefine⟩

-- ---------------------------------------------------------------------------
-- Parameters and copies
-- ---------------------------------------------------------------------------

/-- Parameters can always be bound. -/
theorem exists_bindParams_eq_ok (g : FrameId) (params : List Ident) (args : List Value)
    (c : Context) : ∃ d, bindParams g params args c = .ok () d := by
  induction params generalizing args c with
  | nil => exact ⟨c, rfl⟩
  | cons p ps ih =>
    cases args with
    | nil => exact ⟨c, rfl⟩
    | cons v vs => exact ih vs { c with store := c.store.write g p.name (.ofValue v false) }

/-- Parameters are bound in a frame without names. -/
theorem binds_bindParams {params : List Ident} {args : List Value}
    (h : c.store.Binds g []) (hLength : params.length = args.length)
    (hEq : bindParams g params args c = .ok () d) :
    d.store.Binds g (params.map Ident.name) := by
  obtain ⟨hFrames, hNames, -⟩ := adds_bindParams (Q := fun _ => True) hLength
    (fun _ _ => trivial) () d h.made hEq
  refine ⟨hFrames ▸ h.made, fun n => (hNames n).trans ⟨fun hThere => ?_, .inr⟩⟩
  exact hThere.resolve_left fun hOld => List.not_mem_nil ((h.names n).mp hOld)

-- ---------------------------------------------------------------------------
-- Frames that are made
-- ---------------------------------------------------------------------------

/-- A new frame is made, and something is done to it. -/
def inNewFrame (name : String) (parent : FrameId) (callSite : Option Span)
    (fill : FrameId → Eval Unit) : Eval FrameId := do
  let frame ← newFrame name parent callSite
  fill frame
  return frame

/-- A block is entered by filling a new frame. -/
theorem openBlock_apply (b : Block) (c : Context) :
    openBlock b c = inNewFrame "blockEnvironment" c.current none (hoist · b) c := rfl

/-- A loop with variables of its own as well. -/
theorem openLoop_apply (init : Option LoopInit) (c : Context) :
    openLoop init c = inNewFrame "forLoopEnvironment" c.current none
      (declareAll · (Construct.loopVariables init)) c := rfl

/-- The frame of a call gets the arguments, if there are as many as parameters, and what the body
declares. -/
theorem openCall_apply {f : Function} {args : List Value} (hLength : f.params.length = args.length)
    (env : FrameId) (span : Span) (c : Context) :
    openCall f env args span c = inNewFrame f.displayName env (some span)
      (fun frame => do bindParams frame f.params args; hoist frame f.body) c := by
  unfold openCall inNewFrame
  rw [if_neg (not_not_intro hLength)]
  simp only [bind_assoc]

section

variable {name : String} {parent : FrameId} {callSite : Option Span} {fill : FrameId → Eval Unit}

/-- To make a frame refuses nothing. -/
theorem refusal?_inNewFrame (name : String) (parent : FrameId) (callSite : Option Span)
    (fill : FrameId → Eval Unit) (c : Context) :
    refusal? (inNewFrame name parent callSite fill c) =
      refusal? (fill c.store.nextFrame (c.newFrame name parent callSite)) :=
  refusal?_bind (fun _ => faults_pure _) (c.newFrame name parent callSite)

/-- The names that the new frame has as placeholders are added to those that there were. -/
theorem leaves_inNewFrame {names : List String} {ps : List Promise}
    (hFill : ∀ g, Filling g (fill g))
    (hNames : ∀ g c d, Store.Binds c.store g [] → fill g c = .ok () d →
      names.Nodup ∧ ∀ n ∈ names, d.store.binding? g n = some .placeholder) :
    Leaves (·.Awaits ps) (fun g s => s.Awaits (names.map (g, ·) ++ ps))
      (inNewFrame name parent callSite fill) := by
  intro c g d hAwaits hEq
  obtain ⟨u, e, hFilled, hDone⟩ := bind_eq_ok (c := c.newFrame name parent callSite).mp hEq
  cases hDone
  have hFills := (hFill c.store.nextFrame).furnishes (c.newFrame name parent callSite)
  rw [after_ok hFilled] at hFills
  obtain ⟨hDistinct, hPlaceholders⟩ :=
    hNames _ _ _ (binds_newFrame c name parent callSite) hFilled
  have hOther : ∀ p ∈ ps, p.1 ≠ c.store.nextFrame := fun p hp =>
    Nat.ne_of_lt (hAwaits.lt_nextFrame hp)
  refine Awaits.add (hAwaits.congr fun p hp => ?_) hOther hDistinct hPlaceholders
  have hScope : d.store.scope? p.1 = c.store.scope? p.1 :=
    (hFills.others p.1 (hOther p hp)).trans
      ((scope?_newFrame _ _ _ _ _).trans (if_neg (hOther p hp)))
  rw [binding?_eq, binding?_eq, hScope]

end

/-- A block is refused by the first name that it declares twice. -/
theorem refusal?_openBlock (b : Block) (c : Context) :
    refusal? (openBlock b c) = (Construct.block b).redeclared? := by
  rw [openBlock_apply, refusal?_inNewFrame]
  exact refusal?_hoist (binds_newFrame _ _ _ _) b

/-- Its variables and constants are placeholders then, and others are what they were. -/
theorem leaves_openBlock (b : Block) (ps : List Promise) :
    Leaves (·.Awaits ps) (fun g s => s.Awaits (promisedBy g b.statements ++ ps)) (openBlock b) := by
  intro c g d hAwaits hEq
  refine leaves_inNewFrame (fun _ => filling_hoist b) (fun _ _ _ hBinds hHoist => ?_) c g d hAwaits
    hEq
  exact hoist_leaves hBinds hHoist

/-- After the parameters, the names of the body are added. -/
theorem refusal?_openCall (f : Function) (env : FrameId) (args : List Value) (span : Span)
    (c : Context) :
    refusal? (openCall f env args span c) =
      if f.params.length = args.length then (Construct.call f).redeclared? else none := by
  split
  · rename_i hLength
    rw [openCall_apply hLength, refusal?_inNewFrame]
    have hNew := binds_newFrame c f.displayName env (some span)
    obtain ⟨d, hBind⟩ := exists_bindParams_eq_ok c.store.nextFrame f.params args
      (c.newFrame f.displayName env (some span))
    rw [refusal?_bind_of_ok hBind]
    exact refusal?_hoist (binds_bindParams hNew hLength hBind) f.body
  · rename_i hLength
    unfold openCall
    rw [if_pos hLength]
    rfl

theorem leaves_openCall (f : Function) (env : FrameId) (args : List Value) (span : Span)
    (ps : List Promise) :
    Leaves (·.Awaits ps) (fun g s => s.Awaits (promisedBy g f.body.statements ++ ps))
      (openCall f env args span) := by
  intro c g d hAwaits hEq
  by_cases hLength : f.params.length = args.length
  · rw [openCall_apply hLength] at hEq
    refine leaves_inNewFrame (fun _ => (filling_bindParams _ _).bind fun _ => filling_hoist _)
      (fun g c d hBinds hFilled => ?_) c g d hAwaits hEq
    obtain ⟨u, e, hBind, hHoist⟩ := bind_eq_ok.mp hFilled
    exact hoist_leaves (binds_bindParams hBinds hLength hBind) hHoist
  · unfold openCall at hEq
    rw [if_pos hLength] at hEq
    cases hEq

/-- A loop is refused by the first of its variables that is declared twice. -/
theorem refusal?_openLoop (init : Option LoopInit) (c : Context) :
    refusal? (openLoop init c) = (Construct.loop init).redeclared? := by
  rw [openLoop_apply, refusal?_inNewFrame]
  exact refusal?_declareAll (binds_newFrame _ _ _ _) _

/-- The variables of a loop are placeholders. -/
theorem leaves_openLoop (init : Option LoopInit) (ps : List Promise) :
    Leaves (·.Awaits ps)
      (fun g s => s.Awaits (((Construct.loopVariables init).map Ident.name).map (g, ·) ++ ps))
      (openLoop init) := by
  intro c g d hAwaits hEq
  refine leaves_inNewFrame (fun _ => filling_declareAll _) (fun _ _ _ hBinds hDeclare => ?_) c g d
    hAwaits hEq
  exact declareAll_leaves hBinds hDeclare

/-- The frame of a round has values only. -/
theorem leaves_openRound (init : Option LoopInit) (loop : FrameId) (ps : List Promise) :
    Leaves (·.Awaits ps) (fun _ s => s.Awaits ps) (openRound init loop) := by
  intro c _ d hAwaits hEq
  -- no name is left as a placeholder, so none is added to those that are awaited
  refine @leaves_inNewFrame _ _ _ _ [] ps (fun _ => filling_copyVariables _ _)
    (fun _ _ _ _ _ => ?_) c _ d hAwaits hEq
  exact ⟨List.nodup_nil, fun _ hn => absurd hn List.not_mem_nil⟩

end Eval

end AmbScript
