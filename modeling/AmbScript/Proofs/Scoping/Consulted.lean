import AmbScript.Proofs.Machine.Surroundings
import AmbScript.Proofs.Scoping.Step

/-!
# Names that are consulted

A step evaluates at most one node, and of that only what stands at its beginning, so that it reads
one name at most; or else it assigns to one. Without that name the step fails, and a step misses no
other name.

* `Machine.node?` — the piece of the program that the next step goes on with.
* `Machine.consults?` — the name that is read or assigned to by the next step.
* `Eval.Faults` — all faults that an action ends in have a property.
* `Eval.Sought`, `Eval.Silent` — what an action misses.
* `Machine.sought_step` — without that name a step fails, and no other one is ever missed.

Two notions are used for what an action misses. `Consults` goes with the one name that an action
reads, and is passed on to what begins with that action; `Silent` is for everything that comes
afterwards, and also for all that reads no name. Faults that are about no name at all are told by
`Fault.isOfName`, so that most actions need no more than a look at what they throw.
-/

namespace AmbScript

variable {α β : Type} {ch : Chart} {outer : List FrameId} {f : FrameId}
  {retire : {k : Kind} → Search k → Bool}

open Eval

-- ---------------------------------------------------------------------------
-- The beginnings of nodes
-- ---------------------------------------------------------------------------

mutual

/-- The name that the expression begins with. It is read at once, and other ones in later steps. -/
def Expr.leading? : Expr → Option Ident
  | .ident name => some name
  | .assign _ value _ => value.leading?
  | .unary _ operand _ => operand.leading?
  | .binary _ left _ _ => left.leading?
  | .logical _ left _ _ => left.leading?
  | .conditional test _ _ _ => test.leading?
  | .call callee args _ =>
    let name? := callee.ident?.map (·.name)
    if name? = some "amb" then none
    else if name? = some "require" then leadingRequire? args
    else callee.leading?
  | .index object _ _ => object.leading?
  | .member object _ _ => object.leading?
  | .number .. | .string .. | .bool .. | .null _ | .undefined _ | .array .. | .function _ => none

/-- The name that the predicate of a requirement begins with. -/
def leadingRequire? : List Expr → Option Ident
  | [predicate] => predicate.leading?
  | _ => none

end

/-- A branch begins with its condition. -/
def Branch.leading? : Branch → Option Ident
  | .mk test _ _ _ => test.leading?

/-- What stands after `else` may be another branch. -/
def Alternate.leading? : Alternate → Option Ident
  | .branch b => b.leading?
  | .absent | .block _ => none

/-- A statement begins with its first expression, if it is evaluated outside of any new scope. -/
def Stmt.leading? : Stmt → Option Ident
  | .expr e => e.leading?
  | .declare _ _ init _ => init.leading?
  | .returns value _ => value.leading?
  | .branch b => b.leading?
  | _ => none

/-- The name that is read or assigned to as soon as the piece is gone on with. -/
def Node.leading? : Node → Option Ident
  | .target name => some name
  | .expr e => e.leading?
  | .stmt s => s.leading?
  | .branch b => b.leading?
  | .alternate a => a.leading?
  | .program _ | .block _ | .function _ => none

-- ---------------------------------------------------------------------------
-- The node of a step
-- ---------------------------------------------------------------------------

/-- What a result is gone on with. -/
def Expansion.node? {i o : Kind} (g : Expansion i o) (item : i.Item) : Option Node :=
  match i, o, g, item with
  | _, _, .binary _ right _, _ => some (.expr right)
  | _, _, .logical .and right _, .bool true => some (.expr right)
  | _, _, .logical .or right _, .bool false => some (.expr right)
  | _, _, .conditional consequent _ _, .bool true => some (.expr consequent)
  | _, _, .conditional _ alternate _, .bool false => some (.expr alternate)
  | _, _, .index key _, _ => some (.expr key)
  | _, _, .branch consequent _ _, .bool true => some (.block consequent)
  | _, _, .branch _ alternate _, .bool false => some (.alternate alternate)
  | _, _, _, _ => none

/-- What is evaluated when the search is asked. -/
def Search.node? {k : Kind} : Search k → Option Node
  | .choice (e :: _) => some (.expr e)
  | .choosing _ none (e :: _) => some (.expr e)
  | .product (e :: _) => some (.expr e)
  | .sequence (stmt :: _) => some (.stmt stmt)
  | .loop header => header.firstNode?
  | _ => none

/-- What is evaluated or assigned to when the part has found `item`. Of the body of a loop, which is
in a frame of its own, nothing is read yet when it is started. -/
def Pending.node? {i o : Kind} (p : Pending i o) (item : i.Item) : Option Node :=
  match i, o, p, item with
  | _, _, .map (.assign target), _ => some (.target target)
  | _, _, .outer g, item => g.node? item
  | _, _, .operand (e :: _) _ _, _ => some (.expr e)
  | _, _, .statement _ (stmt :: _) _ _, .value _ => some (.stmt stmt)
  | _, _, .init header _, _ => header.testNode?
  | _, _, .body header _, .value _ => header.nextNode?
  | _, _, .body header _, .continueLoop => header.nextNode?
  | _, _, .update header _, _ => header.testNode?
  | _, _, _, _ => none

/-- What is evaluated when the part has no more results. -/
def Pending.otherwise? {i o : Kind} : Pending i o → Option Node
  | .choosing _ (e :: _) => some (.expr e)
  | _ => none

namespace Machine

/-- The piece of the program that the next step goes on with, if any. -/
def node? : Machine → Option Node
  | ⟨_, .pull s, _⟩ => s.node?
  | ⟨_, .found item _, .push p _⟩ => p.node? item
  | ⟨_, .drained _, .push p _⟩ => p.otherwise?
  | _ => none

/-- The name that the next step reads or assigns to, if any. -/
def consults? (m : Machine) : Option Ident := m.node? >>= Node.leading?

end Machine

-- ---------------------------------------------------------------------------
-- What a computation misses
-- ---------------------------------------------------------------------------

/-- The name is not to be found from the current frame. -/
def Context.Lacks (c : Context) (name : Ident) : Prop :=
  c.store.resolve? c.current name.name = none

namespace Fault

/-- The name that was not to be found. -/
def missing? : Fault → Option Ident
  | undefinedVariable name span => some ⟨name, span⟩
  | _ => none

/-- The fault is about a name that is declared, read or assigned to. -/
def isOfName : Fault → Bool
  | variableRedeclaration .. | unassignedVariable .. => true
  | undefinedVariable .. | constAssignment .. => true
  | _ => false

/-- A fault that is about no name misses none. -/
theorem missing?_of_isOfName {t : Fault} (h : t.isOfName = false) : t.missing? = none := by
  cases t with
  | undefinedVariable name span => cases h
  | _ => rfl

end Fault

namespace Eval

/-- Every fault that `x` ends in has the property. -/
def Faults (P : Fault → Prop) (x : Eval α) : Prop := ∀ c t d, x c = .error t d → P t

section

variable {P Q : Fault → Prop}

theorem Faults.mono {x : Eval α} (hx : Faults P x) (h : ∀ t, P t → Q t) : Faults Q x :=
  fun c t d hEq => h t (hx c t d hEq)

theorem faults_pure (a : α) : Faults P (pure a) := by
  intro c t d h
  cases h

/-- The fault that is thrown. -/
theorem faults_throw {t : Fault} (h : P t) : Faults P (throw t : Eval α) := by
  intro c t' d hEq
  cases hEq
  exact h

/-- A change of the context does not fail. -/
theorem faults_modify (g : Context → Context) : Faults P (modify g) := by
  intro c t d h
  cases h

theorem faults_get : Faults P (get : Eval Context) := by
  intro c t d h
  cases h

/-- Either of two actions may fail. -/
theorem faults_bind {x : Eval α} {g : α → Eval β} (hx : Faults P x) (hg : ∀ a, Faults P (g a)) :
    Faults P (x >>= g) := by
  intro c t d h
  rcases bind_eq_error h with hFault | ⟨a, e, -, hThen⟩
  · exact hx c t d hFault
  · exact hg a e t d hThen

/-- To take a new cell does not fail. -/
theorem faults_newCell : Faults P newCell := by
  refine faults_bind faults_get fun _ => ?_
  refine faults_bind (faults_modify _) fun _ => ?_
  exact faults_pure _

/-- A fault that was computed without looking at the context. -/
theorem faults_ofExcept {x : Except Fault α} (h : ∀ t, x = .error t → P t) :
    Faults P (ofExcept x) := by
  cases x with
  | ok a => exact faults_pure a
  | error t => exact faults_throw (h t rfl)

end

/-- What has come of a computation from the context `c` that consults one name at most: without
that name it fails, and no other one is missed. -/
structure Sought (name? : Option Ident) (c : Context) (r : EStateM.Result Fault Context α) :
    Prop where
  needed : ∀ name, name? = some name → c.Lacks name → ∃ t d, r = .error t d
  missed : ∀ t d name, r = .error t d → t.missing? = some name → name? = some name ∧ c.Lacks name

/-- Whatever context it starts from, the action consults this name at most. -/
def Consults (name? : Option Ident) (x : Eval α) : Prop := ∀ c, Sought name? c (x c)

/-- No name is missed. -/
def Silent (x : Eval α) : Prop := ∀ c t d, x c = .error t d → t.missing? = none

/-- An action that misses no name consults none. -/
theorem Silent.consults {x : Eval α} (h : Silent x) : Consults none x := by
  refine fun c => ⟨fun name hName => ?_, fun t d name hEq hMissing => ?_⟩
  · cases hName
  · rw [h c t d hEq] at hMissing
    cases hMissing

/-- Only one kind of fault tells of a missing name. -/
theorem missing?_of_found {t : Fault} (h : ∀ name span, t ≠ .undefinedVariable name span) :
    t.missing? = none := by
  cases t with
  | undefinedVariable name span => exact absurd rfl (h name span)
  | _ => rfl

theorem silent_pure (a : α) : Silent (pure a) := faults_pure a

/-- A fault that misses no name. -/
theorem silent_throw {t : Fault} (h : t.missing? = none) : Silent (throw t : Eval α) :=
  faults_throw h

/-- A change of the context. -/
theorem silent_modify (g : Context → Context) : Silent (modify g) := faults_modify g

/-- A look at the context. -/
theorem silent_get : Silent (get : Eval Context) := faults_get

/-- Two actions that miss no name. -/
theorem silent_bind {x : Eval α} {g : α → Eval β} (hx : Silent x) (hg : ∀ a, Silent (g a)) :
    Silent (x >>= g) := faults_bind hx hg

/-- The fault of an action is about no name. -/
theorem Faults.silent {x : Eval α} (h : Faults (fun t => t.isOfName = false) x) : Silent x :=
  h.mono fun _ => Fault.missing?_of_isOfName

/-- Only the first action may consult the name. -/
theorem consults_bind {name? : Option Ident} {x : Eval α} {g : α → Eval β}
    (hx : Consults name? x) (hg : ∀ a, Silent (g a)) : Consults name? (x >>= g) := by
  intro c
  refine ⟨fun name hName hLacks => ?_, fun t d name hEq hMissing => ?_⟩
  · obtain ⟨t, d, hEq⟩ := (hx c).needed name hName hLacks
    refine ⟨t, d, ?_⟩
    show EStateM.bind x g c = _
    unfold EStateM.bind
    rw [hEq]
  · rcases bind_eq_error hEq with hFault | ⟨a, e, -, hThen⟩
    · exact (hx c).missed t d name hFault hMissing
    · rw [hg a e t d hThen] at hMissing
      cases hMissing

/-- That a limit is exceeded is about no name. -/
theorem isOfName_exceeded {c : Context} {span : Span} {t : Fault} (h : c.exceeded? span = some t) :
    t.isOfName = false := by
  -- a budget, a time limit and an interrupt have nothing to do with names
  have hOvertime (hLate : Context.exceeded?.overtime c span = some t) : t.isOfName = false := by
    unfold Context.exceeded?.overtime at hLate
    split at hLate
    · obtain ⟨limit, -, rfl⟩ := Option.map_eq_some_iff.mp hLate
      rfl
    · cases hLate
  unfold Context.exceeded? at h
  split at h
  · cases h
    rfl
  · split at h
    · split at h
      · cases h
        rfl
      · exact hOvertime h
    · exact hOvertime h

/-- Counting a node fails at a limit only. -/
theorem faults_tick (span : Span) : Faults (fun t => t.isOfName = false) (tick span) := by
  intro c t d h
  rw [tick_apply] at h
  split at h
  · rename_i hExceeded
    cases h
    exact isOfName_exceeded hExceeded
  · cases h

/-- A node is counted before it is evaluated. -/
theorem consults_counted {name? : Option Ident} {span : Span} {x : Eval α}
    (h : Consults name? x) : Consults name? (tick span >>= fun _ => x) := by
  intro c
  refine ⟨fun name hName hLacks => ?_, fun t d name hEq hMissing => ?_⟩
  · show ∃ t d, EStateM.bind (tick span) (fun _ => x) c = .error t d
    unfold EStateM.bind
    rw [tick_apply]
    cases c.counted.exceeded? span with
    | some t => exact ⟨t, c.counted, rfl⟩
    | none => exact (h c.counted).needed name hName hLacks
  · rcases bind_eq_error hEq with hFault | ⟨u, e, hCounted, hThen⟩
    · rw [(faults_tick span).silent c t d hFault] at hMissing
      cases hMissing
    · obtain ⟨rfl, -⟩ := tick_eq_ok hCounted
      exact (h c.counted).missed t d name hThen hMissing

/-- To look a name up fails just if it is not there, or has only a placeholder. -/
theorem consults_lookup (name : Ident) : Consults (some name) (lookup name) := by
  intro c
  refine ⟨fun name hName hLacks => ?_, fun t d missing hEq hMissing => ?_⟩
  · cases hName
    unfold lookup
    rw [get_bind, hLacks]
    exact ⟨_, _, rfl⟩
  · unfold lookup at hEq
    rw [get_bind] at hEq
    -- a fault that tells of a missing name can only come from here
    cases hResolved : c.store.resolve? c.current name.name with
    | none =>
      rw [hResolved] at hEq
      cases hEq
      cases hMissing
      exact ⟨rfl, hResolved⟩
    | some found =>
      obtain ⟨g, slot, isConst⟩ := found
      rw [hResolved] at hEq
      cases slot with
      | placeholder =>
        cases hEq
        cases hMissing
      | value v => cases hEq

/-- To assign to a name fails if it is not there, or is no variable with a value. -/
theorem consults_assign (name : Ident) (v : Value) : Consults (some name) (assign name v) := by
  intro c
  refine ⟨fun name hName hLacks => ?_, fun t d missing hEq hMissing => ?_⟩
  · cases hName
    unfold assign
    rw [get_bind, hLacks]
    exact ⟨_, _, rfl⟩
  · unfold assign at hEq
    rw [get_bind] at hEq
    -- of the ways to fail only a name bound nowhere is about the name
    cases hResolved : c.store.resolve? c.current name.name with
    | none =>
      rw [hResolved] at hEq
      cases hEq
      cases hMissing
      exact ⟨rfl, hResolved⟩
    | some found =>
      obtain ⟨g, slot, isConst⟩ := found
      rw [hResolved] at hEq
      cases isConst with
      | true =>
        cases hEq
        cases hMissing
      | false =>
        cases slot with
        | placeholder =>
          cases hEq
          cases hMissing
        | value old => cases hEq

-- ---------------------------------------------------------------------------
-- Actions that consult no name
-- ---------------------------------------------------------------------------

/-- To take a new cell misses no name. -/
theorem silent_newCell : Silent newCell := faults_newCell

/-- What fills a frame looks no name up. -/
theorem Filling.silent {frame : FrameId} {x : Eval α} (h : Filling frame x) : Silent x := by
  induction h with
  | pure a => exact silent_pure a
  | throw hFound => exact silent_throw (missing?_of_found hFound)
  | bind _ _ hx hf => exact silent_bind hx hf
  | look _ _ hf => exact silent_bind silent_get hf
  | newCell => exact silent_newCell
  | bindName name b => exact silent_modify _
  | showLine v heading => exact silent_bind (silent_modify _) fun _ => silent_pure _

theorem Opening.silent {x : Eval α} (h : Opening x) : Silent x := by
  induction h with
  | filling h => exact h.silent
  | bind _ _ hx hf => exact silent_bind hx hf
  | look _ _ hf => exact silent_bind silent_get hf
  | newFrame name parent callSite =>
    exact silent_bind silent_get fun _ => silent_bind (silent_modify _) fun _ => silent_pure _

/-- A call that is started looks no name up yet: the body comes later. -/
theorem silent_startCall (function : Value) (args : List Value) (span : Span) :
    Silent (startCall function args span) := by
  cases function with
  | closure _ h env => exact silent_bind (opening_openCall h env args span).silent fun _ => silent_pure _
  | primitive p => exact silent_bind (filling_applyPrimitive 0 p args span).silent fun _ => silent_pure _
  | _ => exact silent_throw rfl

/-- Operators only fail on operands that are not for them. -/
theorem isOfName_of_unary {op : UnaryOp} {v : Value} {span : Span} {t : Fault}
    (h : v.unary op span = .error t) : t.isOfName = false := by
  unfold Value.unary at h
  split at h <;> cases h <;> rfl

/-- Operands of different kinds. -/
theorem isOfName_of_matched {left right : Value} {span : Span} {t : Fault}
    (h : Value.matched left right span = .error t) : t.isOfName = false := by
  unfold Value.matched at h
  split at h <;> cases h <;> rfl

/-- Operands that are no numbers. -/
theorem isOfName_of_numbers {left right : Value} {span : Span} {t : Fault}
    (h : Value.numbers left right span = .error t) : t.isOfName = false := by
  unfold Value.numbers at h
  split at h <;> cases h <;> rfl

/-- One computation after the other. -/
theorem isOfName_of_bind {x : Except Fault α} {g : α → Except Fault β}
    (hx : ∀ t, x = .error t → t.isOfName = false)
    (hg : ∀ a t, g a = .error t → t.isOfName = false) {t : Fault} (h : x >>= g = .error t) :
    t.isOfName = false := by
  cases x with
  | error t' =>
    cases h
    exact hx _ rfl
  | ok a => exact hg a t h

/-- Infix operators only fail on operands that are not for them. -/
theorem isOfName_of_binary {op : BinaryOp} {left right : Value} {span : Span} {t : Fault}
    (h : Value.binary op left right span = .error t) : t.isOfName = false := by
  -- an operator's faults are about its operands, never about a name
  have hArithmetic (g : Float → Float → Float)
      (h : Value.arithmetic g left right span = .error t) : t.isOfName = false :=
    isOfName_of_bind (fun _ => isOfName_of_numbers) (fun _ _ h => by cases h) h
  have hComparison (onNumbers : Float → Float → Bool) (onStrings : String → String → Bool)
      (h : Value.comparison onNumbers onStrings left right span = .error t) :
      t.isOfName = false :=
    isOfName_of_bind (fun _ => isOfName_of_matched) (fun m _ h => by cases m <;> cases h) h
  cases op with
  | equal => cases h
  | notEqual => cases h
  | add =>
    exact isOfName_of_bind (fun _ => isOfName_of_matched) (fun m _ h => by cases m <;> cases h) h
  | subtract => exact hArithmetic _ h
  | multiply => exact hArithmetic _ h
  | divide => exact hArithmetic _ h
  | remainder => exact hArithmetic _ h
  | less => exact hComparison _ _ h
  | greater => exact hComparison _ _ h
  | lessEqual => exact hComparison _ _ h
  | greaterEqual => exact hComparison _ _ h

/-- An index may be out of bounds, or the object none that has items. -/
theorem isOfName_of_index {object key : Value} {span : Span} {t : Fault}
    (h : object.index key span = .error t) : t.isOfName = false := by
  unfold Value.index at h
  split at h
  · cases h
    rfl
  · split at h
    · split at h <;> cases h
      rfl
    · cases h
      rfl

end Eval

-- ---------------------------------------------------------------------------
-- Nodes
-- ---------------------------------------------------------------------------

/-- To start a block is to make its frame. -/
theorem Block.silent_start (b : Block) : Silent b.start := by
  refine silent_bind (opening_openBlock b).silent fun _ => ?_
  exact silent_pure _

mutual

/-- By recursion on what the expression begins with. -/
theorem Expr.consults_start : ∀ e : Expr, Consults e.leading? e.start
  | .number .. => consults_counted (silent_pure _).consults
  | .string .. => consults_counted (silent_pure _).consults
  | .bool .. => consults_counted (silent_pure _).consults
  | .null _ => consults_counted (silent_pure _).consults
  | .undefined _ => consults_counted (silent_pure _).consults
  | .array .. => consults_counted (silent_pure _).consults
  | .ident name => by
    refine consults_counted ?_
    refine consults_bind (consults_lookup name) fun _ => ?_
    exact silent_pure _
  | .assign _ value _ => by
    refine consults_counted ?_
    refine consults_bind value.consults_start fun _ => ?_
    exact silent_pure _
  | .unary _ operand _ => by
    refine consults_counted ?_
    refine consults_bind operand.consults_start fun _ => ?_
    exact silent_pure _
  | .binary _ left _ _ => by
    refine consults_counted ?_
    refine consults_bind left.consults_start fun _ => ?_
    exact silent_pure _
  | .logical _ left _ _ => by
    refine consults_counted ?_
    refine consults_bind left.consults_start fun _ => ?_
    exact silent_pure _
  | .conditional test _ _ _ => by
    refine consults_counted ?_
    refine consults_bind test.consults_start fun _ => ?_
    exact silent_pure _
  | .call callee args span => by
    unfold Expr.start Expr.leading?
    refine consults_counted ?_
    dsimp only
    -- whether the callee is consulted depends on its name alone
    generalize callee.ident?.map (·.name) = name?
    by_cases hChoice : name? = some "amb"
    · rw [hChoice, if_pos rfl]
      exact (silent_pure _).consults
    by_cases hRequire : name? = some "require"
    · rw [hRequire, if_neg (by decide), if_pos rfl]
      exact consults_startRequire args span
    rw [if_neg hChoice, if_neg hRequire]
    split
    · exact absurd rfl hChoice
    · exact absurd rfl hRequire
    · exact consults_bind callee.consults_start fun _ => silent_pure _
  | .index object _ _ => by
    refine consults_counted ?_
    refine consults_bind object.consults_start fun _ => ?_
    exact silent_pure _
  | .member object _ _ => by
    refine consults_counted ?_
    refine consults_bind object.consults_start fun _ => ?_
    exact silent_pure _
  | .function h => consults_counted (silent_bind silent_get fun _ =>
      silent_bind (filling_newClosure h _).silent fun _ => silent_pure _).consults

/-- A requirement begins with its predicate, if it has one argument. -/
theorem consults_startRequire : ∀ (args : List Expr) (span : Span),
    Consults (leadingRequire? args) (startRequire args span)
  | [predicate], _ => by
    refine consults_bind predicate.consults_start fun _ => ?_
    exact silent_pure _
  | [], _ => (silent_throw rfl).consults
  | _ :: _ :: _, _ => (silent_throw rfl).consults

end

/-- A branch begins with its condition. -/
theorem Branch.consults_start (b : Branch) : Consults b.leading? b.start := by
  cases b with
  | mk test consequent alternate span =>
    exact consults_counted (consults_bind test.consults_start fun _ => silent_pure _)

/-- One case for each kind of statement. -/
theorem Stmt.consults_start (s : Stmt) : Consults s.leading? s.start := by
  cases s with
  | expr e => exact consults_counted (consults_bind e.consults_start fun _ => silent_pure _)
  | declare isConst name init span =>
    exact consults_counted (consults_bind init.consults_start fun _ => silent_pure _)
  | returns value span =>
    exact consults_counted (consults_bind value.consults_start fun _ => silent_pure _)
  | branch b => exact b.consults_start
  | block b => exact consults_counted b.silent_start.consults
  | forLoop init test update body span =>
    exact consults_counted (silent_bind (opening_openLoop init).silent fun _ => silent_pure _).consults
  | _ => exact consults_counted (silent_pure _).consults

/-- A block reads nothing yet, and a branch begins with its condition. -/
theorem Alternate.consults_start (a : Alternate) : Consults a.leading? a.start := by
  cases a with
  | absent => exact (silent_pure _).consults
  | block b => exact b.silent_start.consults
  | branch b => exact b.consults_start

/-- That a condition is no boolean is about no name. -/
theorem silent_nonBoolean (v : Value) (span : Span) : Silent (nonBoolean v span : Eval α) :=
  silent_throw rfl

/-- Of all that is done to a result, only an assignment consults a name. -/
theorem Mapping.consults_apply {i o : Kind} (g : Mapping i o) (item : i.Item) :
    Consults ((Pending.map g).node? item >>= Node.leading?) (g.apply item) := by
  cases g with
  | assign target => exact consults_bind (consults_assign target item) fun _ => silent_pure _
  | array => exact (silent_bind silent_newCell fun _ => silent_pure _).consults
  | unary op span => exact (faults_ofExcept fun _ => isOfName_of_unary).silent.consults
  | binary op left span => exact (faults_ofExcept fun _ => isOfName_of_binary).silent.consults
  | index object span => exact (faults_ofExcept fun _ => isOfName_of_index).silent.consults
  | member property span => exact (silent_throw rfl).consults
  | declare isConst name =>
    exact (silent_bind (silent_bind silent_get fun _ => (filling_defineIn _ _ _).silent) fun _ =>
      silent_pure _).consults
  | _ => exact (silent_pure _).consults

/-- What is evaluated after a result begins with a name, or not. -/
theorem Expansion.consults_apply {i o : Kind} (g : Expansion i o) (item : i.Item) :
    Consults (g.node? item >>= Node.leading?) (g.apply item) := by
  cases g with
  | binary op right span => exact consults_bind right.consults_start fun _ => silent_pure _
  -- the right operand is consulted only where the left one does not decide
  | logical op right leftSpan =>
    cases item with
    | bool b =>
      cases op <;> cases b
      · exact (silent_pure _).consults
      · exact right.consults_start
      · exact right.consults_start
      · exact (silent_pure _).consults
    | _ => cases op <;> exact (silent_nonBoolean _ _).consults
  | conditional consequent alternate testSpan =>
    cases item with
    | bool b =>
      cases b
      · exact alternate.consults_start
      · exact consequent.consults_start
    | _ => exact (silent_nonBoolean _ _).consults
  | callee args span => exact (silent_pure _).consults
  | arguments function span => exact (silent_startCall function item span).consults
  | index key span => exact consults_bind key.consults_start fun _ => silent_pure _
  | require span =>
    cases item with
    | bool b => cases b <;> exact (silent_pure _).consults
    | _ => exact (silent_throw rfl).consults
  | branch consequent alternate testSpan =>
    cases item with
    | bool b =>
      cases b
      · exact alternate.consults_start
      · exact consequent.silent_start.consults
    | _ => exact (silent_nonBoolean _ _).consults

-- ---------------------------------------------------------------------------
-- Steps
-- ---------------------------------------------------------------------------

namespace Machine

section

variable {P : Fault → Prop}

/-- To leave a loop does not fail. -/
theorem faults_leaveLoop (header : Loop) : Faults P (leaveLoop header) := by
  cases header with
  | whileLoop test body => exact faults_pure _
  | forLoop init test update body frame => exact faults_modify _

theorem faults_pullPhase (header : Loop) (phases : List Phase) (stack : Stack .completion) :
    Faults P (pullPhase header phases stack) := by
  cases phases with
  | nil => exact faults_bind (faults_leaveLoop header) fun _ => faults_pure _
  | cons p below => cases p <;> exact faults_pure _

theorem faults_completeLoop (header : Loop) (phases : List Phase) (completion : Completion)
    (stack : Stack .completion) : Faults P (completeLoop header phases completion stack) := by
  refine faults_bind (faults_leaveLoop header) fun _ => ?_
  exact faults_pure _

end

/-- The test of a loop may begin with a name. -/
theorem consults_startTest (header : Loop) :
    Consults (header.testNode? >>= Node.leading?) (startTest header) := by
  cases header with
  | whileLoop test body => exact consults_bind test.consults_start fun _ => silent_pure _
  | forLoop init test update body frame =>
    cases test with
    | none => exact (silent_pure _).consults
    | some test => exact consults_bind test.consults_start fun _ => silent_pure _

theorem consults_startLoop (header : Loop) :
    Consults (header.firstNode? >>= Node.leading?) (startLoop header) := by
  cases header with
  | whileLoop test body => exact consults_startTest (.whileLoop test body)
  | forLoop init test update body frame =>
    cases init with
    | none => exact consults_startTest (.forLoop none test update body frame)
    | some init => exact consults_bind init.toStmt.consults_start fun _ => silent_pure _

theorem consults_startUpdate (header : Loop) :
    Consults (header.nextNode? >>= Node.leading?) (startUpdate header) := by
  cases header with
  | whileLoop test body => exact consults_startTest (.whileLoop test body)
  | forLoop init test update body frame =>
    cases update with
    | none => exact consults_startTest (.forLoop init test none body frame)
    | some update => exact consults_bind update.consults_start fun _ => silent_pure _

/-- The body is a block, and is started like one. -/
theorem silent_startBody (header : Loop) : Silent (startBody header) := by
  cases header with
  | whileLoop test body => exact silent_bind body.silent_start fun _ => silent_pure _
  | forLoop init test update body frame =>
    exact silent_bind (opening_openRound init frame).silent fun _ => silent_bind (silent_modify _) fun _ =>
      silent_bind body.silent_start fun _ => silent_bind (silent_modify _) fun _ => silent_pure _

/-- The next alternative may begin with a name. -/
theorem consults_nextAlternative (start : Checkpoint) (alternatives : List Expr)
    (stack : Stack .value) :
    Consults ((Pending.choosing start alternatives).otherwise? >>= Node.leading?)
      (nextAlternative start alternatives stack) := by
  cases alternatives with
  | nil => exact (silent_pure _).consults
  | cons e rest => exact consults_bind e.consults_start fun _ => silent_pure _

theorem consults_startStatement (index : Nat) (stmt : Stmt) (rest : List Stmt)
    (below : List Reached) (commit : Option Nat) (stack : Stack .completion) :
    Consults stmt.leading? (startStatement index stmt rest below commit stack) := by
  refine consults_bind stmt.consults_start fun _ => ?_
  exact silent_pure _

/-- When a search is asked, its first node is evaluated. -/
theorem sought_stepPull {k : Kind} (s : Search k) (stack : Stack k) (c : Context) :
    Sought (s.node? >>= Node.leading?) (s.opening c) (stepPull s stack c) := by
  cases s with
  | once item => cases item <;> exact (silent_pure _).consults c
  | within frame inner => exact (silent_bind (silent_modify _) fun _ => silent_pure _).consults c
  | choice alternatives =>
    cases alternatives with
    | nil => exact (silent_pure _).consults _
    | cons e rest => exact consults_nextAlternative c.moment (e :: rest) stack c.checkpoint
  | choosing start current alternatives =>
    cases current with
    | some s => exact (silent_pure _).consults c
    | none =>
      cases alternatives with
      | nil => exact (silent_pure _).consults c
      | cons e rest => exact consults_nextAlternative start (e :: rest) stack c
  | product exprs =>
    cases exprs with
    | nil => exact (silent_pure _).consults c
    | cons e rest => exact consults_bind e.consults_start (fun _ => silent_pure _) c
  | sequence statements =>
    cases statements with
    | nil => exact (silent_pure _).consults c
    | cons stmt rest => exact consults_startStatement 0 stmt rest [] none stack c
  | loop header =>
    -- the frame of the loop is entered before its first part is evaluated, which is the context
    -- that `opening` speaks of
    have hEntered : stepPull (.loop header) stack c =
        (startLoop header >>= fun p => pullPhase header [p] stack) (header.entered c) := by
      cases header <;> rfl
    rw [hEntered]
    have hOpening : (Search.loop header).opening c = header.entered c := rfl
    rw [hOpening]
    exact consults_bind (consults_startLoop header) (fun _ => faults_pullPhase _ _ _) _
  | looping header phases =>
    refine (silent_bind ?_ fun _ => faults_pullPhase header phases stack).consults c
    cases header with
    | whileLoop test body => exact silent_pure _
    | forLoop init test update body frame => exact silent_modify _
  | _ => exact (silent_pure _).consults c

/-- After a test only the body is started. -/
theorem consults_afterTest (header : Loop) (phases : List Phase) (test : Value)
    (stack : Stack .completion) : Consults none (afterTest header phases test stack) := by
  unfold afterTest
  split
  · exact (silent_bind (silent_startBody header) fun _ => faults_pullPhase _ _ _).consults
  · exact Silent.consults (faults_completeLoop _ _ _ _)
  · exact (silent_nonBoolean _ _).consults

/-- When a part has a result, the node that follows is evaluated. -/
theorem consults_stepFound {i o : Kind} (item : i.Item) (rest : Search i) (p : Pending i o)
    (stack : Stack o) :
    Consults (p.node? item >>= Node.leading?) (stepFound retire item rest p stack) := by
  cases p with
  | map g => exact consults_bind (g.consults_apply item) fun _ => silent_pure _
  | outer g => exact consults_bind (g.consults_apply item) fun _ => silent_pure _
  | within frame => exact (silent_bind (silent_modify _) fun _ => silent_pure _).consults
  | operand exprs below values =>
    cases exprs with
    | nil => exact (silent_pure _).consults
    | cons e exprs => exact consults_bind e.consults_start fun _ => silent_pure _
  | statement index stmts below commit =>
    cases stmts with
    | nil => cases item <;> exact (silent_pure _).consults
    | cons stmt stmts =>
      cases item with
      | value v => exact consults_startStatement _ stmt _ _ _ _
      | _ => exact (silent_pure _).consults
  | init header below =>
    exact consults_bind (consults_startTest header) fun _ => faults_pullPhase _ _ _
  | test header below => exact consults_afterTest header _ item stack
  -- a body that breaks or returns ends the loop, and nothing more is consulted
  | body header below =>
    cases item with
    | breakLoop => exact Silent.consults (faults_completeLoop _ _ _ _)
    | returns v => exact Silent.consults (faults_completeLoop _ _ _ _)
    | _ => exact consults_bind (consults_startUpdate header) fun _ => faults_pullPhase _ _ _
  | update header below =>
    exact consults_bind (consults_startTest header) fun _ => faults_pullPhase _ _ _
  | _ => exact (silent_pure _).consults

/-- When a part has no more results, the next alternative is evaluated. -/
theorem sought_stepDrained {i o : Kind} (rest : Search i) (p : Pending i o) (stack : Stack o)
    (c : Context) :
    Sought (p.otherwise? >>= Node.leading?) ((drained rest (.push p stack)).opening c)
      (stepDrained rest p stack c) := by
  cases p with
  | choosing start alternatives => exact consults_nextAlternative start alternatives stack _
  | within frame => exact (silent_bind (silent_modify _) fun _ => silent_pure _).consults c
  | init header below | test header below | body header below | update header below =>
    exact Silent.consults (faults_pullPhase header below stack) c
  | _ => exact (silent_pure _).consults c

/-- If a step consults a name that is not to be found, it ends in a fault; and a fault that tells of
such a name tells of the one that is consulted. -/
theorem sought_step (m : Machine) (c : Context) :
    Sought m.consults? (m.opening c) (m.step retire c) := by
  obtain ⟨k, walk, stack⟩ := m
  cases walk with
  | pull s => exact sought_stepPull s stack c
  | found item rest =>
    cases stack with
    | nil => exact (silent_pure _).consults _
    | push p below => exact consults_stepFound item rest p below c
  | drained rest =>
    cases stack with
    | nil => exact (silent_pure _).consults _
    | push p below => exact sought_stepDrained rest p below c

end Machine

end AmbScript
