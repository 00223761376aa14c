import AmbScript.Machine.Step
import AmbScript.Proofs.Listing.Renaming
import AmbScript.Proofs.Value.Memory

/-!
# Values that a machine has found

A machine goes on from values that it has found and has not used yet. Each step takes its values
from those, from bindings, from the text, or makes them; so they all live in the memory at all
times.

* `Machine.values` — the values that are in a machine, in no particular order.
* `Expr.yields_start`, `Stmt.yields_start` — what is started has live values only.
* `Machine.yields_step` — a step goes from live values to live values.

Which values a search holds is read off its tree. What a machine will do with them does not matter:
every action takes live values to live ones, in a memory that only grows, unless the machine goes
back to a moment. Then bindings are taken back and cells stay, so values that lived still do.
-/

namespace AmbScript

variable {memory memory' : Value.Memory} {retire : {k : Kind} → Search k → Bool}

open Value Eval

-- ---------------------------------------------------------------------------
-- The values in a machine
-- ---------------------------------------------------------------------------

/-- The values in a result. -/
def itemValues : {k : Kind} → k.Item → List Value
  | .value, v => [v]
  | .completion, .value v => [v]
  | .completion, .returns v => [v]
  | .completion, _ => []
  | .tuple, vs => vs

/-- The values that wait in what is done with a result. -/
def Mapping.values {i o : Kind} : Mapping i o → List Value
  | .binary _ left _ => [left]
  | .index object _ => [object]
  | _ => []

/-- The values that wait in what a result leads to. -/
def Expansion.values {i o : Kind} : Expansion i o → List Value
  | .arguments function _ => [function]
  | _ => []

mutual

/-- The values that a search holds. Those of its first operands were found already. -/
def Search.values {k : Kind} : Search k → List Value
  | .once none => []
  | .once (some item) => itemValues item
  | .map f inner => f.values ++ inner.values
  | .bind f outer => f.values ++ outer.values
  | .binding f outer inner => f.values ++ outer.values ++ inner.values
  | .within _ inner => inner.values
  | .choice _ => []
  | .choosing _ none _ => []
  | .choosing _ (some s) _ => s.values
  | .product _ => []
  | .producing operands values => operandValues operands ++ values
  | .sequence _ => []
  | .sequenced reached _ => reachedValues reached
  | .loop _ => []
  | .looping _ phases => phaseValues phases

/-- The values in the operands of a product that are under way. -/
def operandValues : List Operand → List Value
  | [] => []
  | .mk _ s :: below => s.values ++ operandValues below

/-- The values in the statements of a sequence that are under way. -/
def reachedValues : List Reached → List Value
  | [] => []
  | .mk _ _ s :: below => s.values ++ reachedValues below

/-- The values in the parts of a loop that are under way. -/
def phaseValues : List Phase → List Value
  | [] => []
  | p :: below => p.values ++ phaseValues below

/-- The values in one part of a loop. -/
def Phase.values : Phase → List Value
  | .init s => s.values
  | .test s => s.values
  | .body s => s.values
  | .update s => s.values

end

attribute [simp] Search.values operandValues reachedValues phaseValues Phase.values

/-- The values that wait for the result of another search. -/
@[simp] def Pending.values {i o : Kind} : Pending i o → List Value
  | .map f => f.values
  | .outer f => f.values
  | .inner f s => f.values ++ s.values
  | .within _ => []
  | .choosing .. => []
  | .operand _ below values => operandValues below ++ values
  | .statement _ _ below _ => reachedValues below
  | .init _ below => phaseValues below
  | .test _ below => phaseValues below
  | .body _ below => phaseValues below
  | .update _ below => phaseValues below

/-- The values that wait at any depth. -/
@[simp] def Stack.values {k : Kind} : Stack k → List Value
  | .nil => []
  | .push p below => p.values ++ below.values

/-- A search that had no more results is not asked again. -/
@[simp] def Walk.values {k : Kind} : Walk k → List Value
  | .pull s => s.values
  | .found item rest => itemValues item ++ rest.values
  | .drained _ => []

/-- The values in a machine: those that wait for others, and the one that was found last. -/
@[simp] def Machine.values (m : Machine) : List Value := m.walk.values ++ m.stack.values

/-- All values of a result are live. -/
def LiveItem (k : Kind) (memory : Memory) (item : k.Item) : Prop := Lively memory (itemValues item)

/-- All values of a search are live. -/
def LiveSearch {k : Kind} (memory : Memory) (s : Search k) : Prop := Lively memory s.values

/-- All values in a part of a loop are live. -/
def LivePhase (memory : Memory) (p : Phase) : Prop := Lively memory p.values

/-- All values in a machine are live. -/
def LiveMachine (memory : Memory) (m : Machine) : Prop := Lively memory m.values

-- ---------------------------------------------------------------------------
-- Starts of nodes
-- ---------------------------------------------------------------------------

namespace Eval

variable {k i o : Kind}

/-- A search for one result that is known. -/
theorem yields_found {item : k.Item} (h : LiveItem k memory item) :
    Yields memory LiveSearch (pure (Search.found item)) := by
  refine yields_pure ?_
  show Lively memory (Search.once (some item)).values
  rw [Search.values]
  exact h

/-- A search without results. -/
theorem yields_failed : Yields memory LiveSearch (pure (Search.failed : Search k)) := by
  refine yields_pure ?_
  show Lively memory (Search.once none).values
  rw [Search.values]
  exact lively_nil

/-- A live value as the only result. -/
theorem yields_foundValue {v : Value} (hv : v.LivesIn memory) :
    Yields memory LiveSearch (pure (Search.found (k := .value) v)) :=
  yields_found (k := .value) (lively_cons.mpr ⟨hv, lively_nil⟩)

/-- A value of the text. -/
theorem yields_foundPlain {v : Value} (hLeaf : v.isLeaf = true) (hPlain : v.cell? = none) :
    Yields memory LiveSearch (pure (Search.found (k := .value) v)) :=
  yields_foundValue (livesIn_plain hLeaf hPlain)

/-- A search around another one. -/
theorem yields_map {f : Mapping i o} (hf : Lively memory f.values) {x : Eval (Search i)}
    (hx : Yields memory LiveSearch x) : Yields memory LiveSearch (do return .map f (← x)) := by
  refine yields_bind hx fun memory' hle s hs => yields_pure ?_
  show Lively memory' (Search.map f s).values
  rw [Search.values]
  exact lively_append.mpr ⟨hf.mono hle, hs⟩

/-- A search for what the results of another one lead to. -/
theorem yields_expand {f : Expansion i o} (hf : Lively memory f.values) {x : Eval (Search i)}
    (hx : Yields memory LiveSearch x) : Yields memory LiveSearch (do return .bind f (← x)) := by
  refine yields_bind hx fun memory' hle s hs => yields_pure ?_
  show Lively memory' (Search.bind f s).values
  rw [Search.values]
  exact lively_append.mpr ⟨hf.mono hle, hs⟩

/-- A search that starts with no values. -/
theorem yields_bare {s : Search k} (h : s.values = []) : Yields memory LiveSearch (pure s) := by
  refine yields_pure ?_
  show Lively memory s.values
  rw [h]
  exact lively_nil

end Eval

/-- A block starts with no values. -/
theorem Block.yields_start (b : Block) : Yields memory LiveSearch b.start := by
  refine yields_bind (yields_openBlock b) fun _ _ _ _ => ?_
  exact yields_bare (by simp)

mutual

/-- What an expression starts holds live values, by recursion on its first operand. -/
theorem Expr.yields_start : ∀ (e : Expr) (memory : Memory), Yields memory LiveSearch e.start
  | .number .., _ => by
    refine yields_tick_bind fun _ _ => ?_
    exact yields_foundPlain rfl rfl
  | .string .., _ => by
    refine yields_tick_bind fun _ _ => ?_
    exact yields_foundPlain rfl rfl
  | .bool .., _ => by
    refine yields_tick_bind fun _ _ => ?_
    exact yields_foundPlain rfl rfl
  | .null _, _ => by
    refine yields_tick_bind fun _ _ => ?_
    exact yields_foundPlain rfl rfl
  | .undefined _, _ => by
    refine yields_tick_bind fun _ _ => ?_
    exact yields_foundPlain rfl rfl
  | .array .., _ => by
    refine yields_tick_bind fun _ _ => ?_
    exact yields_bare (by simp [Mapping.values])
  | .ident name, _ => by
    refine yields_tick_bind fun _ _ => ?_
    refine yields_bind (yields_lookup name) fun _ _ _ hv => ?_
    exact yields_foundValue hv
  | .assign _ value _, _ => by
    refine yields_tick_bind fun _ _ => ?_
    exact yields_map lively_nil (value.yields_start _)
  | .unary _ operand _, _ => by
    refine yields_tick_bind fun _ _ => ?_
    exact yields_map lively_nil (operand.yields_start _)
  | .binary _ left _ _, _ => by
    refine yields_tick_bind fun _ _ => ?_
    exact yields_expand lively_nil (left.yields_start _)
  | .logical _ left _ _, _ => by
    refine yields_tick_bind fun _ _ => ?_
    exact yields_expand lively_nil (left.yields_start _)
  | .conditional test _ _ _, _ => by
    refine yields_tick_bind fun _ _ => ?_
    exact yields_expand lively_nil (test.yields_start _)
  | .call callee args span, _ => by
    refine yields_tick_bind fun _ _ => ?_
    split
    · exact yields_bare (by simp)
    · exact yields_startRequire args span _
    · exact yields_expand lively_nil (callee.yields_start _)
  | .index object _ _, _ => by
    refine yields_tick_bind fun _ _ => ?_
    exact yields_expand lively_nil (object.yields_start _)
  | .member object _ _, _ => by
    refine yields_tick_bind fun _ _ => ?_
    exact yields_map lively_nil (object.yields_start _)
  | .function f, _ => by
    refine yields_tick_bind fun _ _ => ?_
    refine yields_look fun _ _ => ?_
    refine yields_bind (yields_newClosure f _) fun _ _ _ hv => ?_
    exact yields_foundValue hv

/-- `require` holds those of its predicate. -/
theorem yields_startRequire : ∀ (args : List Expr) (span : Span) (memory : Memory),
    Yields memory LiveSearch (startRequire args span)
  | [predicate], _, _ => yields_expand lively_nil (predicate.yields_start _)
  | [], _, _ => yields_throw _
  | _ :: _ :: _, _, _ => yields_throw _

end

/-- A branch holds those of its test. -/
theorem Branch.yields_start (b : Branch) : Yields memory LiveSearch b.start := by
  cases b with
  | mk test consequent alternate span =>
    exact yields_tick_bind fun _ _ => yields_expand lively_nil (test.yields_start _)

/-- A statement without a value completes with `undefined`. -/
theorem lively_completed : LiveItem .completion memory (.value .undefined) :=
  lively_cons.mpr ⟨livesIn_plain rfl rfl, lively_nil⟩

/-- The search of such a statement. -/
theorem yields_completed : Yields memory LiveSearch
    (pure (Search.found (k := .completion) (.value .undefined))) :=
  yields_found (k := .completion) lively_completed

/-- What a statement starts holds live values. -/
theorem Stmt.yields_start (s : Stmt) : Yields memory LiveSearch s.start := by
  cases s with
  | expr e => exact yields_tick_bind fun _ _ => yields_map lively_nil (e.yields_start _)
  | declare isConst name init span =>
    exact yields_tick_bind fun _ _ => yields_map lively_nil (init.yields_start _)
  | function f => exact yields_tick_bind fun _ _ => yields_completed
  | returns value span =>
    exact yields_tick_bind fun _ _ => yields_map lively_nil (value.yields_start _)
  | branch b => exact b.yields_start
  | block b => exact yields_tick_bind fun _ _ => b.yields_start
  | whileLoop test body span => exact yields_tick_bind fun _ _ => yields_bare (by simp)
  | forLoop init test update body span =>
    exact yields_tick_bind fun _ _ =>
      yields_bind (yields_openLoop init) fun _ _ _ _ => yields_bare (by simp)
  | breakLoop span =>
    exact yields_tick_bind fun _ _ => yields_found (k := .completion) lively_nil
  | continueLoop span =>
    exact yields_tick_bind fun _ _ => yields_found (k := .completion) lively_nil
  | cut span => exact yields_tick_bind fun _ _ => yields_completed

theorem Alternate.yields_start (a : Alternate) : Yields memory LiveSearch a.start := by
  cases a with
  | absent => exact yields_completed
  | block b => exact b.yields_start
  | branch b => exact b.yields_start

-- ---------------------------------------------------------------------------
-- Going on from results
-- ---------------------------------------------------------------------------

/-- A value that is the same in all renamings has no cells. -/
theorem Value.livesIn_of_alike {w : Renaming} (hNone : ∀ i j, ¬ w.cells.Pairs i j) {v : Value}
    (h : v.Alike w v) : v.LivesIn memory := by
  cases h with
  | pair hCell | array hCell | closure _ hCell => exact (hNone _ _ hCell).elim
  | _ => exact livesIn_plain rfl rfl

/-- An operation makes values without cells. -/
theorem Value.livesIn_binary {op : BinaryOp} {l r u : Value} {span : Span}
    (h : binary op l r span = .ok u) : u.LivesIn memory := by
  -- Under the renaming that has no cell at all a result is itself, so it has none.
  let none : Pairing := ⟨fun _ _ => False, fun h => h.elim, fun h => h.elim⟩
  exact livesIn_of_alike (w := ⟨none, none⟩) (fun _ _ h => h) (alike_of_binary h)

theorem Value.livesIn_unary {op : UnaryOp} {v u : Value} {span : Span}
    (h : v.unary op span = .ok u) : u.LivesIn memory := by
  unfold unary at h
  split at h <;> cases h <;> exact livesIn_plain rfl rfl

/-- What is found by indexing is a part. -/
theorem Value.LivesIn.index {object key u : Value} (hObject : object.LivesIn memory) {span : Span}
    (h : object.index key span = .ok u) : u.LivesIn memory := by
  -- indexing finds one of the items, whatever the key
  have hItem : ∃ items kind, object.items? = some (items, kind) ∧ u ∈ items := by
    unfold Value.index at h
    split at h
    · cases h
    · next items kind hItems =>
      split at h
      · split at h
        · next x v hFound =>
          cases h
          obtain ⟨n, -, hFound⟩ := Option.bind_eq_some_iff.mp hFound
          exact ⟨items, kind, hItems, List.mem_of_getElem? hFound⟩
        · cases h
      · cases h
  obtain ⟨items, kind, hItems, hu⟩ := hItem
  cases object with
  | array cell vs =>
    cases hItems
    exact hObject.part (.item hu (.self u))
  | pair cell head tail =>
    cases hItems
    rcases List.mem_cons.mp hu with rfl | hu
    · exact hObject.part (.head (.self _))
    · exact hObject.part (.tail (List.mem_singleton.mp hu ▸ .self _))
  | _ => cases hItems

namespace Eval

/-- A value that was computed without the context. -/
theorem yields_ofExcept {x : Except Fault Value} (h : ∀ v, x = .ok v → v.LivesIn memory) :
    Yields memory (LiveItem .value) (ofExcept x) := by
  cases x with
  | ok v => exact yields_pure (lively_cons.mpr ⟨h v rfl, lively_nil⟩)
  | error t => exact yields_throw t

/-- The arguments are bound in the frame of the call, or used by a primitive. -/
theorem yields_startCall {function : Value} {args : List Value} (hArgs : Lively memory args)
    (span : Span) : Yields memory LiveSearch (startCall function args span) := by
  cases function with
  | closure cell f env =>
    exact yields_bind (yields_openCall f env hArgs span) fun _ _ _ _ =>
      yields_bare (by simp [Mapping.values])
  | primitive p =>
    exact yields_bind (yields_applyPrimitive p hArgs span) fun _ _ _ hv => yields_foundValue hv
  | _ => exact yields_throw _

end Eval

/-- A call gives the value that was returned, or `undefined`. -/
theorem Completion.lively_ofCall {completion : Completion}
    (h : LiveItem .completion memory completion) : LiveItem .value memory completion.ofCall := by
  cases completion with
  | returns v => exact h
  | _ => exact lively_cons.mpr ⟨livesIn_plain rfl rfl, lively_nil⟩

/-- A program gives the value of its last statement. -/
theorem Completion.lively_ofProgram {completion : Completion}
    (h : LiveItem .completion memory completion) : LiveItem .value memory completion.ofProgram := by
  cases completion with
  | value v | returns v => exact h
  | _ => exact lively_cons.mpr ⟨livesIn_plain rfl rfl, lively_nil⟩

/-- What is done with live values gives live ones. -/
theorem Mapping.yields_apply {i o : Kind} {f : Mapping i o} (hf : Lively memory f.values)
    {item : i.Item} (hItem : LiveItem i memory item) :
    Yields memory (LiveItem o) (f.apply item) := by
  have hValue {v : Value} (h : LiveItem .value memory v) : v.LivesIn memory := (lively_cons.mp h).1
  cases f with
  | array =>
    -- the cell of the array is new, and its items were live before
    have hArray : Yields memory LiveValue (do return .array (← newCell) item) :=
      yields_new (fun _ => rfl) fun cell part hReaches => by
        cases hReaches with
        | self => exact .inl rfl
        | item hIn h => exact .inr ((hItem _ hIn).part h)
    intro c hc
    cases hArray c hc with
    | ok hle hd hv => exact .ok hle hd (lively_cons.mpr ⟨hv, lively_nil⟩)
  | assign target =>
    exact yields_bind (yields_assign target (hValue hItem)) fun _ hle _ _ =>
      yields_pure (Lively.mono hItem hle)
  | unary op span => exact yields_ofExcept fun _ h => livesIn_unary h
  | binary op left span => exact yields_ofExcept fun _ h => livesIn_binary h
  | index object span => exact yields_ofExcept fun _ h => (lively_cons.mp hf).1.index h
  | member property span => exact yields_throw _
  | statement => exact yields_pure hItem
  | declare isConst name =>
    exact yields_bind (yields_define name (hValue hItem) isConst) fun _ hle _ _ =>
      yields_pure (Lively.mono hItem hle)
  | returns => exact yields_pure hItem
  | call => exact yields_pure (Completion.lively_ofCall hItem)
  | program => exact yields_pure (Completion.lively_ofProgram hItem)

/-- What live values lead to holds live ones. -/
theorem Expansion.yields_apply {i o : Kind} {f : Expansion i o} (hf : Lively memory f.values)
    {item : i.Item} (hItem : LiveItem i memory item) :
    Yields memory LiveSearch (f.apply item) := by
  cases f with
  | binary op right span =>
    exact yields_map (f := .binary op item span) hItem (right.yields_start _)
  | logical op right leftSpan =>
    show Yields memory LiveSearch (continueLogical op right leftSpan item)
    unfold continueLogical
    split
    · exact right.yields_start _
    · exact right.yields_start _
    · exact yields_foundPlain rfl rfl
    · exact yields_throw _
  | conditional consequent alternate testSpan =>
    show Yields memory LiveSearch (continueConditional consequent alternate testSpan item)
    unfold continueConditional
    split
    · exact consequent.yields_start _
    · exact alternate.yields_start _
    · exact yields_throw _
  -- the callee goes along with the arguments still to be evaluated
  | callee args span =>
    refine yields_pure (show Lively memory (Search.bind _ _).values from ?_)
    rw [Search.values, Search.values, List.append_nil]
    exact hItem
  | arguments function span => exact yields_startCall hItem span
  | index key span => exact yields_map (f := .index item span) hItem (key.yields_start _)
  | require span =>
    show Yields memory LiveSearch (continueRequire span item)
    unfold continueRequire
    split
    · exact yields_foundPlain rfl rfl
    · exact yields_failed
    · exact yields_throw _
  | branch consequent alternate testSpan =>
    show Yields memory LiveSearch (continueBranch consequent alternate testSpan item)
    unfold continueBranch
    split
    · exact consequent.yields_start
    · exact alternate.yields_start
    · exact yields_throw _

-- ---------------------------------------------------------------------------
-- Parts of a step
-- ---------------------------------------------------------------------------

namespace Machine

variable {k i o : Kind}

/-- A search that is about to be asked. -/
theorem lively_pull {s : Search k} (h : LiveSearch memory s) {stack : Stack k}
    (hStack : Lively memory stack.values) : LiveMachine memory (pull s stack) :=
  lively_append.mpr ⟨h, hStack⟩

/-- A result, and what is left of its search. -/
theorem lively_found {item : k.Item} (hItem : LiveItem k memory item) {rest : Search k}
    (h : LiveSearch memory rest) {stack : Stack k} (hStack : Lively memory stack.values) :
    LiveMachine memory (found item rest stack) :=
  lively_append.mpr ⟨lively_append.mpr ⟨hItem, h⟩, hStack⟩

/-- A search without more results holds nothing. -/
theorem lively_drained (rest : Search k) {stack : Stack k} (hStack : Lively memory stack.values) :
    LiveMachine memory (drained rest stack) := hStack

theorem lively_push {p : Pending i o} (hp : Lively memory p.values) {stack : Stack o}
    (hStack : Lively memory stack.values) : Lively memory (Stack.push p stack).values :=
  lively_append.mpr ⟨hp, hStack⟩

/-- The next alternative is started. -/
theorem yields_nextAlternative (start : Checkpoint) (es : List Expr) {stack : Stack .value}
    (hStack : Lively memory stack.values) :
    Yields memory LiveMachine (nextAlternative start es stack) := by
  cases es with
  | nil => exact yields_pure (lively_drained _ hStack)
  | cons e rest =>
    exact yields_bind (e.yields_start memory) fun _ hle _ hs =>
      yields_pure (lively_pull hs (lively_push lively_nil (hStack.mono hle)))

/-- The last operand is asked; the values of the others wait. -/
theorem lively_pullOperand {operands : List Operand} {values : List Value}
    (h : Lively memory (operandValues operands)) (hValues : Lively memory values)
    {stack : Stack .tuple} (hStack : Lively memory stack.values) :
    LiveMachine memory (pullOperand operands values stack) := by
  cases operands with
  | nil => exact lively_drained _ hStack
  | cons operand below =>
    obtain ⟨rest, s⟩ := operand
    rw [operandValues, lively_append] at h
    exact lively_pull h.1 (lively_push (lively_append.mpr ⟨h.2, hValues⟩) hStack)

/-- The first operand is started. -/
theorem yields_startProduct (exprs : List Expr) {stack : Stack .tuple}
    (hStack : Lively memory stack.values) :
    Yields memory LiveMachine (startProduct exprs stack) := by
  cases exprs with
  | nil =>
    refine yields_pure (lively_found (k := .tuple) lively_nil ?_ hStack)
    show Lively memory (Search.producing [] []).values
    simp
  | cons e rest =>
    refine yields_bind (e.yields_start memory) fun memory' hle s hs => ?_
    refine yields_pure (lively_pullOperand ?_ lively_nil (hStack.mono hle))
    rw [operandValues, operandValues, List.append_nil]
    exact hs

/-- A value of an operand is kept, and the next operand is started or the product has a result. -/
theorem yields_fillOperand (rest : List Expr) {s : Search .value} (hs : LiveSearch memory s)
    {below : List Operand} (hBelow : Lively memory (operandValues below)) {values : List Value}
    (hValues : Lively memory values) {v : Value} (hv : v.LivesIn memory) {stack : Stack .tuple}
    (hStack : Lively memory stack.values) :
    Yields memory LiveMachine (fillOperand (.mk rest s) below values v stack) := by
  have hFilled : Lively memory (v :: values) := lively_cons.mpr ⟨hv, hValues⟩
  have hOperands {rest : List Expr} : Lively memory (operandValues (.mk rest s :: below)) := by
    rw [operandValues]
    exact lively_append.mpr ⟨hs, hBelow⟩
  cases rest with
  | nil =>
    refine yields_pure (lively_found (k := .tuple) (lively_reverse.mpr hFilled) ?_ hStack)
    show Lively memory (Search.producing _ _).values
    rw [Search.values]
    exact lively_append.mpr ⟨hOperands, hValues⟩
  | cons e rest =>
    -- starting the next operand may make cells: whatever lived before still does
    refine yields_bind (e.yields_start memory) fun memory' hle t ht => ?_
    refine yields_pure (lively_pullOperand ?_ (hFilled.mono hle) (hStack.mono hle))
    rw [operandValues]
    exact lively_append.mpr ⟨ht, hOperands.mono hle⟩

/-- The last statement is asked. -/
theorem lively_pullStatement {reached : List Reached} (h : Lively memory (reachedValues reached))
    (commit : Option Nat) {stack : Stack .completion} (hStack : Lively memory stack.values) :
    LiveMachine memory (pullStatement reached commit stack) := by
  unfold pullStatement
  split
  · exact lively_drained _ hStack
  · split
    · exact lively_drained _ hStack
    · rw [reachedValues, lively_append] at h
      exact lively_pull h.1 (lively_push h.2 hStack)

/-- A statement is started. -/
theorem yields_startStatement (index : Nat) (stmt : Stmt) (rest : List Stmt)
    {below : List Reached} (hBelow : Lively memory (reachedValues below)) (commit : Option Nat)
    {stack : Stack .completion} (hStack : Lively memory stack.values) :
    Yields memory LiveMachine (startStatement index stmt rest below commit stack) := by
  refine yields_bind stmt.yields_start fun memory' hle s hs => ?_
  refine yields_pure (lively_pullStatement ?_ _ (hStack.mono hle))
  rw [reachedValues]
  exact lively_append.mpr ⟨hs, hBelow.mono hle⟩

/-- A sequence with statements under way. -/
theorem lively_sequenced {reached : List Reached} (h : Lively memory (reachedValues reached))
    (commit : Option Nat) : LiveSearch memory (.sequenced reached commit) := by
  rw [LiveSearch, Search.values]
  exact h

/-- The first statement is started. -/
theorem yields_startSequence (statements : List Stmt) {stack : Stack .completion}
    (hStack : Lively memory stack.values) :
    Yields memory LiveMachine (startSequence statements stack) := by
  have hNone : Lively memory (reachedValues []) := by rw [reachedValues]; exact lively_nil
  cases statements with
  | nil =>
    exact yields_pure
      (lively_found (k := .completion) lively_completed (lively_sequenced hNone none) hStack)
  | cons stmt rest => exact yields_startStatement 0 stmt rest hNone none hStack

/-- The next statement is started, or the sequence has a result. -/
theorem yields_completeStatement (index : Nat) (rest : List Stmt) {completion : Completion}
    (hCompletion : LiveItem .completion memory completion) {reached : List Reached}
    (h : Lively memory (reachedValues reached)) (commit : Option Nat) {stack : Stack .completion}
    (hStack : Lively memory stack.values) :
    Yields memory LiveMachine (completeStatement index rest completion reached commit stack) := by
  unfold completeStatement
  split
  · exact yields_startStatement _ _ _ h commit hStack
  · exact yields_pure (lively_found (k := .completion) hCompletion (lively_sequenced h commit) hStack)

section loops

variable {header : Loop} {phases : List Phase} {stack : Stack .completion}

/-- The frame of a loop is entered. -/
theorem yields_enterLoop : Yields memory AnyYield (enterLoop header) := by
  cases header with
  | whileLoop test body => exact yields_pure trivial
  | forLoop init test update body frame => exact yields_enter frame

theorem yields_leaveLoop : Yields memory AnyYield (leaveLoop header) := by
  cases header with
  | whileLoop test body => exact yields_pure trivial
  | forLoop init test update body frame => exact yields_leave

/-- A part of a loop that is one search. -/
theorem yields_phase {x : Eval (Search k)} (hx : Yields memory LiveSearch x)
    (part : Search k → Phase) (hPart : ∀ s, (part s).values = s.values) :
    Yields memory LivePhase (do return part (← x)) := by
  refine yields_bind hx fun memory' _ s hs => ?_
  exact yields_pure (show Lively memory' (part s).values by rw [hPart]; exact hs)

/-- The test of a loop. -/
theorem yields_startTest : Yields memory LivePhase (startTest header) := by
  cases header with
  | whileLoop test body => exact yields_phase (test.yields_start _) .test (by simp)
  | forLoop init test update body frame =>
    cases test with
    | none =>
      refine yields_pure (show Lively memory (Phase.test (Search.once _)).values from ?_)
      rw [Phase.values, Search.values]
      exact lively_cons.mpr ⟨livesIn_plain rfl rfl, lively_nil⟩
    | some test => exact yields_phase (test.yields_start _) .test (by simp)

/-- The part that a loop begins with. -/
theorem yields_startLoop : Yields memory LivePhase (startLoop header) := by
  unfold startLoop
  split
  · exact yields_phase (Stmt.yields_start _) .init (by simp)
  · exact yields_startTest

/-- The part after the body. -/
theorem yields_startUpdate : Yields memory LivePhase (startUpdate header) := by
  unfold startUpdate
  split
  · exact yields_phase (Expr.yields_start _ _) .update (by simp)
  · exact yields_startTest

/-- The body, with copies of the variables of its header. -/
theorem yields_startBody : Yields memory LivePhase (startBody header) := by
  cases header with
  | whileLoop test body => exact yields_phase body.yields_start .body (by simp)
  | forLoop init test update body frame =>
    refine yields_bind (yields_openRound init frame) fun _ _ round _ => ?_
    refine yields_bind (yields_enter round) fun _ _ _ _ => ?_
    refine yields_bind body.yields_start fun _ _ s hs => ?_
    refine yields_bind yields_leave fun memory' hle _ _ => ?_
    refine yields_pure (show Lively memory' (Phase.body (.within round s)).values from ?_)
    rw [Phase.values, Search.values]
    exact Lively.mono hs hle

/-- A loop with parts under way. -/
theorem lively_looping (h : Lively memory (phaseValues phases)) :
    LiveSearch memory (.looping header phases) := by
  rw [LiveSearch, Search.values]
  exact h

/-- The last part of a loop is asked. -/
theorem yields_pullPhase (h : Lively memory (phaseValues phases))
    (hStack : Lively memory stack.values) :
    Yields memory LiveMachine (pullPhase header phases stack) := by
  unfold pullPhase
  split
  · exact yields_bind yields_leaveLoop fun _ hle _ _ =>
      yields_pure (lively_drained _ (hStack.mono hle))
  all_goals
    rw [phaseValues, Phase.values, lively_append] at h
    exact yields_pure (lively_pull h.1 (lively_push h.2 hStack))

/-- A part of the loop is started on top of the others. -/
theorem yields_launchPhase (h : Lively memory (phaseValues phases))
    (hStack : Lively memory stack.values) {x : Eval Phase} (hx : Yields memory LivePhase x) :
    Yields memory LiveMachine (do pullPhase header ((← x) :: phases) stack) := by
  refine yields_bind hx fun memory' hle p hp => yields_pullPhase ?_ (hStack.mono hle)
  rw [phaseValues]
  exact lively_append.mpr ⟨hp, h.mono hle⟩

/-- The loop has a result. -/
theorem yields_completeLoop (h : Lively memory (phaseValues phases))
    (hStack : Lively memory stack.values) {completion : Completion}
    (hCompletion : LiveItem .completion memory completion) :
    Yields memory LiveMachine (completeLoop header phases completion stack) := by
  refine yields_bind yields_leaveLoop fun _ hle _ _ => ?_
  exact yields_pure (lively_found (k := .completion) (Lively.mono hCompletion hle)
    (lively_looping (h.mono hle)) (hStack.mono hle))

/-- The body is started, or the loop is over. -/
theorem yields_afterTest (h : Lively memory (phaseValues phases))
    (hStack : Lively memory stack.values) (test : Value) :
    Yields memory LiveMachine (afterTest header phases test stack) := by
  unfold afterTest
  split
  · exact yields_launchPhase h hStack yields_startBody
  · exact yields_completeLoop h hStack lively_completed
  · exact yields_throw _

/-- The next round is begun, or the loop is left. -/
theorem yields_afterBody (h : Lively memory (phaseValues phases))
    (hStack : Lively memory stack.values) {completion : Completion}
    (hCompletion : LiveItem .completion memory completion) :
    Yields memory LiveMachine (afterBody header phases completion stack) := by
  unfold afterBody
  split
  · exact yields_launchPhase h hStack yields_startUpdate
  · exact yields_launchPhase h hStack yields_startUpdate
  · exact yields_completeLoop h hStack lively_completed
  · exact yields_completeLoop h hStack hCompletion

end loops

-- ---------------------------------------------------------------------------
-- The step
-- ---------------------------------------------------------------------------

/-- A search is asked for a result. -/
theorem yields_stepPull {s : Search k} (h : LiveSearch memory s) {stack : Stack k}
    (hStack : Lively memory stack.values) : Yields memory LiveMachine (stepPull s stack) := by
  unfold LiveSearch at h
  cases s with
  | once item =>
    cases item with
    | none => exact yields_pure (lively_drained _ hStack)
    | some item =>
      rw [Search.values] at h
      refine yields_pure (lively_found h ?_ hStack)
      show Lively memory (Search.once none).values
      simp
  -- the values of a search are split between the search pulled and the one waiting for it
  | map f inner | bind f outer =>
    rw [Search.values, lively_append] at h
    exact yields_pure (lively_pull h.2 (lively_push h.1 hStack))
  | binding f outer inner =>
    rw [Search.values, lively_append] at h
    exact yields_pure (lively_pull h.2 (lively_push h.1 hStack))
  | within frame inner =>
    rw [Search.values] at h
    exact yields_bind (yields_enter frame) fun _ hle _ _ =>
      yields_pure (lively_pull (h.mono hle) (lively_push lively_nil (hStack.mono hle)))
  | choice alternatives =>
    exact yields_bind yields_checkpoint fun _ hle _ _ =>
      yields_nextAlternative _ _ (hStack.mono hle)
  | choosing start current alternatives =>
    cases current with
    | none => exact yields_nextAlternative start alternatives hStack
    | some s =>
      rw [Search.values] at h
      exact yields_pure (lively_pull h (lively_push lively_nil hStack))
  | product exprs => exact yields_startProduct exprs hStack
  | producing operands values =>
    rw [Search.values, lively_append] at h
    exact yields_pure (lively_pullOperand h.1 h.2 hStack)
  | sequence statements => exact yields_startSequence statements hStack
  | sequenced reached commit =>
    rw [Search.values] at h
    exact yields_pure (lively_pullStatement h commit hStack)
  | loop header =>
    refine yields_bind yields_enterLoop fun _ hle _ _ => ?_
    refine yields_launchPhase ?_ (hStack.mono hle) yields_startLoop
    rw [phaseValues]
    exact lively_nil
  | looping header phases =>
    rw [Search.values] at h
    exact yields_bind yields_enterLoop fun _ hle _ _ =>
      yields_pullPhase (h.mono hle) (hStack.mono hle)

/-- A part of a loop is kept or dropped. -/
theorem lively_keep (dropped : Bool) {p : Phase} (hp : Lively memory p.values)
    {below : List Phase} (h : Lively memory (phaseValues below)) :
    Lively memory (phaseValues (keep dropped p below)) := by
  cases dropped with
  | true => exact h
  | false =>
    show Lively memory (phaseValues (p :: below))
    rw [phaseValues]
    exact lively_append.mpr ⟨hp, h⟩

/-- Whatever waits for a result goes on with it. -/
theorem yields_stepFound {item : i.Item} (hItem : LiveItem i memory item) {rest : Search i}
    (hRest : LiveSearch memory rest) {p : Pending i o} (hp : Lively memory p.values)
    {stack : Stack o} (hStack : Lively memory stack.values) :
    Yields memory LiveMachine (stepFound retire item rest p stack) := by
  cases p with
  | map f =>
    refine yields_bind (Mapping.yields_apply hp hItem) fun memory' hle _ hResult => ?_
    refine yields_pure (lively_found hResult ?_ (hStack.mono hle))
    rw [LiveSearch, Search.values]
    exact lively_append.mpr ⟨hp.mono hle, Lively.mono hRest hle⟩
  | outer f =>
    refine yields_bind (Expansion.yields_apply hp hItem) fun _ hle _ hNext => ?_
    exact yields_pure (lively_pull hNext
      (lively_push (lively_append.mpr ⟨hp.mono hle, Lively.mono hRest hle⟩) (hStack.mono hle)))
  -- an exhausted search takes its values with it
  | inner f outer =>
    refine yields_pure (lively_found hItem ?_ hStack)
    split
    · rw [LiveSearch, Search.values]
      exact hp
    · rw [LiveSearch, Search.values]
      exact lively_append.mpr ⟨hp, hRest⟩
  | within frame =>
    refine yields_bind yields_leave fun memory' hle _ _ => ?_
    refine yields_pure (lively_found (Lively.mono hItem hle) ?_ (hStack.mono hle))
    rw [LiveSearch, Search.values]
    exact Lively.mono hRest hle
  | choosing start alternatives =>
    refine yields_pure (lively_found (k := .value) hItem ?_ hStack)
    rw [LiveSearch, Search.values]
    exact hRest
  | operand exprs below values =>
    obtain ⟨hBelow, hValues⟩ := lively_append.mp hp
    exact yields_fillOperand exprs hRest hBelow hValues (lively_cons.mp hItem).1 hStack
  | statement index stmts below commit =>
    refine yields_completeStatement index stmts hItem ?_ commit hStack
    unfold keep
    split
    · exact hp
    · rw [reachedValues]
      exact lively_append.mpr ⟨hRest, hp⟩
  | init header below | update header below =>
    refine yields_launchPhase (lively_keep _ ?_ hp) hStack yields_startTest
    rw [Phase.values]
    exact hRest
  | test header below =>
    refine yields_afterTest (lively_keep _ ?_ hp) hStack item
    rw [Phase.values]
    exact hRest
  | body header below =>
    refine yields_afterBody (lively_keep _ ?_ hp) hStack hItem
    rw [Phase.values]
    exact hRest

/-- A search has no more results. -/
theorem yields_stepDrained (rest : Search i) {p : Pending i o} (hp : Lively memory p.values)
    {stack : Stack o} (hStack : Lively memory stack.values) :
    Yields memory LiveMachine (stepDrained rest p stack) := by
  cases p with
  | map f | outer f => exact yields_pure (lively_drained _ hStack)
  | inner f outer =>
    obtain ⟨hf, hOuter⟩ := lively_append.mp hp
    exact yields_pure (lively_pull hOuter (lively_push hf hStack))
  | within frame =>
    exact yields_bind yields_leave fun _ hle _ _ => yields_pure (lively_drained _ (hStack.mono hle))
  | choosing start alternatives =>
    exact yields_bind (yields_restore start) fun _ hle _ _ =>
      yields_nextAlternative start alternatives (hStack.mono hle)
  | operand exprs below values =>
    obtain ⟨hBelow, hValues⟩ := lively_append.mp hp
    exact yields_pure (lively_pullOperand hBelow
      (fun v hv => hValues v (List.mem_of_mem_tail hv)) hStack)
  | statement index stmts below commit => exact yields_pure (lively_pullStatement hp commit hStack)
  | init header below | test header below | body header below | update header below =>
    exact yields_pullPhase hp hStack

/-- A step goes from live values to live values. -/
theorem yields_step {m : Machine} (h : LiveMachine memory m) :
    Yields memory LiveMachine (m.step retire) := by
  obtain ⟨k, walk, stack⟩ := m
  obtain ⟨hWalk, hStack⟩ := lively_append.mp h
  cases walk with
  | pull s => exact yields_stepPull hWalk hStack
  | found item rest =>
    obtain ⟨hItem, hRest⟩ := lively_append.mp hWalk
    cases stack with
    | nil => exact yields_pure h
    | push p below =>
      obtain ⟨hp, hBelow⟩ := lively_append.mp hStack
      exact yields_stepFound hItem hRest hp hBelow
  | drained rest =>
    cases stack with
    | nil => exact yields_pure h
    | push p below =>
      obtain ⟨hp, hBelow⟩ := lively_append.mp hStack
      exact yields_stepDrained rest hp hBelow

/-- The value that a walk ends with is live, and so is what is left of the search. -/
theorem lively_of_finished {m : Machine} (h : LiveMachine memory m) {v : Value}
    {rest : Search .value} (hFinished : m.finished? = some (some v, rest)) :
    v.LivesIn memory ∧ LiveSearch memory rest := by
  unfold finished? at hFinished
  split at hFinished
  · cases hFinished
    obtain ⟨hWalk, -⟩ := lively_append.mp h
    obtain ⟨hItem, hRest⟩ := lively_append.mp hWalk
    exact ⟨(lively_cons.mp hItem).1, hRest⟩
  · cases hFinished
  · cases hFinished

end Machine

end AmbScript
