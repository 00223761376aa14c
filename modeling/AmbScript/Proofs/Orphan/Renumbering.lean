import AmbScript.Machine.Step
import AmbScript.Proofs.Listing.Actions

/-!
# One more frame

A frame that nothing refers to makes no difference but that all later frames have other numbers.
Here is how what evaluation works with is renumbered when there is one more frame, with the number
`k`; cells keep their numbers.

* `past` — the number of a frame.
* `Value.renumber`, `Search.renumber`, `Machine.renumber` — values, searches and machines.
* `Value.alike_renumber` — values are the same up to the names of frames, so nothing that a program
  can find out about them changes; `Value.Alike.eq_renumber` is the converse.
* `Search.isExhausted_renumber` — nor does what is known of a search.

To renumber is a function and not a relation, so that the second run can be computed from the first
one. Where a lemma about values that are alike already exists, `alike_renumber` and `eq_renumber`
carry it over.
-/

namespace AmbScript

variable {k : FrameId}

-- ---------------------------------------------------------------------------
-- Frames
-- ---------------------------------------------------------------------------

/-- The number that a frame has when there is one more frame, with the number `k`. -/
def past (k f : Nat) : Nat := if f < k then f else f + 1

/-- Older frames keep their numbers. -/
theorem past_of_lt {k f : Nat} (h : f < k) : past k f = f := if_pos h

/-- Later frames are one further on. -/
theorem past_of_le {k f : Nat} (h : k ≤ f) : past k f = f + 1 := if_neg (Nat.not_lt.mpr h)

/-- The order of frames is kept. -/
theorem past_lt_past {k f g : Nat} : past k f < past k g ↔ f < g := by
  unfold past
  split <;> split <;> omega

/-- No two frames get the same number. -/
theorem past_inj {k f g : Nat} : past k f = past k g ↔ f = g := by
  unfold past
  split <;> split <;> omega

theorem past_max (k f g : Nat) : past k (max f g) = max (past k f) (past k g) := by
  unfold past
  split <;> split <;> split <;> omega

/-- Frames correspond to those with their new numbers, and cells to themselves. -/
def Renaming.past (k : FrameId) : Renaming where
  frames := {
    Pairs f g := g = AmbScript.past k f
    right_unique h h' := h.trans h'.symm
    left_unique h h' := past_inj.mp (h.symm.trans h') }
  cells := {
    Pairs i j := j = i
    right_unique h h' := h.trans h'.symm
    left_unique h h' := h.symm.trans h' }

-- ---------------------------------------------------------------------------
-- Values
-- ---------------------------------------------------------------------------

mutual

/-- The value with the numbers that frames have when there is one more. -/
def Value.renumber (k : FrameId) : Value → Value
  | .undefined => .undefined
  | .null => .null
  | .bool b => .bool b
  | .number x => .number x
  | .string s => .string s
  | .pair cell head tail => .pair cell (head.renumber k) (tail.renumber k)
  | .array cell items => .array cell (renumberItems k items)
  | .closure cell f frame => .closure cell f (past k frame)
  | .primitive p => .primitive p

/-- The items of an array, one by one. -/
def renumberItems (k : FrameId) : List Value → List Value
  | [] => []
  | v :: vs => v.renumber k :: renumberItems k vs

end

namespace Value

theorem renumberItems_eq_map (vs : List Value) : renumberItems k vs = vs.map (renumber k) := by
  induction vs with
  | nil => rfl
  | cons v vs ih => rw [renumberItems, ih, List.map_cons]

mutual

/-- A value is the same, up to the names of frames. -/
theorem alike_renumber : ∀ v : Value, v.Alike (.past k) (v.renumber k)
  | .undefined => .undefined
  | .null => .null
  | .bool b => .bool b
  | .number x => .number x
  | .string s => .string s
  | .pair _ head tail => .pair rfl head.alike_renumber tail.alike_renumber
  | .array _ items => .array rfl (itemsAlike_renumber items)
  | .closure _ f _ => .closure f rfl rfl
  | .primitive p => .primitive p

theorem itemsAlike_renumber : ∀ vs : List Value, ItemsAlike (.past k) vs (renumberItems k vs)
  | [] => .nil
  | v :: vs => .cons v.alike_renumber (itemsAlike_renumber vs)

end

theorem forall₂_renumber (vs : List Value) :
    List.Forall₂ (Alike (.past k)) vs (vs.map (renumber k)) := by
  rw [← renumberItems_eq_map]
  exact itemsAlike_iff.mp (itemsAlike_renumber vs)

mutual

/-- A value that is the same up to the names of frames is the renumbered one, as each frame has just
one new number. -/
theorem Alike.eq_renumber : ∀ {v v' : Value}, v.Alike (.past k) v' → v' = v.renumber k
  | _, _, .undefined => rfl
  | _, _, .null => rfl
  | _, _, .bool _ => rfl
  | _, _, .number _ => rfl
  | _, _, .string _ => rfl
  | _, _, .pair hCell hHead hTail => by
    rw [renumber, ← hHead.eq_renumber, ← hTail.eq_renumber, hCell]
  | _, _, .array hCell hItems => by rw [renumber, ← itemsAlike_eq_renumber hItems, hCell]
  | _, _, .closure _ hCell hFrame => by rw [renumber, hCell, hFrame]
  | _, _, .primitive _ => rfl

theorem itemsAlike_eq_renumber : ∀ {vs vs' : List Value}, ItemsAlike (.past k) vs vs' →
    vs' = renumberItems k vs
  | _, _, .nil => rfl
  | _, _, .cons hHead hTail => by
    rw [renumberItems, ← hHead.eq_renumber, ← itemsAlike_eq_renumber hTail]

end

/-- Numbers of frames are not displayed. -/
@[simp] theorem render_renumber (v : Value) : (v.renumber k).render = v.render :=
  v.alike_renumber.render_eq.symm

@[simp] theorem typeName_renumber (v : Value) : (v.renumber k).typeName = v.typeName :=
  v.alike_renumber.typeName_eq.symm

mutual

/-- Values that only refer to older frames keep all numbers. -/
theorem Alike.renumber_eq_self {w : Renaming} (hOld : ∀ f g, w.frames.Pairs f g → f < k) :
    ∀ {v v' : Value}, v.Alike w v' → v.renumber k = v
  | _, _, .undefined => rfl
  | _, _, .null => rfl
  | _, _, .bool _ => rfl
  | _, _, .number _ => rfl
  | _, _, .string _ => rfl
  | _, _, .pair _ hHead hTail => by
    rw [renumber, hHead.renumber_eq_self hOld, hTail.renumber_eq_self hOld]
  | _, _, .array _ hItems => by rw [renumber, renumberItems_eq_self hOld hItems]
  | _, _, .closure _ _ hFrame => by rw [renumber, past_of_lt (hOld _ _ hFrame)]
  | _, _, .primitive _ => rfl

theorem renumberItems_eq_self {w : Renaming} (hOld : ∀ f g, w.frames.Pairs f g → f < k) :
    ∀ {vs vs' : List Value}, ItemsAlike w vs vs' → renumberItems k vs = vs
  | _, _, .nil => rfl
  | _, _, .cons hHead hTail => by
    rw [renumberItems, hHead.renumber_eq_self hOld, renumberItems_eq_self hOld hTail]

end

/-- Answers that are alike are the same, renumbered. -/
theorem ResultAlike.eq_map {ε : Type} {x y : Except ε Value} (h : ResultAlike (.past k) x y) :
    y = x.map (renumber k) := by
  cases h with
  | error e => rfl
  | ok h => exact congrArg Except.ok h.eq_renumber

end Value

-- ---------------------------------------------------------------------------
-- Bindings
-- ---------------------------------------------------------------------------

/-- A placeholder holds no value. -/
def Slot.renumber (k : FrameId) : Slot → Slot
  | .placeholder => .placeholder
  | .value v => .value (v.renumber k)

/-- The value of a binding is renumbered. -/
def Binding.renumber (k : FrameId) (b : Binding) : Binding := { b with slot := b.slot.renumber k }

/-- The frame around, and all bindings. -/
def Scope.renumber (k : FrameId) (s : Scope) : Scope :=
  { s with
    parent := s.parent.map (past k)
    binding? := fun name => (s.binding? name).map (Binding.renumber k) }

/-- The frame of an entry, and what was there before. -/
def Undo.renumber (k : FrameId) (u : Undo) : Undo :=
  { u with frame := past k u.frame, previous := u.previous.map (Binding.renumber k) }

/-- To set a name and to renumber can be done in any order. -/
theorem Scope.renumber_set (s : Scope) (name : String) (b : Option Binding) :
    (s.set name b).renumber k = (s.renumber k).set name (b.map (Binding.renumber k)) := by
  unfold Scope.set Scope.renumber
  dsimp only
  congr 1
  funext n
  split <;> rfl

-- ---------------------------------------------------------------------------
-- Searches
-- ---------------------------------------------------------------------------

/-- The value of a completion, if it has one. -/
def Completion.renumber (k : FrameId) : Completion → Completion
  | .value v => .value (v.renumber k)
  | .returns v => .returns (v.renumber k)
  | .breakLoop => .breakLoop
  | .continueLoop => .continueLoop

/-- Results of each kind. -/
def Kind.renumber (k : FrameId) : (i : Kind) → i.Item → i.Item
  | .value, v => Value.renumber k v
  | .completion, c => Completion.renumber k c
  | .tuple, vs => vs.map (Value.renumber k)

/-- Only the operands that are already there hold values. -/
def Mapping.renumber (k : FrameId) {i o : Kind} : Mapping i o → Mapping i o
  | .binary op left span => .binary op (left.renumber k) span
  | .index object span => .index (object.renumber k) span
  | f => f

/-- Only a function that waits for its arguments is a value. -/
def Expansion.renumber (k : FrameId) {i o : Kind} : Expansion i o → Expansion i o
  | .arguments function span => .arguments (function.renumber k) span
  | f => f

/-- A loop with a header has a frame of its own. -/
def Loop.renumber (k : FrameId) : Loop → Loop
  | .whileLoop test body => .whileLoop test body
  | .forLoop init test update body frame => .forLoop init test update body (past k frame)

mutual

/-- A search with the numbers that frames have when there is one more. -/
def Search.renumber (k : FrameId) {i : Kind} : Search i → Search i
  | .once item => .once (item.map (i.renumber k))
  | .map f inner => .map (f.renumber k) (inner.renumber k)
  | .bind f outer => .bind (f.renumber k) (outer.renumber k)
  | .binding f outer inner => .binding (f.renumber k) (outer.renumber k) (inner.renumber k)
  | .within frame inner => .within (past k frame) (inner.renumber k)
  | .choice alternatives => .choice alternatives
  | .choosing start none alternatives => .choosing start none alternatives
  | .choosing start (some s) alternatives => .choosing start (some (s.renumber k)) alternatives
  | .product exprs => .product exprs
  | .producing operands values =>
    .producing (renumberOperands k operands) (values.map (Value.renumber k))
  | .sequence statements => .sequence statements
  | .sequenced reached commit => .sequenced (renumberReached k reached) commit
  | .loop header => .loop (header.renumber k)
  | .looping header phases => .looping (header.renumber k) (renumberPhases k phases)

def Operand.renumber (k : FrameId) : Operand → Operand
  | .mk rest s => .mk rest (s.renumber k)

def renumberOperands (k : FrameId) : List Operand → List Operand
  | [] => []
  | o :: os => o.renumber k :: renumberOperands k os

def Reached.renumber (k : FrameId) : Reached → Reached
  | .mk index rest s => .mk index rest (s.renumber k)

def renumberReached (k : FrameId) : List Reached → List Reached
  | [] => []
  | r :: rs => r.renumber k :: renumberReached k rs

def Phase.renumber (k : FrameId) : Phase → Phase
  | .init s => .init (s.renumber k)
  | .test s => .test (s.renumber k)
  | .body s => .body (s.renumber k)
  | .update s => .update (s.renumber k)

def renumberPhases (k : FrameId) : List Phase → List Phase
  | [] => []
  | p :: ps => p.renumber k :: renumberPhases k ps

end

mutual

/-- Whether a search is known to have no more results does not depend on numbers. -/
theorem Search.isExhausted_renumber : ∀ {i : Kind} (s : Search i),
    (s.renumber k).isExhausted = s.isExhausted
  | _, .once item => by cases item <;> rfl
  | _, .map _ inner => inner.isExhausted_renumber
  | _, .bind _ outer => outer.isExhausted_renumber
  | _, .binding .. => rfl
  | _, .within _ inner => inner.isExhausted_renumber
  | _, .choice _ => rfl
  | _, .choosing _ none _ => rfl
  | _, .choosing _ (some _) _ => rfl
  | _, .product _ => rfl
  | _, .producing operands _ => allExhausted_renumber operands
  | _, .sequence _ => rfl
  | _, .sequenced reached _ => by cases reached <;> rfl
  | _, .loop _ => rfl
  | _, .looping _ phases => by cases phases <;> rfl

theorem allExhausted_renumber : ∀ operands : List Operand,
    allExhausted (renumberOperands k operands) = allExhausted operands
  | [] => rfl
  | .mk _ s :: os => congrArg₂ (· && ·) s.isExhausted_renumber (allExhausted_renumber os)

end

-- ---------------------------------------------------------------------------
-- Machines
-- ---------------------------------------------------------------------------

/-- What waits for the results of a search. -/
def Pending.renumber (k : FrameId) {i o : Kind} : Pending i o → Pending i o
  | .map f => .map (f.renumber k)
  | .outer f => .outer (f.renumber k)
  | .inner f s => .inner (f.renumber k) (s.renumber k)
  | .within frame => .within (past k frame)
  | .choosing start alternatives => .choosing start alternatives
  | .operand rest below values =>
    .operand rest (renumberOperands k below) (values.map (Value.renumber k))
  | .statement index rest below commit => .statement index rest (renumberReached k below) commit
  | .init header below => .init (header.renumber k) (renumberPhases k below)
  | .test header below => .test (header.renumber k) (renumberPhases k below)
  | .body header below => .body (header.renumber k) (renumberPhases k below)
  | .update header below => .update (header.renumber k) (renumberPhases k below)

def Stack.renumber (k : FrameId) {i : Kind} : Stack i → Stack i
  | .nil => .nil
  | .push p below => .push (p.renumber k) (below.renumber k)

def Walk.renumber (k : FrameId) {i : Kind} : Walk i → Walk i
  | .pull s => .pull (s.renumber k)
  | .found item rest => .found (i.renumber k item) (rest.renumber k)
  | .drained rest => .drained (rest.renumber k)

namespace Machine

/-- The machine with the numbers that frames have when there is one more. -/
def renumber (k : FrameId) (m : Machine) : Machine :=
  ⟨m.kind, m.walk.renumber k, m.stack.renumber k⟩

/-- A machine is finished just if the renumbered one is. -/
theorem finished?_renumber (m : Machine) :
    (m.renumber k).finished? =
      m.finished?.map fun x => (x.1.map (Value.renumber k), x.2.renumber k) := by
  obtain ⟨i, walk, stack⟩ := m
  cases stack with
  | nil => cases walk <;> rfl
  | push p below => cases walk <;> rfl

end Machine

end AmbScript
