import AmbScript.Primitive.Call
import AmbScript.Value.Operators
import Mathlib.Data.List.Forall2
import Mathlib.Order.Basic

/-!
# Renamings

Frames and cells are known by numbers, and which number a new one gets depends on all that was
evaluated before. Two evaluations of a program in which different things came before make
different numbers, but these correspond to each other one by one.

* `Renaming` — which frames and cells correspond.
* `Value.Alike` — two values are the same up to the names of frames and cells in them.
* `Value.Alike.render_eq`, `Value.Alike.strictEquals_eq`, `Value.Alike.structuralEquals_eq` —
  nothing that a program can find out about a value depends on these names.

Correspondence is one to one in both directions, which is what makes comparisons by identity come
out the same. A renaming grows when something is made on both sides, and what was alike stays alike
in a larger one.
-/

namespace AmbScript

/-- Numbers that correspond to each other one by one. -/
structure Pairing where
  Pairs : Nat → Nat → Prop
  right_unique {i j j' : Nat} (h : Pairs i j) (h' : Pairs i j') : j = j'
  left_unique {i i' j : Nat} (h : Pairs i j) (h' : Pairs i' j) : i = i'

namespace Pairing

/-- One more pair, of numbers that had no partners. -/
def insert (p : Pairing) (i j : Nat) (hLeft : ∀ j', ¬ p.Pairs i j') (hRight : ∀ i', ¬ p.Pairs i' j) :
    Pairing where
  Pairs i' j' := p.Pairs i' j' ∨ i' = i ∧ j' = j
  right_unique := by
    rintro a b b' (h | ⟨ha, hb⟩) (h' | ⟨ha', hb'⟩)
    · exact p.right_unique h h'
    · exact absurd (ha' ▸ h) (hLeft _)
    · exact absurd (ha ▸ h') (hLeft _)
    · exact hb.trans hb'.symm
  left_unique := by
    rintro a a' b (h | ⟨ha, hb⟩) (h' | ⟨ha', hb'⟩)
    · exact p.left_unique h h'
    · exact absurd (hb' ▸ h) (hRight _)
    · exact absurd (hb ▸ h') (hRight _)
    · exact ha.trans ha'.symm

/-- Two numbers are equal just if their partners are. -/
theorem eq_iff {p : Pairing} {i i' j j' : Nat} (h : p.Pairs i j) (h' : p.Pairs i' j') :
    i = i' ↔ j = j' := by
  constructor
  · rintro rfl
    exact p.right_unique h h'
  · rintro rfl
    exact p.left_unique h h'

end Pairing

/-- Which frames and which cells of two evaluations correspond. -/
structure Renaming where
  frames : Pairing
  cells : Pairing

namespace Renaming

instance : Preorder Renaming where
  le w w' := (∀ i j, w.frames.Pairs i j → w'.frames.Pairs i j) ∧
    ∀ i j, w.cells.Pairs i j → w'.cells.Pairs i j
  le_refl _ := ⟨fun _ _ h => h, fun _ _ h => h⟩
  le_trans _ _ _ h h' :=
    ⟨fun _ _ hPairs => h'.1 _ _ (h.1 _ _ hPairs), fun _ _ hPairs => h'.2 _ _ (h.2 _ _ hPairs)⟩

variable {w w' : Renaming}

/-- Frames that correspond go on doing so. -/
theorem frames_of_le (h : w ≤ w') {f g : FrameId} (hPairs : w.frames.Pairs f g) :
    w'.frames.Pairs f g := h.1 _ _ hPairs

theorem cells_of_le (h : w ≤ w') {i j : CellId} (hPairs : w.cells.Pairs i j) :
    w'.cells.Pairs i j := h.2 _ _ hPairs

end Renaming

-- ---------------------------------------------------------------------------
-- Values
-- ---------------------------------------------------------------------------

mutual

/-- The same value, up to the names of frames and cells. -/
inductive Value.Alike (w : Renaming) : Value → Value → Prop
  | undefined : Value.Alike w .undefined .undefined
  | null : Value.Alike w .null .null
  | bool (b : Bool) : Value.Alike w (.bool b) (.bool b)
  | number (x : Float) : Value.Alike w (.number x) (.number x)
  | string (s : String) : Value.Alike w (.string s) (.string s)
  | pair {i j : CellId} {a a' b b' : Value} (hCell : w.cells.Pairs i j)
      (hHead : Value.Alike w a a') (hTail : Value.Alike w b b') :
      Value.Alike w (.pair i a b) (.pair j a' b')
  | array {i j : CellId} {vs vs' : List Value} (hCell : w.cells.Pairs i j)
      (hItems : ItemsAlike w vs vs') : Value.Alike w (.array i vs) (.array j vs')
  | closure {i j : CellId} {f g : FrameId} (function : Function) (hCell : w.cells.Pairs i j)
      (hFrame : w.frames.Pairs f g) : Value.Alike w (.closure i function f) (.closure j function g)
  | primitive (p : Primitive) : Value.Alike w (.primitive p) (.primitive p)

/-- The same values one by one. -/
inductive ItemsAlike (w : Renaming) : List Value → List Value → Prop
  | nil : ItemsAlike w [] []
  | cons {v v' : Value} {vs vs' : List Value} (hHead : Value.Alike w v v')
      (hTail : ItemsAlike w vs vs') : ItemsAlike w (v :: vs) (v' :: vs')

end

namespace Value

variable {w w' : Renaming} {v v' : Value} {vs vs' : List Value}

mutual

/-- Values that are alike stay so when more frames and cells correspond. -/
theorem Alike.mono (hle : w ≤ w') : ∀ {v v' : Value}, v.Alike w v' → v.Alike w' v'
  | _, _, .undefined => .undefined
  | _, _, .null => .null
  | _, _, .bool b => .bool b
  | _, _, .number x => .number x
  | _, _, .string s => .string s
  | _, _, .pair hCell hHead hTail =>
    .pair (Renaming.cells_of_le hle hCell) (hHead.mono hle) (hTail.mono hle)
  | _, _, .array hCell hItems => .array (Renaming.cells_of_le hle hCell) (itemsAlike_mono hle hItems)
  | _, _, .closure f hCell hFrame =>
    .closure f (Renaming.cells_of_le hle hCell) (Renaming.frames_of_le hle hFrame)
  | _, _, .primitive p => .primitive p

theorem itemsAlike_mono (hle : w ≤ w') : ∀ {vs vs' : List Value}, ItemsAlike w vs vs' →
    ItemsAlike w' vs vs'
  | _, _, .nil => .nil
  | _, _, .cons hHead hTail => .cons (hHead.mono hle) (itemsAlike_mono hle hTail)

end

/-- The items are alike one by one. -/
theorem itemsAlike_iff : ItemsAlike w vs vs' ↔ List.Forall₂ (Alike w) vs vs' := by
  constructor
  · intro h
    induction vs generalizing vs' with
    | nil =>
      cases h
      exact .nil
    | cons v vs ih =>
      cases h with
      | cons hHead hTail => exact .cons hHead (ih hTail)
  · intro h
    induction h with
    | nil => exact .nil
    | cons hHead _ ih => exact .cons hHead ih

/-- The kind of a value does not depend on the names in it. -/
theorem Alike.typeName_eq (h : v.Alike w v') : v.typeName = v'.typeName := by
  cases h <;> rfl

mutual

theorem Alike.renderOnto_eq : ∀ {v v' : Value}, v.Alike w v' → ∀ (acc : String) (opened : Nat),
    renderOnto acc opened v = renderOnto acc opened v'
  | _, _, .undefined, _, _ => rfl
  | _, _, .null, _, _ => rfl
  | _, _, .bool _, _, _ => rfl
  | _, _, .number _, _, _ => rfl
  | _, _, .string _, _, _ => rfl
  | _, _, .pair _ hHead hTail, acc, opened => by
    rw [renderOnto, renderOnto, hHead.renderOnto_eq, hTail.renderOnto_eq]
  | _, _, .array _ hItems, acc, opened => by
    rw [renderOnto, renderOnto, renderItems_eq hItems]
  | _, _, .closure _ _ _, acc, opened => by rw [renderOnto, renderOnto]
  | _, _, .primitive _, _, _ => rfl

theorem renderItems_eq : ∀ {vs vs' : List Value}, ItemsAlike w vs vs' →
    ∀ (acc : String) (room : Nat), renderItems acc room vs = renderItems acc room vs'
  | _, _, .nil, _, _ => rfl
  | _, _, .cons hHead hTail, acc, room => by
    cases room with
    | zero => rw [renderItems, renderItems]
    | succ room =>
      rw [renderItems, renderItems, hHead.renderOnto_eq, renderItems_eq hTail]

end

/-- Values are shown without the names of frames and cells. -/
theorem Alike.render_eq (h : v.Alike w v') : v.render = v'.render := h.renderOnto_eq _ _

theorem Alike.messageText_eq (h : v.Alike w v') : v.messageText = v'.messageText := by
  have hRender := h.render_eq
  cases h <;> first | rfl | exact hRender

/-- Cells are compared, and correspond one by one. -/
theorem Alike.strictEquals_eq {u u' : Value} (hu : u.Alike w u') (hv : v.Alike w v') :
    strictEquals u v = strictEquals u' v' := by
  cases hu with
  | pair hCell =>
    cases hv with
    | pair hCell' => simp [strictEquals, Pairing.eq_iff hCell hCell']
    | _ => rfl
  | array hCell =>
    cases hv with
    | array hCell' => simp [strictEquals, Pairing.eq_iff hCell hCell']
    | _ => rfl
  | closure _ hCell =>
    cases hv with
    | closure _ hCell' => simp [strictEquals, Pairing.eq_iff hCell hCell']
    | _ => rfl
  | _ => cases hv <;> rfl

mutual

/-- Nor does structural equality, which compares cells only where it comes to functions. -/
theorem Alike.structuralEquals_eq : ∀ {u u' v v' : Value}, u.Alike w u' → v.Alike w v' →
    structuralEquals u v = structuralEquals u' v'
  | _, _, _, _, .pair hCell hHead hTail, hv => by
    cases hv with
    | pair _ hHead' hTail' =>
      rw [structuralEquals, structuralEquals, hHead.structuralEquals_eq hHead',
        hTail.structuralEquals_eq hTail']
    | _ => simp [structuralEquals, strictEquals]
  | _, _, _, _, .array hCell hItems, hv => by
    cases hv with
    | array _ hItems' => rw [structuralEquals, structuralEquals, itemsEqual_eq hItems hItems']
    | _ => simp [structuralEquals, strictEquals]
  | _, _, _, _, .closure f hCell hFrame, hv => by
    have hStrict := (Alike.closure f hCell hFrame).strictEquals_eq hv
    cases hv <;> simpa [structuralEquals] using hStrict
  | _, _, _, _, .undefined, hv => by cases hv <;> simp [structuralEquals, strictEquals]
  | _, _, _, _, .null, hv => by cases hv <;> simp [structuralEquals, strictEquals]
  | _, _, _, _, .bool _, hv => by cases hv <;> simp [structuralEquals, strictEquals]
  | _, _, _, _, .number _, hv => by cases hv <;> simp [structuralEquals, strictEquals]
  | _, _, _, _, .string _, hv => by cases hv <;> simp [structuralEquals, strictEquals]
  | _, _, _, _, .primitive _, hv => by cases hv <;> simp [structuralEquals, strictEquals]

theorem itemsEqual_eq : ∀ {us us' vs vs' : List Value}, ItemsAlike w us us' →
    ItemsAlike w vs vs' → itemsEqual us vs = itemsEqual us' vs'
  | _, _, _, _, .nil, hv => by cases hv <;> simp [itemsEqual]
  | _, _, _, _, .cons hHead hTail, hv => by
    cases hv with
    | nil => simp [itemsEqual]
    | cons hHead' hTail' =>
      rw [itemsEqual, itemsEqual, hHead.structuralEquals_eq hHead', itemsEqual_eq hTail hTail']

end

-- ---------------------------------------------------------------------------
-- Operators
-- ---------------------------------------------------------------------------

/-- The same error, or values that are alike. -/
inductive ResultAlike (w : Renaming) {ε : Type} : Except ε Value → Except ε Value → Prop
  | error (e : ε) : ResultAlike w (.error e) (.error e)
  | ok {v v' : Value} (h : v.Alike w v') : ResultAlike w (.ok v) (.ok v')

/-- The same result, if its value has no names in it. -/
theorem resultAlike_of_eq {ε : Type} {x x' : Except ε Value} (hEq : x = x')
    (hPlain : ∀ v, x = .ok v → v.Alike w v) : ResultAlike w x x' := by
  subst hEq
  cases x with
  | error e => exact .error e
  | ok v => exact .ok (hPlain v rfl)

/-- A prefix operator has the same result. -/
theorem Alike.unary (op : UnaryOp) (h : v.Alike w v') (span : Span) :
    ResultAlike w (v.unary op span) (v'.unary op span) := by
  cases op with
  | negate =>
    cases h with
    | number x => exact .ok (.number _)
    | _ => exact .error _
  | not =>
    cases h with
    | bool b => exact .ok (.bool _)
    | _ => exact .error _

/-- Two operands are of one kind on both sides, or on neither. -/
theorem matched_eq {l l' r r' : Value} (hl : l.Alike w l') (hr : r.Alike w r') (span : Span) :
    matched l r span = matched l' r' span := by
  cases hl <;> cases hr <;> rfl

/-- The same numbers are found in operands that are alike. -/
theorem numbers_eq {l l' r r' : Value} (hl : l.Alike w l') (hr : r.Alike w r') (span : Span) :
    numbers l r span = numbers l' r' span := by
  cases hl <;> cases hr <;> rfl

/-- A number that is computed has no names in it. -/
theorem alike_of_arithmetic {f : Float → Float → Float} {l r u : Value} {span : Span}
    (h : arithmetic f l r span = .ok u) : u.Alike w u := by
  unfold arithmetic at h
  cases hNumbers : numbers l r span with
  | error t =>
    rw [hNumbers] at h
    cases h
  | ok xs =>
    rw [hNumbers] at h
    cases h
    exact .number _

theorem alike_of_comparison {onNumbers : Float → Float → Bool} {onStrings : String → String → Bool}
    {l r u : Value} {span : Span} (h : comparison onNumbers onStrings l r span = .ok u) :
    u.Alike w u := by
  unfold comparison at h
  cases hMatched : matched l r span with
  | error t =>
    rw [hMatched] at h
    cases h
  | ok m =>
    rw [hMatched] at h
    cases m <;> cases h <;> exact .bool _

/-- A sum is alike to itself, be it of numbers or of texts. -/
theorem alike_of_add {l r u : Value} {span : Span} (h : add l r span = .ok u) : u.Alike w u := by
  unfold add at h
  cases hMatched : matched l r span with
  | error t =>
    rw [hMatched] at h
    cases h
  | ok m =>
    rw [hMatched] at h
    cases m <;> cases h
    · exact .number _
    · exact .string _

/-- Operators make no cells, so their values are the same. -/
theorem alike_of_binary {op : BinaryOp} {l r u : Value} {span : Span}
    (h : binary op l r span = .ok u) : u.Alike w u := by
  cases op with
  | equal =>
    cases h
    exact .bool _
  | notEqual =>
    cases h
    exact .bool _
  | add => exact alike_of_add h
  | less => exact alike_of_comparison h
  | greater => exact alike_of_comparison h
  | lessEqual => exact alike_of_comparison h
  | greaterEqual => exact alike_of_comparison h
  | _ => exact alike_of_arithmetic h

/-- The fault or the value that an operator comes to is the same. -/
theorem Alike.binary_eq (op : BinaryOp) {l l' r r' : Value} (hl : l.Alike w l')
    (hr : r.Alike w r') (span : Span) : binary op l r span = binary op l' r' span := by
  unfold binary
  simp only [hl.strictEquals_eq hr, add, arithmetic, comparison, matched_eq hl hr, numbers_eq hl hr]

/-- So an operator has the same result. -/
theorem Alike.binary (op : BinaryOp) {l l' r r' : Value} (hl : l.Alike w l') (hr : r.Alike w r')
    (span : Span) : ResultAlike w (binary op l r span) (binary op l' r' span) := by
  refine resultAlike_of_eq (hl.binary_eq op hr span) fun _ h => ?_
  exact alike_of_binary h

/-- Both sides have items, or neither. -/
theorem Alike.items?_cases (h : v.Alike w v') :
    v.items? = none ∧ v'.items? = none ∨
      ∃ vs vs' kind, v.items? = some (vs, kind) ∧ v'.items? = some (vs', kind) ∧
        List.Forall₂ (Alike w) vs vs' := by
  cases h with
  | pair _ hHead hTail => exact .inr ⟨_, _, _, rfl, rfl, .cons hHead (.cons hTail .nil)⟩
  | array _ hItems => exact .inr ⟨_, _, _, rfl, rfl, itemsAlike_iff.mp hItems⟩
  | _ => exact .inl ⟨rfl, rfl⟩

/-- Items at the same place are alike, or there is none on either side. -/
theorem getElem?_alike (h : List.Forall₂ (Alike w) vs vs') (n : Nat) :
    vs[n]? = none ∧ vs'[n]? = none ∨
      ∃ u u', vs[n]? = some u ∧ vs'[n]? = some u' ∧ u.Alike w u' := by
  induction h generalizing n with
  | nil => exact .inl ⟨rfl, rfl⟩
  | cons hHead _ ih =>
    cases n with
    | zero => exact .inr ⟨_, _, rfl, rfl, hHead⟩
    | succ n => simpa using ih n

/-- What is read from arrays that are alike at the same place is alike. -/
theorem Alike.index (h : v.Alike w v') {k k' : Value} (hk : k.Alike w k') (span : Span) :
    ResultAlike w (v.index k span) (v'.index k' span) := by
  unfold Value.index
  rcases h.items?_cases with ⟨hNone, hNone'⟩ | ⟨vs, vs', kind, hSome, hSome', hItems⟩
  · rw [hNone, hNone', hk.render_eq, h.typeName_eq]
    exact .error _
  -- items in the same number, so an index is inside both or outside both
  · rw [hSome, hSome']
    cases hk with
    | number x =>
      dsimp only
      cases natural? x with
      | none =>
        rw [hItems.length_eq]
        exact .error _
      | some n =>
        rcases getElem?_alike hItems n with ⟨hNone, hNone'⟩ | ⟨u, u', hItem, hItem', hu⟩
        · simp only [Option.bind_eq_bind, Option.bind_some, hNone, hNone', hItems.length_eq]
          exact .error _
        · simp only [Option.bind_eq_bind, Option.bind_some, hItem, hItem']
          exact .ok hu
    | _ => exact .error _

end Value

end AmbScript
