import AmbScript.Proofs.Value.Numbers

/-!
# The laws of equality

Two pairs are equal if their heads and their tails are, two arrays if they have the same length and
equal items, and anything else if it is strictly equal. This is how `structuralEquals` is defined; a
loop that follows the tails, and compares heads and items by calls of its own, comes to the same.

* `Value.Structural` — the plain recursive rules, which `structural_iff` shows to have one solution.
* `Value.rounds` — the loop, of which `rounds_iff` shows the same.
* `Value.ReachesNaN`, `Value.structuralEquals_self_iff` — which values are equal to themselves.
* `Value.LivesIn`, `Value.structuralEquals_of_strictEquals` — values in one memory, for which strict
  equality is the narrower one.

Most proofs are by induction on the left value, with the right one left open: if both are pairs, or
both are arrays, their parts are compared, and otherwise strict equality decides. `pair_or_unlike`
and `array_or_unlike` make this case split.
-/

namespace AmbScript.Value

-- ---------------------------------------------------------------------------
-- The shape of values
-- ---------------------------------------------------------------------------

/-- Neither a pair nor an array. -/
def isLeaf : Value → Bool
  | pair .. | array .. => false
  | _ => true

/-- Values are pairs, arrays and leaves. -/
theorem induct {motive : Value → Prop}
    (pair : ∀ cell head tail, motive head → motive tail → motive (.pair cell head tail))
    (array : ∀ cell items, (∀ v ∈ items, motive v) → motive (.array cell items))
    (leaf : ∀ v, v.isLeaf = true → motive v) : ∀ v, motive v
  | .pair cell head tail =>
    pair cell head tail (induct pair array leaf head) (induct pair array leaf tail)
  | .array cell items => by
    refine array cell items fun v _ => ?_
    exact induct pair array leaf v
  | .undefined | .null | .bool _ | .number _ | .string _ | .closure .. | .primitive _ =>
    leaf _ rfl

/-- Two pairs are compared by their heads and their tails, whatever cells they are in. -/
theorem structuralEquals_pair (cell cell' : CellId) (head tail head' tail' : Value) :
    structuralEquals (pair cell head tail) (pair cell' head' tail') =
      (structuralEquals head head' && structuralEquals tail tail') := by
  rw [structuralEquals]

/-- Items are compared place by place. -/
theorem itemsEqual_eq_all (items items' : List Value) :
    itemsEqual items items' = (items.length == items'.length &&
      (items.zip items').all fun x => structuralEquals x.1 x.2) := by
  induction items generalizing items' with
  | nil => cases items' <;> simp [itemsEqual]
  | cons v vs ih =>
    cases items' with
    | nil => simp [itemsEqual]
    | cons w ws => simp [itemsEqual, ih, Bool.and_left_comm]

/-- Two arrays are compared by their items. -/
theorem structuralEquals_array (cell cell' : CellId) (items items' : List Value) :
    structuralEquals (array cell items) (array cell' items') = (items.length == items'.length &&
      (items.zip items').all fun x => structuralEquals x.1 x.2) := by
  rw [structuralEquals, itemsEqual_eq_all]

/-- Two values that are not both pairs, and not both arrays. -/
def Unlike : Value → Value → Prop
  | pair .., pair .. => False
  | array .., array .. => False
  | _, _ => True

/-- All else is compared strictly. -/
theorem structuralEquals_of_unlike {v w : Value} (h : v.Unlike w) :
    structuralEquals v w = strictEquals v w := by
  cases v <;> cases w <;> first | exact h.elim | simp [structuralEquals]

/-- A leaf is unlike everything. -/
theorem unlike_of_isLeaf {v : Value} (h : v.isLeaf = true) (w : Value) : v.Unlike w := by
  cases v <;> first | exact absurd h Bool.false_ne_true | (cases w <;> exact True.intro)

/-- What a pair is compared with is a pair, or unlike. -/
theorem pair_or_unlike (cell : CellId) (head tail w : Value) :
    (∃ cell' head' tail', w = pair cell' head' tail') ∨ (pair cell head tail).Unlike w := by
  cases w with
  | pair cell' head' tail' => exact .inl ⟨cell', head', tail', rfl⟩
  | _ => exact .inr True.intro

/-- What an array is compared with is an array, or unlike. -/
theorem array_or_unlike (cell : CellId) (items : List Value) (w : Value) :
    (∃ cell' items', w = array cell' items') ∨ (array cell items).Unlike w := by
  cases w with
  | array cell' items' => exact .inl ⟨cell', items', rfl⟩
  | _ => exact .inr True.intro

/-- It does not matter which of the two comes first. -/
theorem Unlike.symm {v w : Value} (h : v.Unlike w) : w.Unlike v := by
  cases v <;> cases w <;> exact h

-- ---------------------------------------------------------------------------
-- The plain rules
-- ---------------------------------------------------------------------------

/-- The rules of structural equality. -/
structure Structural (equal : Value → Value → Bool) : Prop where
  pairs (cell cell' : CellId) (head tail head' tail' : Value) :
    equal (pair cell head tail) (pair cell' head' tail') = (equal head head' && equal tail tail')
  arrays (cell cell' : CellId) (items items' : List Value) :
    equal (array cell items) (array cell' items') = (items.length == items'.length &&
      (items.zip items').all fun x => equal x.1 x.2)
  others {v w : Value} (h : v.Unlike w) : equal v w = strictEquals v w

/-- Structural equality follows the plain rules. -/
theorem structural_structuralEquals : Structural structuralEquals :=
  ⟨structuralEquals_pair, structuralEquals_array, structuralEquals_of_unlike⟩

/-- The rules leave nothing open. -/
theorem Structural.eq {equal : Value → Value → Bool} (h : Structural equal) (v w : Value) :
    equal v w = structuralEquals v w := by
  induction v using induct generalizing w with
  | pair cell head tail ihHead ihTail =>
    obtain ⟨cell', head', tail', rfl⟩ | hUnlike := pair_or_unlike cell head tail w
    · rw [h.pairs, structuralEquals_pair, ihHead, ihTail]
    · rw [h.others hUnlike, structuralEquals_of_unlike hUnlike]
  | array cell items ih =>
    obtain ⟨cell', items', rfl⟩ | hUnlike := array_or_unlike cell items w
    · rw [h.arrays, structuralEquals_array]
      refine congrArg _ (Bool.eq_iff_iff.mpr ?_)
      rw [List.all_eq_true, List.all_eq_true]
      -- the hypothesis of the induction is about items of the left array, of which the zipped ones
      -- are some
      have hItems (x : Value × Value) (hx : x ∈ items.zip items') :
          equal x.1 x.2 = structuralEquals x.1 x.2 := ih x.1 (List.of_mem_zip hx).1 x.2
      exact ⟨fun hAll x hx => hItems x hx ▸ hAll x hx, fun hAll x hx => hItems x hx ▸ hAll x hx⟩
    · rw [h.others hUnlike, structuralEquals_of_unlike hUnlike]
  | leaf v hLeaf =>
    have hUnlike := unlike_of_isLeaf hLeaf w
    rw [h.others hUnlike, structuralEquals_of_unlike hUnlike]

/-- And it is the only relation that does. -/
theorem structural_iff {equal : Value → Value → Bool} :
    Structural equal ↔ equal = structuralEquals := by
  constructor
  · intro h
    funext v w
    exact h.eq v w
  · rintro rfl
    exact structural_structuralEquals

-- ---------------------------------------------------------------------------
-- The loop
-- ---------------------------------------------------------------------------

/-- What a round of the loop comes to: an answer, or the tails that are compared in the next round.
Heads and items are compared by `equal`. -/
def round (equal : Value → Value → Bool) : Value → Value → Bool ⊕ (Value × Value)
  | pair _ head tail, pair _ head' tail' =>
    if !equal head head' then .inl false else .inr (tail, tail')
  | array _ items, array _ items' =>
    .inl (items.length == items'.length && (items.zip items').all fun x => equal x.1 x.2)
  | v, w => .inl (strictEquals v w)

/-- The answer of the loop, if it comes to one in so many rounds. -/
def rounds (equal : Value → Value → Bool) : Nat → Value → Value → Option Bool
  | 0, _, _ => none
  | n + 1, v, w =>
    match round equal v w with
    | .inl answer => some answer
    | .inr (v, w) => rounds equal n v w

/-- For unlike values the first round is the last one. -/
theorem round_of_unlike {equal : Value → Value → Bool} {v w : Value} (h : v.Unlike w) :
    round equal v w = .inl (strictEquals v w) := by
  cases v <;> cases w <;> first | exact h.elim | rfl

/-- The number of rounds does not matter once there is an answer. -/
theorem rounds_unique {equal : Value → Value → Bool} {n m : Nat} {v w : Value} {a b : Bool}
    (ha : rounds equal n v w = some a) (hb : rounds equal m v w = some b) : a = b := by
  induction n generalizing m v w with
  | zero => cases ha
  | succ n ih =>
    cases m with
    | zero => cases hb
    | succ m =>
      rw [rounds] at ha hb
      split at ha
      · next answer hRound =>
        rw [hRound] at hb
        exact (Option.some.inj ha).symm.trans (Option.some.inj hb)
      · next v' w' hRound =>
        rw [hRound] at hb
        exact ih ha hb

/-- The loop over the tails comes to the end. -/
theorem exists_rounds (v w : Value) :
    ∃ n, rounds structuralEquals n v w = some (structuralEquals v w) := by
  have hOne {v w : Value} (h : v.Unlike w) :
      ∃ n, rounds structuralEquals n v w = some (structuralEquals v w) :=
    ⟨1, by rw [rounds, round_of_unlike h, structuralEquals_of_unlike h]⟩
  induction v using induct generalizing w with
  | pair cell head tail _ ihTail =>
    obtain ⟨cell', head', tail', rfl⟩ | hUnlike := pair_or_unlike cell head tail w
    · obtain ⟨n, hTails⟩ := ihTail tail'
      refine ⟨n + 1, ?_⟩
      rw [rounds, round, structuralEquals_pair]
      cases structuralEquals head head' with
      | false => rfl
      | true => exact hTails
    · exact hOne hUnlike
  | array cell items _ =>
    obtain ⟨cell', items', rfl⟩ | hUnlike := array_or_unlike cell items w
    -- items are compared by calls, so only tails take further rounds
    · exact ⟨1, by rw [rounds, round, structuralEquals_array]⟩
    · exact hOne hUnlike
  | leaf v hLeaf => exact hOne (unlike_of_isLeaf hLeaf w)

/-- A procedure that is this loop and calls itself for heads and items follows the plain rules. -/
theorem structural_of_rounds {equal : Value → Value → Bool}
    (h : ∀ v w, ∃ n, rounds equal n v w = some (equal v w)) : Structural equal where
  pairs cell cell' head tail head' tail' := by
    obtain ⟨n, hRounds⟩ := h (pair cell head tail) (pair cell' head' tail')
    obtain ⟨m, hTails⟩ := h tail tail'
    cases n with
    | zero => cases hRounds
    | succ n =>
      rw [rounds, round] at hRounds
      -- if the heads differ this round decides, and otherwise the rest of the loop is the one for
      -- the tails
      cases hHead : equal head head' with
      | false =>
        rw [hHead] at hRounds
        exact (Option.some.inj hRounds).symm
      | true =>
        rw [hHead] at hRounds
        exact rounds_unique hRounds hTails
  arrays cell cell' items items' := by
    obtain ⟨n, hRounds⟩ := h (array cell items) (array cell' items')
    exact rounds_unique hRounds (n := n) (m := 1) rfl
  others {v w} hUnlike := by
    obtain ⟨n, hRounds⟩ := h v w
    exact rounds_unique hRounds (n := n) (m := 1) (by rw [rounds, round_of_unlike hUnlike])

/-- A procedure is this loop, with calls of itself for heads and items, just if it is structural
equality. -/
theorem rounds_iff {equal : Value → Value → Bool} :
    (∀ v w, ∃ n, rounds equal n v w = some (equal v w)) ↔ equal = structuralEquals := by
  constructor
  · intro h
    exact structural_iff.mp (structural_of_rounds h)
  · rintro rfl
    exact exists_rounds

-- ---------------------------------------------------------------------------
-- Strict equality
-- ---------------------------------------------------------------------------

/-- Strict equality is symmetric: cells are compared, or contents of the same kind. -/
theorem strictEquals_comm (v w : Value) : strictEquals v w = strictEquals w v := by
  cases v <;> cases w <;> first | rfl | exact Binary64.beq_comm _ _ | exact Bool.beq_comm

/-- Strict equality is transitive, since the values in between must be of one kind. -/
theorem strictEquals_trans {u v w : Value} (h : strictEquals u v = true)
    (h' : strictEquals v w = true) : strictEquals u w = true := by
  cases u <;> cases v <;> (try contradiction) <;> cases w <;> first
    | contradiction
    | exact Binary64.beq_trans h h'
    | exact h'
    | exact beq_iff_eq.mpr ((beq_iff_eq.mp h).trans (beq_iff_eq.mp h'))

-- ---------------------------------------------------------------------------
-- Symmetry and transitivity
-- ---------------------------------------------------------------------------

/-- The rule for pairs as a proposition. -/
theorem structuralEquals_pair_iff {cell cell' : CellId} {head tail head' tail' : Value} :
    structuralEquals (pair cell head tail) (pair cell' head' tail') = true ↔
      structuralEquals head head' = true ∧ structuralEquals tail tail' = true := by
  rw [structuralEquals_pair, Bool.and_eq_true]

/-- The rule for arrays as a proposition, with the items by their places. -/
theorem structuralEquals_array_iff {cell cell' : CellId} {items items' : List Value} :
    structuralEquals (array cell items) (array cell' items') = true ↔
      items.length = items'.length ∧ ∀ (i : Nat) (h : i < items.length) (h' : i < items'.length),
        structuralEquals items[i] items'[i] = true := by
  rw [structuralEquals_array, Bool.and_eq_true, beq_iff_eq, List.all_eq_true,
    List.forall_mem_iff_forall_getElem]
  simp only [List.length_zip, List.getElem_zip, Nat.lt_min]
  exact and_congr_right fun _ => ⟨fun h i hi hi' => h i ⟨hi, hi'⟩, fun h i hi => h i hi.1 hi.2⟩

/-- Structural equality is symmetric. -/
theorem structuralEquals_symm {v w : Value} (h : structuralEquals v w = true) :
    structuralEquals w v = true := by
  induction v using induct generalizing w with
  | pair cell head tail ihHead ihTail =>
    obtain ⟨cell', head', tail', rfl⟩ | hUnlike := pair_or_unlike cell head tail w
    · obtain ⟨hHead, hTail⟩ := structuralEquals_pair_iff.mp h
      exact structuralEquals_pair_iff.mpr ⟨ihHead hHead, ihTail hTail⟩
    · rwa [structuralEquals_of_unlike hUnlike.symm, strictEquals_comm,
        ← structuralEquals_of_unlike hUnlike]
  | array cell items ih =>
    obtain ⟨cell', items', rfl⟩ | hUnlike := array_or_unlike cell items w
    · obtain ⟨hLength, hItems⟩ := structuralEquals_array_iff.mp h
      exact structuralEquals_array_iff.mpr ⟨hLength.symm, fun i hi' hi =>
        ih items[i] (List.getElem_mem hi) (hItems i hi hi')⟩
    · rwa [structuralEquals_of_unlike hUnlike.symm, strictEquals_comm,
        ← structuralEquals_of_unlike hUnlike]
  | leaf v hLeaf =>
    have hUnlike := unlike_of_isLeaf hLeaf w
    rwa [structuralEquals_of_unlike hUnlike.symm, strictEquals_comm,
      ← structuralEquals_of_unlike hUnlike]

/-- So the order of the two values does not matter. -/
theorem structuralEquals_comm (v w : Value) : structuralEquals v w = structuralEquals w v :=
  Bool.eq_iff_iff.mpr ⟨structuralEquals_symm, structuralEquals_symm⟩

/-- Values that are not both pairs, or not both arrays, are equal only if neither is one. -/
theorem isLeaf_of_unlike {v w : Value} (h : v.Unlike w) (hEqual : structuralEquals v w = true) :
    v.isLeaf = true ∧ w.isLeaf = true := by
  rw [structuralEquals_of_unlike h] at hEqual
  cases v <;> cases w <;> first | exact h.elim | exact ⟨rfl, rfl⟩ | contradiction

/-- Structural equality is transitive. Of three values that are not all of one shape two are unlike,
and then all of them are leaves. -/
theorem structuralEquals_trans {u v w : Value} (h : structuralEquals u v = true)
    (h' : structuralEquals v w = true) : structuralEquals u w = true := by
  -- Of two unlike values that are equal neither has parts, so the third has none either.
  have hUnlike {u v w : Value} (hUnlike : u.Unlike v) (h : structuralEquals u v = true)
      (h' : structuralEquals v w = true) : structuralEquals u w = true := by
    obtain ⟨hu, hv⟩ := isLeaf_of_unlike hUnlike h
    rw [structuralEquals_of_unlike (unlike_of_isLeaf hv w)] at h'
    rw [structuralEquals_of_unlike hUnlike] at h
    rw [structuralEquals_of_unlike (unlike_of_isLeaf hu w)]
    exact strictEquals_trans h h'
  induction u using induct generalizing v w with
  | pair cell head tail ihHead ihTail =>
    obtain ⟨cell', head', tail', rfl⟩ | hu := pair_or_unlike cell head tail v
    · obtain ⟨cell'', head'', tail'', rfl⟩ | hv := pair_or_unlike cell' head' tail' w
      · obtain ⟨hHead, hTail⟩ := structuralEquals_pair_iff.mp h
        obtain ⟨hHead', hTail'⟩ := structuralEquals_pair_iff.mp h'
        exact structuralEquals_pair_iff.mpr ⟨ihHead hHead hHead', ihTail hTail hTail'⟩
      · exact absurd (isLeaf_of_unlike hv h').1 Bool.false_ne_true
    · exact hUnlike hu h h'
  | array cell items ih =>
    obtain ⟨cell', items', rfl⟩ | hu := array_or_unlike cell items v
    · obtain ⟨cell'', items'', rfl⟩ | hv := array_or_unlike cell' items' w
      · obtain ⟨hLength, hItems⟩ := structuralEquals_array_iff.mp h
        obtain ⟨hLength', hItems'⟩ := structuralEquals_array_iff.mp h'
        refine structuralEquals_array_iff.mpr ⟨hLength.trans hLength', fun i hi hi'' => ?_⟩
        have hi' : i < items'.length := hLength ▸ hi
        exact ih items[i] (List.getElem_mem hi) (hItems i hi hi') (hItems' i hi' hi'')
      · exact absurd (isLeaf_of_unlike hv h').1 Bool.false_ne_true
    · exact hUnlike hu h h'
  | leaf u hLeaf => exact hUnlike (unlike_of_isLeaf hLeaf v) h h'

-- ---------------------------------------------------------------------------
-- Reflexivity
-- ---------------------------------------------------------------------------

/-- Through pairs and arrays a value reaches its parts. -/
inductive Reaches : Value → Value → Prop
  | self (v : Value) : Reaches v v
  | head {cell : CellId} {head tail part : Value} :
    Reaches head part → Reaches (pair cell head tail) part
  | tail {cell : CellId} {head tail part : Value} :
    Reaches tail part → Reaches (pair cell head tail) part
  | item {cell : CellId} {items : List Value} {v part : Value} :
    v ∈ items → Reaches v part → Reaches (array cell items) part

/-- A NaN is reached. -/
def ReachesNaN (v : Value) : Prop := ∃ x : Float, v.Reaches (number x) ∧ x.isNaN = true

/-- A pair reaches what its head and its tail reach. -/
theorem reachesNaN_pair_iff {cell : CellId} {head tail : Value} :
    (pair cell head tail).ReachesNaN ↔ head.ReachesNaN ∨ tail.ReachesNaN := by
  constructor
  · rintro ⟨x, hReaches, hNaN⟩
    cases hReaches with
    | head h => exact .inl ⟨x, h, hNaN⟩
    | tail h => exact .inr ⟨x, h, hNaN⟩
  · rintro (⟨x, hReaches, hNaN⟩ | ⟨x, hReaches, hNaN⟩)
    · exact ⟨x, .head hReaches, hNaN⟩
    · exact ⟨x, .tail hReaches, hNaN⟩

/-- An array reaches what its items reach. -/
theorem reachesNaN_array_iff {cell : CellId} {items : List Value} :
    (array cell items).ReachesNaN ↔ ∃ v ∈ items, v.ReachesNaN := by
  constructor
  · rintro ⟨x, hReaches, hNaN⟩
    cases hReaches with
    | item hItem h => exact ⟨_, hItem, x, h, hNaN⟩
  · rintro ⟨v, hItem, x, hReaches, hNaN⟩
    exact ⟨x, .item hItem hReaches, hNaN⟩

/-- A number reaches only itself. -/
theorem reachesNaN_number_iff {x : Float} : (number x).ReachesNaN ↔ x.isNaN = true := by
  constructor
  · rintro ⟨y, hReaches, hNaN⟩
    cases hReaches
    exact hNaN
  · exact fun hNaN => ⟨x, .self _, hNaN⟩

/-- Strictly, only a NaN differs from itself. -/
theorem strictEquals_self_iff (v : Value) :
    strictEquals v v = true ↔ ∀ x, v = number x → x.isNaN = false := by
  cases v with
  | number x =>
    refine Binary64.beq_self_iff.trans ⟨fun hReal y hy => ?_, fun h => h x rfl⟩
    cases hy
    exact hReal
  | _ =>
    refine ⟨fun _ _ h => absurd h Value.noConfusion, fun _ => ?_⟩
    first | rfl | exact beq_self_eq_true _

theorem reachesNaN_leaf_iff {v : Value} (h : v.isLeaf = true) :
    v.ReachesNaN ↔ ∃ x, v = number x ∧ x.isNaN = true := by
  constructor
  · rintro ⟨x, hReaches, hNaN⟩
    cases hReaches with
    | self => exact ⟨x, rfl, hNaN⟩
    | _ => cases h
  · rintro ⟨x, rfl, hNaN⟩
    exact reachesNaN_number_iff.mpr hNaN

/-- A value is equal to itself just if no NaN is reached. -/
theorem structuralEquals_self_iff (v : Value) :
    structuralEquals v v = true ↔ ¬ v.ReachesNaN := by
  induction v using induct with
  | pair cell head tail ihHead ihTail =>
    rw [structuralEquals_pair_iff, ihHead, ihTail, reachesNaN_pair_iff, not_or]
  | array cell items ih =>
    rw [structuralEquals_array_iff, reachesNaN_array_iff]
    -- an item that is not equal to itself is one that has a NaN, by the induction hypothesis
    constructor
    · rintro ⟨-, hItems⟩ ⟨v, hItem, hNaN⟩
      obtain ⟨i, hi, rfl⟩ := List.getElem_of_mem hItem
      exact (ih _ hItem).mp (hItems i hi hi) hNaN
    · intro hNone
      exact ⟨rfl, fun i hi _ => (ih _ (List.getElem_mem hi)).mpr fun hNaN =>
        hNone ⟨_, List.getElem_mem hi, hNaN⟩⟩
  | leaf v hLeaf =>
    rw [structuralEquals_of_unlike (unlike_of_isLeaf hLeaf v), strictEquals_self_iff,
      reachesNaN_leaf_iff hLeaf]
    constructor
    · rintro hReal ⟨x, hx, hNaN⟩
      exact absurd ((hReal x hx).symm.trans hNaN) Bool.false_ne_true
    · exact fun hNone x hx => Bool.eq_false_iff.mpr fun hNaN => hNone ⟨x, hx, hNaN⟩

-- ---------------------------------------------------------------------------
-- One memory
-- ---------------------------------------------------------------------------

/-- What is in the cells that are in use. -/
abbrev Memory := CellId → Option Value

/-- The cell that a value is told apart by. -/
def cell? : Value → Option CellId
  | pair cell .. | array cell _ | closure cell .. => some cell
  | _ => none

/-- All that is reached is what the memory has in the cells. -/
def LivesIn (memory : Memory) (v : Value) : Prop :=
  ∀ part cell, v.Reaches part → part.cell? = some cell → memory cell = some part

/-- In one memory, a cell holds one value. -/
theorem LivesIn.eq_of_cell? {memory : Memory} {v w : Value} {cell : CellId}
    (hv : v.LivesIn memory) (hw : w.LivesIn memory) (hvCell : v.cell? = some cell)
    (hwCell : w.cell? = some cell) : v = w := by
  have hHolds : memory cell = some v := hv v cell (.self v) hvCell
  rw [hw w cell (.self w) hwCell] at hHolds
  exact (Option.some.inj hHolds).symm

/-- What is strictly equal has equal parts, unless there is a NaN among them. -/
theorem structuralEquals_of_strictEquals {memory : Memory} {v w : Value}
    (hv : v.LivesIn memory) (hw : w.LivesIn memory) (hNaN : ¬ v.ReachesNaN)
    (h : strictEquals v w = true) : structuralEquals v w = true := by
  have hSelf : structuralEquals v v = true := (structuralEquals_self_iff v).mpr hNaN
  cases v with
  | pair cell head tail =>
    obtain ⟨cell', head', tail', rfl⟩ | hUnlike := pair_or_unlike cell head tail w
    · obtain rfl : cell = cell' := beq_iff_eq.mp h
      rwa [← hv.eq_of_cell? hw rfl rfl]
    · rwa [structuralEquals_of_unlike hUnlike]
  | array cell items =>
    obtain ⟨cell', items', rfl⟩ | hUnlike := array_or_unlike cell items w
    · obtain rfl : cell = cell' := beq_iff_eq.mp h
      rwa [← hv.eq_of_cell? hw rfl rfl]
    · rwa [structuralEquals_of_unlike hUnlike]
  | _ => rwa [structuralEquals_of_unlike (unlike_of_isLeaf rfl w)]

end AmbScript.Value
