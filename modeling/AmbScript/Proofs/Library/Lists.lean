import AmbScript.Proofs.Library.Offers

/-!
# The library's functions on lists

What calls of the functions on lists enumerate, by induction on the list: each has one result, but
for `map`, which has one for each way to choose a result of the function for each item.

* `Value.Ends`, `Value.isSome_list?_iff` — lists as chains of pairs.
* `Context.Stocked.supplies_isList`, `Context.Stocked.supplies_append`,
  `Context.Stocked.supplies_member`, `Context.Stocked.supplies_remove` — functions with one result.
* `Context.answers_rev`, `Context.Stocked.supplies_reverse` — reversing, by way of the function
  inside `reverse`.
* `Context.Stocked.supplies_map` — the results of a function are chosen for all items.
-/

namespace AmbScript

-- ---------------------------------------------------------------------------
-- Lists
-- ---------------------------------------------------------------------------

namespace Value

variable {v x : Value} {xs : List Value}

/-- What was collected before is kept; the loop collects in reverse order. -/
theorem listLoop_eq (v : Value) (done : List Value) :
    listLoop v done = (listLoop v []).map (· ++ done) := by
  cases v with
  | null => rfl
  | pair cell head tail =>
    rw [listLoop, listLoop, listLoop_eq tail (head :: done), listLoop_eq tail [head],
      Option.map_map]
    congr 1
    funext items
    simp
  | _ => rfl

/-- The items of a pair are its head and the items of its tail. -/
theorem list?_pair (cell : CellId) (head tail : Value) :
    (pair cell head tail).list? = tail.list?.map (head :: ·) := by
  show (listLoop tail [head]).map List.reverse = ((listLoop tail []).map List.reverse).map _
  rw [listLoop_eq, Option.map_map, Option.map_map]
  congr 1
  funext done
  simp

/-- Only the empty list has no items. -/
theorem eq_null_of_list? (h : v.list? = some []) : v = null := by
  cases v with
  | null => rfl
  | pair cell head tail =>
    rw [list?_pair] at h
    obtain ⟨items, -, hItems⟩ := Option.map_eq_some_iff.mp h
    cases hItems
  | _ => cases h

/-- A list with items is a pair of the first one and a list of the others. -/
theorem eq_pair_of_list? (h : v.list? = some (x :: xs)) :
    ∃ cell tail, v = pair cell x tail ∧ tail.list? = some xs := by
  cases v with
  | pair cell head tail =>
    rw [list?_pair] at h
    obtain ⟨items, hTail, hItems⟩ := Option.map_eq_some_iff.mp h
    cases hItems
    exact ⟨cell, tail, rfl, hTail⟩
  | _ => cases h

/-- `r` is the list `v` from one of its pairs on, or its end. -/
inductive Ends : Value → Value → Prop
  | self (v : Value) : Ends v v
  | tail {r tail : Value} (cell : CellId) (head : Value) (h : Ends r tail) :
      Ends r (pair cell head tail)

/-- A list is a chain of pairs that `null` ends. -/
theorem isSome_list?_iff (v : Value) : v.list?.isSome = true ↔ null.Ends v := by
  cases v with
  | null => exact ⟨fun _ => .self _, fun _ => rfl⟩
  | pair cell head tail =>
    rw [list?_pair, Option.isSome_map, isSome_list?_iff tail]
    refine ⟨.tail cell head, fun h => ?_⟩
    cases h with
    | tail _ _ h => exact h
  | _ => exact ⟨nofun, nofun⟩

end Value

/-- A list of as many values as there are conditions, one fulfilling each. -/
def FitsList (ps : List (Value → Prop)) (v : Value) : Prop :=
  ∃ items, v.list? = some items ∧ Fits ps items

namespace Context

variable {c : Context} {xs : Value} {as : List Value}

/-- A list made by putting an item before another one. -/
theorem Finds.cons {σ : Sketch} {a : Value} {items : List Value}
    (h : c.Finds σ (([(· = a)] ×ˢ [fun r : Value => r.list? = some items]).map fun x v =>
      ∃ cell a b, v = .pair cell a b ∧ x.1 a ∧ x.2 b)) :
    c.Finds σ [fun r => r.list? = some (a :: items)] := by
  refine h.imp_single fun r hr => ?_
  obtain ⟨cell, a, b, rfl, rfl, hb⟩ := hr
  rw [Value.list?_pair, show b.list? = some items from hb]
  rfl

-- ---------------------------------------------------------------------------
-- Functions with one result
-- ---------------------------------------------------------------------------

namespace Stocked

/-- `is_list` tells whether the value is a list. -/
theorem supplies_isList (v : Value) {c : Context} (h : c.Stocked) :
    c.Supplies "is_list" [v] [(· = .bool v.list?.isSome)] := by
  have hMem : ("is_list", Prelude.isList) ∈ Prelude.outlines := by decide
  refine h.supplies hMem rfl rfl fun d hVisits => ?_
  rcases hVisits.params with _ | ⟨hSees, -⟩
  have hXs := finds_name hVisits.unbounded hSees
  have hNull := hVisits.finds_isNull hXs
  have hPair := hVisits.finds_isPair hXs
  -- the recursion of the function is the one of the pairs: a list ends in null, all else is none
  cases v with
  | null => exact finds_or hVisits.unbounded false hNull nofun
  | pair cell head tail =>
    rw [Value.list?_pair, Option.isSome_map]
    refine finds_or hVisits.unbounded _ hNull fun _ =>
      finds_and hVisits.unbounded _ hPair fun _ => ?_
    exact hVisits.finds_call hMem (by decide) (hVisits.finds_tail hXs) fun w hw =>
      hw ▸ supplies_isList tail hVisits.toStocked
  | _ =>
    exact finds_or hVisits.unbounded _ hNull fun _ =>
      finds_and hVisits.unbounded false hPair nofun

/-- `append` puts the one list before the other. -/
theorem supplies_append {c : Context} {xs ys : Value} {as bs : List Value} (h : c.Stocked)
    (hxs : xs.list? = some as) (hys : ys.list? = some bs) :
    c.Supplies "append" [xs, ys] [fun r => r.list? = some (as ++ bs)] := by
  have hMem : ("append", Prelude.append) ∈ Prelude.outlines := by decide
  refine h.supplies hMem rfl rfl fun d hVisits => ?_
  rcases hVisits.params with _ | ⟨hSeesXs, _ | ⟨hSeesYs, -⟩⟩
  have hXs := finds_name hVisits.unbounded hSeesXs
  have hYs := finds_name hVisits.unbounded hSeesYs
  refine finds_conditional hVisits.unbounded (hVisits.finds_isNull hXs) ?_
  cases as with
  | nil =>
    obtain rfl := Value.eq_null_of_list? hxs
    exact hYs.imp_single fun r hr => hr ▸ hys
  | cons a as =>
    obtain ⟨cell, tail, rfl, hTail⟩ := Value.eq_pair_of_list? hxs
    -- a new pair of the first item and what is appended to the others
    refine Finds.cons (hVisits.finds_pair (hVisits.finds_head hXs) ?_)
    refine hVisits.finds_call₂ hMem (by decide) (hVisits.finds_tail hXs) hYs fun v w hv hw => ?_
    subst hv hw
    exact supplies_append hVisits.toStocked hTail hys

/-- `member` gives the list from the first item on that is `===` to the value. -/
theorem supplies_member {c : Context} {xs : Value} {as : List Value} (h : c.Stocked) (v : Value)
    (hxs : xs.list? = some as) :
    c.Supplies "member" [v, xs]
      [fun r => r.list? = some (as.dropWhile fun a => !v.strictEquals a) ∧ r.Ends xs] := by
  have hMem : ("member", Prelude.member) ∈ Prelude.outlines := by decide
  refine h.supplies hMem rfl rfl fun d hVisits => ?_
  rcases hVisits.params with _ | ⟨hSeesV, _ | ⟨hSeesXs, -⟩⟩
  have hV := finds_name hVisits.unbounded hSeesV
  have hXs := finds_name hVisits.unbounded hSeesXs
  refine finds_conditional hVisits.unbounded (hVisits.finds_isNull hXs) ?_
  cases as with
  | nil =>
    obtain rfl := Value.eq_null_of_list? hxs
    refine (finds_null hVisits.unbounded).imp_single fun r hr => ?_
    subst hr
    exact ⟨hxs, .self _⟩
  | cons a as =>
    obtain ⟨cell, tail, rfl, hTail⟩ := Value.eq_pair_of_list? hxs
    refine finds_conditional hVisits.unbounded
      (finds_equal hVisits.unbounded hV (hVisits.finds_head hXs)) ?_
    -- the list from the first item that equals the one sought, or the same in the tail
    cases hEqual : v.strictEquals a with
    | true =>
      refine hXs.imp_single fun r hr => ?_
      subst hr
      rw [List.dropWhile_cons_of_neg (by simp [hEqual])]
      exact ⟨hxs, .self _⟩
    | false =>
      rw [List.dropWhile_cons_of_pos (by simp [hEqual])]
      refine hVisits.finds_call₂ hMem (by decide) hV (hVisits.finds_tail hXs) fun w r hw hr => ?_
      subst hw hr
      exact (supplies_member hVisits.toStocked w hTail).imp
        (.cons (fun r hr => ⟨hr.1, hr.2.tail _ _⟩) .nil)

/-- `remove` leaves out the first item that is `===` to the value. -/
theorem supplies_remove {c : Context} {xs : Value} {as : List Value} (h : c.Stocked) (v : Value)
    (hxs : xs.list? = some as) :
    c.Supplies "remove" [v, xs] [fun r => r.list? = some (as.eraseP v.strictEquals)] := by
  have hMem : ("remove", Prelude.remove) ∈ Prelude.outlines := by decide
  refine h.supplies hMem rfl rfl fun d hVisits => ?_
  rcases hVisits.params with _ | ⟨hSeesV, _ | ⟨hSeesXs, -⟩⟩
  have hV := finds_name hVisits.unbounded hSeesV
  have hXs := finds_name hVisits.unbounded hSeesXs
  refine finds_conditional hVisits.unbounded (hVisits.finds_isNull hXs) ?_
  cases as with
  | nil =>
    obtain rfl := Value.eq_null_of_list? hxs
    exact (finds_null hVisits.unbounded).imp_single fun r hr => hr ▸ hxs
  | cons a as =>
    obtain ⟨cell, tail, rfl, hTail⟩ := Value.eq_pair_of_list? hxs
    refine finds_conditional hVisits.unbounded
      (finds_equal hVisits.unbounded hV (hVisits.finds_head hXs)) ?_
    cases hEqual : v.strictEquals a with
    | true =>
      rw [List.eraseP_cons_of_pos hEqual]
      exact (hVisits.finds_tail hXs).imp_single fun r hr => hr ▸ hTail
    | false =>
      rw [List.eraseP_cons_of_neg (by simp [hEqual])]
      -- the item stays, in a new pair
      refine Finds.cons (hVisits.finds_pair (hVisits.finds_head hXs) ?_)
      refine hVisits.finds_call₂ hMem (by decide) hV (hVisits.finds_tail hXs) fun w r hw hr => ?_
      subst hw hr
      exact supplies_remove hVisits.toStocked w hTail

end Stocked

-- ---------------------------------------------------------------------------
-- Reversing
-- ---------------------------------------------------------------------------

/-- The function inside `reverse` puts the items before those that are there already. -/
theorem answers_rev {c : Context} {cell : CellId} {g : Function} {env : FrameId} {xs ys : Value}
    {as bs : List Value} (hOf : Outline.Of ⟨["rest", "reversed"], [.returns Prelude.rev]⟩ g)
    (hUnbounded : c.Unbounded) (hMade : env < c.store.nextFrame)
    (hSelf : c.store.Sees env "rev" (.closure cell g env)) (hProvides : c.store.Provides env)
    (hxs : xs.list? = some as) (hys : ys.list? = some bs) :
    c.Answers (.closure cell g env) [xs, ys] [fun r => r.list? = some (as.reverse ++ bs)] := by
  refine answers_returns hOf rfl (by decide) rfl hMade hUnbounded fun d hWithin => ?_
  have hEquipped := hWithin.equipped hUnbounded hProvides (by decide)
  have hKept := hWithin.upholds.retains
  rcases hWithin.params with _ | ⟨hSeesXs, _ | ⟨hSeesYs, -⟩⟩
  have hXs := finds_name hEquipped.unbounded hSeesXs
  have hYs := finds_name hEquipped.unbounded hSeesYs
  refine finds_conditional hEquipped.unbounded (hEquipped.finds_isNull hXs) ?_
  -- by recursion on the list: the first item goes in front of what has been reversed
  cases as with
  | nil =>
    obtain rfl := Value.eq_null_of_list? hxs
    exact hYs.imp_single fun r hr => hr ▸ hys
  | cons a as =>
    obtain ⟨cell', tail, rfl, hTail⟩ := Value.eq_pair_of_list? hxs
    refine finds_call₂_single hEquipped.unbounded (by decide) (by decide)
      (hWithin.outside (by decide) hSelf) (hEquipped.finds_tail hXs)
      (hEquipped.finds_pair (hEquipped.finds_head hXs) hYs) fun v w hv hw => ?_
    obtain ⟨cell'', a', ys', rfl, rfl, rfl⟩ := hw
    subst hv
    have hNext : (Value.pair cell'' a' ys').list? = some (a' :: bs) := by
      rw [Value.list?_pair, hys]
      rfl
    rw [List.reverse_cons, List.append_assoc, List.singleton_append]
    exact answers_rev hOf hEquipped.unbounded (Nat.lt_of_lt_of_le hMade hKept.frames)
      (hSelf.retains hKept) (fun q hMem => (hProvides q hMem).retains hKept) hTail hNext

/-- `reverse` gives the items in reverse order. -/
theorem Stocked.supplies_reverse (h : c.Stocked) (hxs : xs.list? = some as) :
    c.Supplies "reverse" [xs] [fun r => r.list? = some as.reverse] := by
  have hMem : ("reverse", Prelude.reverse) ∈ Prelude.outlines := by decide
  refine h.supplies_of hMem fun cell g hOf hDistinct => ?_
  refine answers_closure [(· = .value .undefined)]
    [[fun completion => ∃ r, completion = .returns r ∧ r.list? = some as.reverse]] hOf rfl hDistinct
    rfl h.offers.made (fun d hWithin => ?_) (fun _ d hWithin => .cons ?_ .nil) ?_ ?_
  · exact runs_function (hWithin.upholds.unbounded h.unbounded) _ _ _
  · have hVisits := h.visits hMem hWithin
    rcases hWithin.params with _ | ⟨hSees, -⟩
    -- the helper declared in the body closes over the call's frame
    obtain ⟨cell', rev, hRev, hSeesRev⟩ := hWithin.functions (List.mem_cons_self ..)
    suffices d.Finds (.call₂ "rev" (.name "xs") .null) [fun r => r.list? = some as.reverse] from
      runs_returns hVisits.unbounded this
    refine finds_call₂_single hVisits.unbounded (by decide) (by decide) hSeesRev
      (finds_name hVisits.unbounded hSees) (finds_null hVisits.unbounded) fun v w hv hw => ?_
    subst hv hw
    rw [← List.append_nil as.reverse]
    exact answers_rev hRev hVisits.unbounded hWithin.made hSeesRev hVisits.provides hxs rfl
  · intro r hr p hp completion hCompletion
    cases List.mem_singleton.mp hr
    cases List.mem_singleton.mp hp
    exact ⟨_, hCompletion⟩
  · exact .cons (fun completion ⟨r, hReturns, hr⟩ => hReturns ▸ hr) .nil

-- ---------------------------------------------------------------------------
-- Mapping
-- ---------------------------------------------------------------------------

/-- `map` chooses a result of the function for each item, the first item's choice varying
slowest. -/
theorem Stocked.supplies_map {c : Context} {f xs : Value} {as : List Value}
    {pss : List (List (Value → Prop))} (h : c.Stocked) (hxs : xs.list? = some as)
    (hf : List.Forall₂ (fun a ps => c.Answers f [a] ps) as pss) :
    c.Supplies "map" [f, xs] ((combinations pss).map FitsList) := by
  have hMem : ("map", Prelude.map) ∈ Prelude.outlines := by decide
  refine h.supplies hMem rfl rfl fun d hVisits => ?_
  rcases hVisits.params with _ | ⟨hSeesF, _ | ⟨hSeesXs, -⟩⟩
  have hF := finds_name hVisits.unbounded hSeesF
  have hXs := finds_name hVisits.unbounded hSeesXs
  refine finds_conditional hVisits.unbounded (hVisits.finds_isNull hXs) ?_
  cases hf with
  | nil =>
    obtain rfl := Value.eq_null_of_list? hxs
    exact (finds_null hVisits.unbounded).imp_single fun r hr => ⟨[], hr ▸ hxs, .nil⟩
  | @cons a ps as pss ha has =>
    obtain ⟨cell, tail, rfl, hTail⟩ := Value.eq_pair_of_list? hxs
    -- the function's answers for the first item vary slowest
    have hHead : d.Finds (.call "f" (.call "head" (.name "xs"))) ps := by
      refine finds_call_single hVisits.unbounded (by decide) (by decide) hSeesF
        (hVisits.finds_head hXs) fun v hv => ?_
      subst hv
      exact ha.upholds hVisits.upholds
    have hRest : d.Finds (.call₂ "map" (.name "f") (.call "tail" (.name "xs")))
        ((combinations pss).map FitsList) := by
      refine hVisits.finds_call₂ hMem (by decide) hF (hVisits.finds_tail hXs) fun v w hv hw => ?_
      subst hv hw
      exact supplies_map hVisits.toStocked hTail (has.imp fun _ _ h => h.upholds hVisits.upholds)
    have hPairs := hVisits.finds_pair hHead hRest
    rw [product_map, List.map_map] at hPairs
    rw [combinations_cons, List.map_map]
    refine hPairs.imp (List.forall₂_map_left_iff.mpr (List.forall₂_map_right_iff.mpr
      (List.forall₂_same.mpr fun x _ r hr => ?_)))
    obtain ⟨cell', b, r', rfl, hb, items, hItems, hFits⟩ := hr
    exact ⟨b :: items, by rw [Value.list?_pair, hItems]; rfl, .cons hb hFits⟩

end Context

end AmbScript
