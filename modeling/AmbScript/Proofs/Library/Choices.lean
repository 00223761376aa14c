import Mathlib.Data.List.TakeWhile
import AmbScript.Proofs.Library.Lists

/-!
# Choosing from a list

The functions that search: `distinct` looks for an item that is there twice, `an_element_of` chooses
each item in its turn. Then what is known of all functions on lists is told of every stage at which
the library is there.

* `Context.Stocked.supplies_distinct`, `Context.Stocked.supplies_anElementOf` — what they enumerate.
* `Stage.chooses_from_lists` — at every stage after the library was loaded they search a list
  exactly.
* `Stage.computes_lists` — and the other functions compute what their names say, `map` also where
  the function has several results.
-/

namespace AmbScript

open Machine

variable {retire : {k : Kind} → Search k → Bool} {chapter : Nat}

namespace Context

/-- Whether the list is empty. -/
theorem question_of_list? {r : Value} {items : List Value} (h : r.list? = some items) :
    Primitive.isNull.question r = items.isEmpty := by
  cases items with
  | nil =>
    obtain rfl := Value.eq_null_of_list? h
    rfl
  | cons a items =>
    obtain ⟨cell, tail, rfl, -⟩ := Value.eq_pair_of_list? h
    rfl

/-- Whether nothing is left from the first item on that is `===` to the value. -/
theorem question_dropWhile (a : Value) {r : Value} {items : List Value}
    (h : r.list? = some (items.dropWhile fun x => !a.strictEquals x)) :
    Primitive.isNull.question r = decide (∀ x ∈ items, a.strictEquals x = false) := by
  rw [question_of_list? h, Bool.eq_iff_iff, List.isEmpty_iff, List.dropWhile_eq_nil_iff,
    decide_eq_true_iff]
  simp only [Bool.not_eq_true']

namespace Stocked

/-- `distinct` tells whether no two items are `===`. -/
theorem supplies_distinct {c : Context} {xs : Value} {as : List Value} (h : c.Stocked)
    (hxs : xs.list? = some as) : c.Supplies "distinct" [xs]
      [(· = .bool (decide (as.Pairwise fun a b => a.strictEquals b = false)))] := by
  have hMem : ("distinct", Prelude.distinct) ∈ Prelude.outlines := by decide
  have hMember : ("member", Prelude.member) ∈ Prelude.outlines := by decide
  refine h.supplies hMem rfl rfl fun d hVisits => ?_
  rcases hVisits.params with _ | ⟨hSees, -⟩
  have hXs := finds_name hVisits.unbounded hSees
  refine finds_conditional hVisits.unbounded (hVisits.finds_isNull hXs) ?_
  cases as with
  | nil =>
    obtain rfl := Value.eq_null_of_list? hxs
    exact finds_bool hVisits.unbounded true
  | cons a as =>
    obtain ⟨cell, tail, rfl, hTail⟩ := Value.eq_pair_of_list? hxs
    have hRest := hVisits.finds_tail hXs
    refine finds_conditional hVisits.unbounded (hVisits.finds_isNull hRest) ?_
    rw [question_of_list? hTail]
    cases as with
    | nil =>
      rw [decide_eq_true (List.pairwise_singleton _ a)]
      exact finds_bool hVisits.unbounded true
    | cons b bs =>
      -- whether the first item is there again
      have hMember : d.Finds (.call₂ "member" (.call "head" (.name "items"))
          (.call "tail" (.name "items"))) [fun r =>
            r.list? = some ((b :: bs).dropWhile fun x => !a.strictEquals x) ∧ r.Ends tail] := by
        refine hVisits.finds_call₂ hMember (by decide) (hVisits.finds_head hXs) hRest
          fun v w hv hw => ?_
        subst hv hw
        exact supplies_member hVisits.toStocked v hTail
      have hOnce := finds_call_single hVisits.unbounded (by decide) (by decide)
        (hVisits.provides .isNull (by decide)) hMember fun r hr =>
          (question_dropWhile a hr.1) ▸ answers_isNull r
      refine finds_conditional hVisits.unbounded hOnce ?_
      by_cases hApart : ∀ x ∈ b :: bs, a.strictEquals x = false
      case neg =>
        rw [decide_eq_false hApart, decide_eq_false fun h => hApart (List.pairwise_cons.mp h).1]
        exact finds_bool hVisits.unbounded false
      case pos =>
        have hSame : decide ((a :: b :: bs).Pairwise fun a b => a.strictEquals b = false) =
            decide ((b :: bs).Pairwise fun a b => a.strictEquals b = false) :=
          decide_eq_decide.mpr (List.pairwise_cons.trans (and_iff_right hApart))
        rw [decide_eq_true hApart, hSame]
        refine hVisits.finds_call hMem (by decide) hRest fun v hv => ?_
        subst hv
        exact supplies_distinct hVisits.toStocked hTail

/-- `an_element_of` yields the items. -/
theorem supplies_anElementOf {c : Context} {xs : Value} {as : List Value} (h : c.Stocked)
    (hxs : xs.list? = some as) :
    c.Supplies "an_element_of" [xs] (as.map fun a v => v = a) := by
  have hMem : ("an_element_of", Prelude.anElementOf) ∈ Prelude.outlines := by decide
  refine h.supplies_of hMem fun cell g hOf hDistinct => ?_
  have hSees {d : Context} (hWithin : c.Within Prelude.anElementOf 1 [xs] d) :
      d.Finds (.name "items") [(· = xs)] := by
    rcases hWithin.params with _ | ⟨hSees, -⟩
    exact finds_name (hWithin.upholds.unbounded h.unbounded) hSees
  -- whether the list is empty
  have hFirst (d : Context) (hWithin : c.Within Prelude.anElementOf 1 [xs] d) :
      d.Runs (.expr (.call "require" (.not (.call "is_null" (.name "items")))))
        ((bif !Primitive.isNull.question xs then [(· = .undefined)] else []).map
          fun p completion => ∃ v, completion = .value v ∧ p v) := by
    have hVisits := h.visits hMem hWithin
    exact runs_expr hVisits.unbounded (finds_require hVisits.unbounded
      (finds_not hVisits.unbounded (hVisits.finds_isNull (hSees hWithin))))
  rw [question_of_list? hxs] at hFirst
  cases as with
  | nil =>
    exact answers_closure [] [[]] hOf rfl hDistinct rfl h.offers.made hFirst
      (fun hNone => absurd rfl hNone) (fun r hr => by cases List.mem_singleton.mp hr; nofun) .nil
  | cons a as =>
    obtain ⟨cell', tail, rfl, hTail⟩ := Value.eq_pair_of_list? hxs
    have hRest (d : Context) (hWithin : c.Within Prelude.anElementOf 1 [.pair cell' a tail] d) :
        d.Runs (.returns (.call₂ "amb" (.call "head" (.name "items"))
          (.call "an_element_of" (.call "tail" (.name "items")))))
          (((a :: as).map fun a v => v = a).map
            fun p completion => ∃ v, completion = .returns v ∧ p v) := by
      have hVisits := h.visits hMem hWithin
      refine runs_returns hVisits.unbounded (finds_amb hVisits.unbounded
        (hVisits.finds_head (hSees hWithin)) (hVisits.finds_call hMem (by decide)
          (hVisits.finds_tail (hSees hWithin)) fun v hv => ?_))
      subst hv
      exact supplies_anElementOf hVisits.toStocked hTail
    refine answers_closure [fun completion => ∃ v, completion = .value v ∧ v = .undefined] [_] hOf
      rfl hDistinct rfl h.offers.made hFirst (fun _ d hWithin => .cons (hRest d hWithin) .nil)
      (fun r hr p hp completion hCompletion => ?_) ?_
    · cases List.mem_singleton.mp hr
      cases List.mem_singleton.mp hp
      obtain ⟨v, hValue, -⟩ := hCompletion
      exact ⟨v, hValue⟩
    · rw [inTurn, List.flatMap_singleton, inTurn]
      refine List.forall₂_map_left_iff.mpr
        (List.forall₂_same.mpr fun p _ completion hReturned => ?_)
      obtain ⟨v, rfl, hv⟩ := hReturned
      exact hv

end Stocked

end Context

-- ---------------------------------------------------------------------------
-- After the library was loaded
-- ---------------------------------------------------------------------------

namespace Stage

/-- At every stage after the library was loaded, if nothing stops evaluation: called with a list,
`an_element_of` has each item as its result in its turn, and then no more results, and the one
result of `distinct` is whether no two items are `===`. -/
theorem chooses_from_lists {st : Stage} (h : Session retire chapter st)
    (hLoaded : st.context.preludePending = false) (hUnbounded : st.context.Unbounded)
    {xs : Value} {items : List Value} (hxs : xs.list? = some items) :
    st.context.Yields "an_element_of" [xs] (items.map fun x v => v = x) ∧
      st.context.Yields "distinct" [xs]
        [(· = .bool (decide (items.Pairwise fun x y => x.strictEquals y = false)))] := by
  have hStocked := h.stocked hLoaded hUnbounded
  exact ⟨hStocked.yields (o := Prelude.anElementOf) (by decide) (hStocked.supplies_anElementOf hxs),
    hStocked.yields (o := Prelude.distinct) (by decide) (hStocked.supplies_distinct hxs)⟩

/-- After a program was run: the items of a list are a function, a list and that function again, and
so `distinct` is false of it. -/
theorem chooses_after_eitherTruth :
    let c := (runProgramBy Search.isExhausted eitherTruth (.new 4) .default).context
    let tail := Value.pair 7 (.pair 6 (.bool true) .null) (.pair 8 (.primitive .pair) .null)
    c.Yields "an_element_of" [.pair 9 (.primitive .pair) tail]
        [(· = .primitive .pair), (· = .pair 6 (.bool true) .null), (· = .primitive .pair)] ∧
      c.Yields "distinct" [.pair 9 (.primitive .pair) tail] [(· = .bool false)] := by
  intro c tail
  have hSession : Session Search.isExhausted 4
      (runProgramBy Search.isExhausted eitherTruth (.new 4) .default) :=
    .single (.runProgram _ _ _)
  have hItems : (Value.pair 9 (.primitive .pair) tail).list? =
      some [.primitive .pair, .pair 6 (.bool true) .null, .primitive .pair] := rfl
  -- the same primitive stands in the list twice
  have hAgain : decide ([.primitive .pair, .pair 6 (.bool true) .null, .primitive .pair].Pairwise
      fun x y : Value => x.strictEquals y = false) = false := by decide
  have hChooses := chooses_from_lists hSession (preludePending_runProgramBy _ _ _)
    (unbounded_runProgramBy _ _ _) hItems
  rw [hAgain] at hChooses
  exact hChooses

/-- At every stage after the library was loaded, if nothing stops evaluation: `append`, `reverse`,
`member` and `remove` have the one result that their names say, `is_list` tells the chains of pairs
that `null` ends, and `map` has as many results as there are ways to choose a result of the function
for each item, in lexicographic order. -/
theorem computes_lists {st : Stage} (h : Session retire chapter st)
    (hLoaded : st.context.preludePending = false) (hUnbounded : st.context.Unbounded) :
    (∀ xs ys v as bs, xs.list? = some as → ys.list? = some bs →
      st.context.Yields "append" [xs, ys] [fun r => r.list? = some (as ++ bs)] ∧
      st.context.Yields "reverse" [xs] [fun r => r.list? = some as.reverse] ∧
      st.context.Yields "member" [v, xs]
        [fun r => r.list? = some (as.dropWhile fun a => !v.strictEquals a) ∧ r.Ends xs] ∧
      st.context.Yields "remove" [v, xs] [fun r => r.list? = some (as.eraseP v.strictEquals)]) ∧
    (∀ v, st.context.Yields "is_list" [v]
      [fun r => ∃ b, r = .bool b ∧ (b = true ↔ Value.null.Ends v)]) ∧
    ∀ f xs as pss, xs.list? = some as →
      List.Forall₂ (fun a ps => st.context.Answers f [a] ps) as pss →
      st.context.Yields "map" [f, xs] ((combinations pss).map FitsList) := by
  have hStocked := h.stocked hLoaded hUnbounded
  refine ⟨fun xs ys v as bs hxs hys => ⟨?_, ?_, ?_, ?_⟩, fun v => ?_, fun f xs as pss hxs hf => ?_⟩
  · exact hStocked.yields (o := Prelude.append) (by decide) (hStocked.supplies_append hxs hys)
  · exact hStocked.yields (o := Prelude.reverse) (by decide) (hStocked.supplies_reverse hxs)
  · exact hStocked.yields (o := Prelude.member) (by decide) (hStocked.supplies_member v hxs)
  · exact hStocked.yields (o := Prelude.remove) (by decide) (hStocked.supplies_remove v hxs)
  · refine hStocked.yields (o := Prelude.isList) (by decide) ((hStocked.supplies_isList v).imp ?_)
    exact .cons (fun r hr => ⟨_, hr, v.isSome_list?_iff⟩) .nil
  · exact hStocked.yields (o := Prelude.map) (by decide) (hStocked.supplies_map hxs hf)

/-- After a program was run: to choose an item from each of two lists is to map `an_element_of`. -/
theorem computes_after_eitherTruth :
    let c := (runProgramBy Search.isExhausted eitherTruth (.new 4) .default).context
    let first := Value.pair 6 (.bool true) (.pair 7 (.bool false) .null)
    let second := Value.pair 8 .null (.pair 9 .undefined .null)
    c.Yields "append" [first, second]
        [fun r => r.list? = some [.bool true, .bool false, .null, .undefined]] ∧
      (∀ v, c.Yields "is_list" [v] [fun r => ∃ b, r = .bool b ∧ (b = true ↔ Value.null.Ends v)]) ∧
      ∃ f, c.store.binding? 1 "an_element_of" = some (.ofValue f true) ∧
        c.Yields "map" [f, .pair 10 first (.pair 11 second .null)]
          [FitsList [(· = .bool true), (· = .null)], FitsList [(· = .bool true), (· = .undefined)],
            FitsList [(· = .bool false), (· = .null)],
            FitsList [(· = .bool false), (· = .undefined)]] := by
  intro c first second
  have hSession : Session Search.isExhausted 4
      (runProgramBy Search.isExhausted eitherTruth (.new 4) .default) :=
    .single (.runProgram _ _ _)
  have hStocked := hSession.stocked (preludePending_runProgramBy _ _ _)
    (unbounded_runProgramBy _ _ _)
  obtain ⟨hSingle, hIsList, hMap⟩ := computes_lists hSession (preludePending_runProgramBy _ _ _)
    (unbounded_runProgramBy _ _ _)
  -- the function to map is one of the library's own, looked up in its frame
  obtain ⟨cell, f, -, hBinding⟩ :=
    hStocked.offers.functions (n := "an_element_of") (o := Prelude.anElementOf) (by decide)
  have hFirst : first.list? = some [.bool true, .bool false] := rfl
  have hSecond : second.list? = some [.null, .undefined] := rfl
  have hItems : (Value.pair 10 first (.pair 11 second .null)).list? = some [first, second] := rfl
  have hChoices := hMap _ _ _ _ hItems (.cons (hStocked.supplies_anElementOf hFirst _ hBinding)
    (.cons (hStocked.supplies_anElementOf hSecond _ hBinding) .nil))
  exact ⟨(hSingle first second .null _ _ hFirst hSecond).1, hIsList, _, hBinding, hChoices⟩

end Stage

end AmbScript
