import AmbScript.Proofs.Listing.Delivery

/-!
# What each kind of search delivers

One lemma for every kind of search: given what its parts deliver, it delivers the listing that is
made of theirs in the way that the kind of search stands for.

* `Eval.lists_map`, `Eval.lists_expand` — what is made of each result, a result or a search.
* `Eval.lists_within` — the results inside a frame.
* `Eval.lists_choice` — the results of alternatives, each begun as of the moment of the choice.
* `Eval.lists_product` — the combinations of results.

All of these lemmas have one form. A search is put below the stack as something that waits; the
listing of its part is followed result by result, with `Delivers.fold`; and each result is handed on
as the kind of search demands. The renaming may grow from each result to the next, and the clock may
run down.
-/

namespace AmbScript

open Machine

variable {α β : Type} {w w' : Renaming} {clock clock' : Nat} {i o k : Kind}

-- ---------------------------------------------------------------------------
-- Pending searches
-- ---------------------------------------------------------------------------

namespace Eval

/-- A search around another one is asked for a result, and asks that one. -/
theorem delivers_around {start : Context} {L : Listing o.Item} {shown : List String}
    {wrap : Search i → Search o} {p : Pending i o}
    (hWrap : ∀ s stack c, (pull (wrap s) stack).step Search.neverExhausted c =
      .ok (pull s (.push p stack)) c)
    {x : Eval (Search i)} {stack : Stack o} {c : Context}
    (h : Delivers start w L clock shown stack (launch x (.push p stack) c)) :
    Delivers start w L clock shown stack (launch (do return wrap (← x)) stack c) := by
  show Delivers _ _ _ _ _ _ (EStateM.bind (EStateM.bind x _) _ c)
  change Delivers _ _ _ _ _ _ (EStateM.bind x _ c) at h
  unfold EStateM.bind at h ⊢
  cases hEq : x c with
  | error t c' =>
    rw [hEq] at h
    exact h
  | ok s c' =>
    rw [hEq] at h
    have hUnfinished : (pull (wrap s) stack).finished? = none := rfl
    refine .of_step hUnfinished ?_
    -- one step turns the search into what waits for it
    rw [hWrap]
    exact h.mono (Nat.sub_le _ _)

/-- The search was stopped after a result, and is asked for the next one. -/
theorem delivers_resumed {start : Context} {L : Listing o.Item} {shown : List String}
    {s : Search o} {s' : Search i} {p : Pending i o} {stack : Stack o} {c : Context}
    (hStep : (pull s stack).step Search.neverExhausted c = .ok (pull s' (.push p stack)) c)
    (h : Delivers start w L clock shown stack (.ok (pull s' (.push p stack)) c)) :
    Delivers start w L clock shown stack (.ok (pull s stack) c) := by
  have hUnfinished : (pull s stack).finished? = none := rfl
  refine .of_step hUnfinished ?_
  rw [hStep]
  exact h.mono (Nat.sub_le _ _)

/-- The part has found a result, and an action follows that makes the result of the whole. -/
theorem delivers_performed {start : Context} {x y : Eval o.Item} {rest : Search o}
    {X : Listing o.Item} {c d : Context} {stack : Stack o} (hForward : Forward x)
    (hx : Matches w' (AlikeItems o) x y) (hStart : start.Precedes c) (hle : w ≤ w')
    (hAgree : Agree w' c d)
    (hRest : ∀ c' stack', c.Precedes c' →
      Delivers start w X clock c'.output.toList stack' (.ok (pull rest stack') c')) :
    Delivers start w ((Listing.perform y d).append X) clock c.output.toList stack
      ((do return found (← x) rest stack : Eval Machine) c) := by
  -- as in binding, except that what is performed gives the result itself
  have hMeets := hx w' le_rfl c d hAgree
  show Delivers start w ((Listing.perform y d).append X) clock _ stack
    (EStateM.bind x (fun item => pure (found item rest stack)) c)
  unfold EStateM.bind
  cases hEq : x c with
  | error t c' =>
    rw [hEq] at hMeets
    cases hEq' : y d with
    | ok b d' =>
      rw [hEq'] at hMeets
      cases hMeets
    | error t' d' =>
      rw [hEq'] at hMeets
      cases hMeets with
      | error lines _ _ hReports hOutput hOutput' =>
        rw [Listing.perform_of_error hEq' hOutput', Listing.append, Listing.fold_say]
        refine .say ?_
        rw [← hOutput]
        exact .atFault (hStart.reports.trans hReports)
  | ok a c' =>
    rw [hEq] at hMeets
    cases hEq' : y d with
    | error t' d' =>
      rw [hEq'] at hMeets
      cases hMeets
    | ok b d' =>
      rw [hEq'] at hMeets
      cases hMeets with
      | ok lines hle₁ hAgree₁ hItem hReports hOutput hOutput' =>
        rw [Listing.perform_of_ok hEq' hOutput', Listing.append, Listing.fold_say]
        refine .say ?_
        rw [← hOutput]
        have hLater := (hForward c a c' hEq).precedes
        exact .atResult (hStart.trans hLater) (hle.trans hle₁) hAgree₁ hItem
          fun c'' stack' hLater' => hRest c'' stack' (hLater.trans hLater')

-- ---------------------------------------------------------------------------
-- Results made of results
-- ---------------------------------------------------------------------------

/-- From each result of the part, an action makes a result of the whole. -/
theorem lists_map {f : Mapping i o} {x : Eval (Search i)} {L : Context → Listing i.Item}
    {y : i.Item → Eval o.Item} (hx : Lists w clock x L)
    (hf : ∀ w', w ≤ w' → ∀ item a, AlikeItems i w' item a →
      Matches w' (AlikeItems o) (f.apply item) (y a)) :
    Lists w clock (do return .map f (← x)) fun d =>
      (L d).bind fun a d => Listing.perform (y a) d := by
  intro w' hle c d hAgree hUnbounded stack
  refine delivers_around (fun _ _ _ => rfl) (.fold ⟨rfl, rfl⟩ ?_ ?_
    (hx w' hle c d hAgree hUnbounded (.push (.map f) stack)))
  · intro s e stack hLater
    exact .of_step rfl (.atEnd hLater)
  · intro clock' a e item s c' w'' X stack _ hLater hle' hAgree' hItem hRest
    have hUnfinished : (found item s (.push (.map f) stack)).finished? = none := rfl
    refine .of_step hUnfinished (.mono ?_ (Nat.sub_le _ _))
    refine delivers_performed (f.forward_apply item) (hf w'' (hle.trans hle') item a hItem) hLater
      hle' hAgree' fun c'' stack' hLater' => ?_
    exact delivers_resumed rfl (hRest c'' stack' hLater')

/-- The results of a search that was started for a result, before those that the part has yet to
find. -/
theorem delivers_inner {f : Expansion i o} {outer : Search i} {start inside : Context}
    {L X : Listing o.Item} {shown : List String} {stack : Stack o} {r : Config}
    (hStart : start.Precedes inside) (hle : w ≤ w')
    (hOuter : ∀ c stack, inside.Precedes c →
      Delivers start w X clock c.output.toList stack (.ok (pull outer (.push (.outer f) stack)) c))
    (h : Delivers inside w' L clock shown (.push (.inner f outer) stack) r) :
    Delivers start w (L.append X) clock shown stack r := by
  refine .fold hStart.reports ?_ ?_ h
  · intro s c stack hLater
    exact .of_step rfl ((hOuter c stack hLater).mono (Nat.sub_le _ _))
  · intro clock' a d item s c w'' X' stack _ hLater hle' hAgree hItem hRest
    refine .of_step rfl (.mono ?_ (Nat.sub_le _ _))
    exact .atResult (hStart.trans hLater) (hle.trans hle') hAgree hItem
      fun c' stack' hLater' => delivers_resumed rfl (hRest c' stack' hLater')

/-- What is started for a result is started a step later. -/
theorem lists_expand {f : Expansion i o} {x : Eval (Search i)} {L : Context → Listing i.Item}
    {K : i.Item → Context → Listing o.Item} (hx : Lists w clock x L)
    (hf : ∀ w', w ≤ w' → ∀ item a, AlikeItems i w' item a →
      Lists w' (clock - 1) (f.apply item) (K a)) :
    Lists w clock (do return .bind f (← x)) fun d => (L d).bind K := by
  intro w' hle c d hAgree hUnbounded stack
  refine delivers_around (fun _ _ _ => rfl) (.fold ⟨rfl, rfl⟩ ?_ ?_
    (hx w' hle c d hAgree hUnbounded (.push (.outer f) stack)))
  · intro s e stack hLater
    exact .of_step rfl (.atEnd hLater)
  · intro clock' a e item s c' w'' X stack hClock hLater hle' hAgree' hItem hRest
    -- what the result leads to is listed first, and behind it what the further results lead to
    have hInner := hf w'' (hle.trans hle') item a hItem w'' le_rfl c' e hAgree'
      (hLater.unbounded hUnbounded) (.push (.inner f s) stack)
    have hUnfinished : (found item s (.push (.outer f) stack)).finished? = none := rfl
    refine .of_step hUnfinished ?_
    exact delivers_inner hLater hle'
      (fun c'' stack' hLater' => (hRest c'' stack' hLater').mono (Nat.sub_le _ _))
      (hInner.mono (Nat.sub_le_sub_right hClock 1))

-- ---------------------------------------------------------------------------
-- Frames
-- ---------------------------------------------------------------------------

/-- The frame that was entered is the innermost one in force. -/
theorem enter_leave {c d : Context} {f : FrameId} (h : (c.enter f).Precedes d) :
    d.leave.enter f = d := by
  have hInner : d.inner = f :: c.inner := h.inner_eq
  unfold Context.enter Context.leave
  dsimp only
  rw [hInner]
  show { d with inner := f :: c.inner } = d
  rw [← hInner]

/-- The frame is left with every result, and entered again when the next one is asked for. -/
theorem delivers_within {start : Context} {f : FrameId} {L : Listing k.Item} {shown : List String}
    {stack : Stack k} {r : Config}
    (h : Delivers (start.enter f) w L clock shown (.push (.within f) stack) r) :
    Delivers start w (L.bind fun a d => Listing.one a d.leave) clock shown stack r := by
  have hReports : start.Reports (start.enter f) := ⟨rfl, rfl⟩
  refine .fold hReports ?_ ?_ h
  · intro s e stack hLater
    exact .of_step rfl (.atEnd hLater.leave)
  · intro clock' a e item s c' w'' X stack _ hLater hle' hAgree' hItem hRest
    refine .of_step rfl (.mono ?_ (Nat.sub_le _ _))
    refine .atResult hLater.leave hle' hAgree'.leave hItem fun c'' stack' hLater' => ?_
    refine .of_step rfl (.mono (hRest (c''.enter f) stack' ?_) (Nat.sub_le _ _))
    exact enter_leave hLater ▸ hLater'.enter f

/-- The results inside a frame that was made before. -/
theorem lists_within {f g : FrameId} (hPair : w.frames.Pairs f g) {s : Search k}
    {L : Context → Listing k.Item} (hs : Lists w clock (pure s) L) :
    Lists w clock (pure (.within f s)) (Listing.inside g L) := by
  intro w' hle c d hAgree hUnbounded stack
  have hInside : Delivers (c.enter f) w' (L (d.enter g)) clock c.output.toList
      (.push (.within f) stack) (.ok (pull s (.push (.within f) stack)) (c.enter f)) :=
    hs w' hle (c.enter f) (d.enter g) (hAgree.enter (Renaming.frames_of_le hle hPair)) hUnbounded _
  exact .of_step rfl ((delivers_within hInside).mono (Nat.sub_le _ _))

/-- A search that is started inside a frame, and asked for results there. -/
theorem lists_enter {f g : FrameId} (hPair : w.frames.Pairs f g) {x : Eval (Search k)}
    {L : Context → Listing k.Item} (hForward : Forward x) (hx : Lists w clock x L) :
    Lists w clock (do Eval.enter f; let s ← x; Eval.leave; return .within f s)
      (Listing.inside g L) := by
  intro w' hle c d hAgree hUnbounded stack
  have hInside := hx w' hle (c.enter f) (d.enter g)
    (hAgree.enter (Renaming.frames_of_le hle hPair)) hUnbounded (.push (.within f) stack)
  have hWhole := delivers_within hInside
  change Delivers _ _ _ _ _ _ (EStateM.bind x _ (c.enter f)) at hWhole
  show Delivers _ _ _ _ _ _ (launch (do let s ← x; Eval.leave; return .within f s) stack
    (c.enter f))
  show Delivers _ _ _ _ _ _ (EStateM.bind (EStateM.bind x _) _ (c.enter f))
  unfold EStateM.bind at hWhole ⊢
  cases hEq : x (c.enter f) with
  | error t c' =>
    rw [hEq] at hWhole
    exact hWhole
  | ok s c' =>
    rw [hEq] at hWhole
    have hUnfinished : (pull (.within f s) stack).finished? = none := rfl
    refine .of_step hUnfinished (.mono ?_ (Nat.sub_le _ _))
    -- the frame is left once the search is made, and entered again when it is pulled
    have hBack : c'.leave.enter f = c' := enter_leave (hForward _ s c' hEq).precedes
    show Delivers _ _ _ _ _ _ (.ok (pull s (.push (.within f) stack)) (c'.leave.enter f))
    rw [hBack]
    exact hWhole

-- ---------------------------------------------------------------------------
-- Alternatives
-- ---------------------------------------------------------------------------

variable {deeper : Activity → Context → Listing Completion}

/-- The alternatives that are left of a choice that was entered in `c`. The context `e` is as of
that moment. -/
theorem delivers_alternatives {start c d : Context} (hStart : start.Precedes c)
    (hAgree : Agree w c d) (hUnbounded : c.Unbounded) (es : List Expr)
    (hEs : ∀ e ∈ es, Lists w clock e.start (e.list deeper)) {e : Context}
    (hLater : c.checkpoint.Precedes e) (hBack : Agree w e d) (stack : Stack .value) :
    Delivers (k := .value) start w (alternativesList deeper es d) clock e.output.toList stack
      (nextAlternative c.moment es stack e) := by
  have hNoted := Context.Precedes.checkpoint c
  induction es generalizing e stack with
  | nil => exact .atEnd (hStart.trans (hNoted.trans hLater))
  | cons expr es ih =>
    have hFirst := hEs expr List.mem_cons_self w le_rfl e d hBack
      ((hNoted.trans hLater).unbounded hUnbounded) (.push (.choosing c.moment es) stack)
    refine .fold (hStart.trans (hNoted.trans hLater)).reports ?_ ?_ hFirst
    · -- the alternative has no more results: back to where the choice was entered
      intro s e' stack hLater'
      refine .of_step rfl (.mono ?_ (Nat.sub_le _ _))
      have hAll := hLater.trans hLater'
      exact ih (fun e he => hEs e (List.mem_cons_of_mem _ he)) hAll.restore
        (hAgree.restore hAll) stack
    -- a result of the alternative is a result of the choice, and what comes after it is asked for
    -- inside the choice
    · intro clock' a d' item s e' w' X stack _ hLater' hle hAgree' hItem hRest
      refine .of_step rfl (.mono ?_ (Nat.sub_le _ _))
      exact .atResult (hStart.trans (hNoted.trans (hLater.trans hLater'))) hle hAgree' hItem
        fun c' stack' hLater'' => delivers_resumed rfl (hRest c' stack' hLater'')

/-- The alternatives of a choice, one after the other. -/
theorem lists_choice {es : List Expr} (hEs : ∀ e ∈ es, Lists w clock e.start (e.list deeper)) :
    Lists w clock (pure (.choice es)) (alternativesList deeper es) := by
  intro w' hle c d hAgree hUnbounded stack
  refine .of_step rfl (.mono ?_ (Nat.sub_le _ _))
  exact delivers_alternatives (.refl c) hAgree hUnbounded es
    (fun e he => (hEs e he).mono hle (Nat.le_refl _)) (.refl _) hAgree.checkpoint stack

-- ---------------------------------------------------------------------------
-- Lists of expressions
-- ---------------------------------------------------------------------------

/-- What follows the values of one operand: the values of the operands behind it, and with all of
them the combination. -/
theorem delivers_operand {start : Context} (rest : List Expr)
    (hRest : ∀ e ∈ rest, Lists w clock e.start (e.list deeper)) {inside : Context}
    (hStart : start.Precedes inside) (hUnbounded : inside.Unbounded) (hle : w ≤ w')
    {values values' : List Value} (hValues : List.Forall₂ (Value.Alike w') values values')
    {below : List Operand} {L : Listing Value} {M : Listing (List Value)} {shown : List String}
    {stack : Stack .tuple} {r : Config} (hClock : clock' ≤ clock)
    (hBelow : ∀ c stack, inside.Precedes c →
      Delivers (k := .tuple) start w M clock' c.output.toList stack
        (.ok (pullOperand below values.tail stack) c))
    (hPart : Delivers (k := .value) inside w' L clock' shown
      (.push (.operand rest below values) stack) r) :
    Delivers (k := .tuple) start w
      ((L.bind fun v d => (tuplesList deeper rest d).bind fun vs d =>
        Listing.one (values'.reverse ++ v :: vs) d).append M) clock' shown stack r := by
  -- by induction on the operands still to come; the values of those before are fixed, and what is
  -- left of them is asked again when this one is spent
  induction rest generalizing inside w' values values' below L M clock' shown stack r with
  | nil =>
    rw [Listing.bind_append]
    refine .fold hStart.reports (fun s c stack hLater => ?_) ?_ hPart
    · exact .of_step rfl ((hBelow c stack hLater).mono (Nat.sub_le _ _))
    · intro clock'' a d item s c w'' X stack _ hLater hle' hAgree hItem hAgain
      refine .of_step rfl (.mono ?_ (Nat.sub_le _ _))
      rw [tuplesList, Listing.one_bind]
      have hTuple : List.Forall₂ (Value.Alike w'') (item :: values).reverse (values'.reverse ++ [a]) := by
        rw [← List.reverse_cons]
        exact List.rel_reverse (.cons hItem (hValues.imp fun _ _ h => h.mono hle'))
      exact .atResult (hStart.trans hLater) (hle.trans hle') hAgree hTuple
        fun c' stack' hLater' => delivers_resumed rfl (hAgain c' stack' hLater')
  | cons e rest ih =>
    rw [Listing.bind_append]
    refine .fold hStart.reports (fun s c stack hLater => ?_) ?_ hPart
    · exact .of_step rfl ((hBelow c stack hLater).mono (Nat.sub_le _ _))
    · intro clock'' a d item s c w'' X stack hClock' hLater hle' hAgree hItem hAgain
      refine .of_step rfl (.mono ?_ (Nat.sub_le _ _))
      have hNext := hRest e List.mem_cons_self w'' (hle.trans hle') c d hAgree
        (hLater.unbounded hUnbounded)
        (.push (.operand rest (.mk (e :: rest) s :: below) (item :: values)) stack)
      -- for the operands that follow, this one is another operand below
      have hBoth := ih (fun e he => hRest e (List.mem_cons_of_mem _ he)) (hStart.trans hLater)
        (hLater.unbounded hUnbounded) (hle.trans hle')
        (.cons hItem (hValues.imp fun _ _ h => h.mono hle')) (Nat.le_trans hClock' hClock)
        hAgain (hNext.mono (Nat.le_trans hClock' hClock))
      have hEq : ((tuplesList deeper (e :: rest) d).bind fun vs d =>
            Listing.one (values'.reverse ++ a :: vs) d) =
          (e.list deeper d).bind fun v d => (tuplesList deeper rest d).bind fun vs d =>
            Listing.one ((a :: values').reverse ++ v :: vs) d := by
        rw [tuplesList, Listing.bind_assoc]
        simp only [Listing.bind_assoc, Listing.one_bind, List.reverse_cons, List.append_assoc,
          List.singleton_append]
      rw [hEq]
      exact hBoth

/-- The combinations of results, the last operand changing first. -/
theorem lists_product {es : List Expr} (hEs : ∀ e ∈ es, Lists w clock e.start (e.list deeper)) :
    Lists w clock (pure (.product es)) (tuplesList deeper es) := by
  intro w' hle c d hAgree hUnbounded stack
  refine .of_step rfl (.mono ?_ (Nat.sub_le _ _))
  -- below the first operand there is nothing to go back to
  have hNone : ∀ c' stack, c.Precedes c' →
      Delivers (k := .tuple) c w' .done clock c'.output.toList stack
        (.ok (pullOperand [] [] stack) c') := fun _ _ hLater => .atEnd hLater
  cases es with
  | nil =>
    exact .atResult (.refl c) le_rfl hAgree .nil fun c' stack' hLater =>
      .of_step rfl ((hNone c' stack' hLater).mono (Nat.sub_le _ _))
  | cons e rest =>
    have hFirst := hEs e List.mem_cons_self w' hle c d hAgree hUnbounded
      (.push (.operand rest [] []) stack)
    have hAll := delivers_operand rest
      (fun e he => (hEs e (List.mem_cons_of_mem _ he)).mono hle (Nat.le_refl _)) (.refl c)
      hUnbounded le_rfl .nil (Nat.le_refl _) hNone hFirst
    rw [Listing.append_done] at hAll
    exact hAll

end Eval

end AmbScript
