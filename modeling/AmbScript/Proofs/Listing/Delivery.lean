import AmbScript.Proofs.Listing.Actions
import AmbScript.Proofs.Listing.Nodes
import AmbScript.Proofs.Machine.Shedding

/-!
# Searches that deliver listings

A search delivers a listing if the machine, asked for one result after the other, finds what is
listed. Between two results anything may happen that the trail can take back; what is found next
does not depend on it.

Where a listing is unknown, the machine may do anything, as long as it takes its time: the clock
says how many steps at least it goes on.

* `Machine.Delivers` — from a configuration on, the machine finds what is listed.
* `Machine.Delivers.fold` — a pending search delivers what it makes of the results of its part.
  Every kind of search is a case of this.
* `Eval.Lists` — a search that is started delivers a listing, in all contexts that agree.
-/

namespace AmbScript

variable {α β : Type} {w w' : Renaming}

-- ---------------------------------------------------------------------------
-- Items
-- ---------------------------------------------------------------------------

/-- The same completion, up to names in its value. -/
inductive Completion.Alike (w : Renaming) : Completion → Completion → Prop
  | value {v v' : Value} (h : v.Alike w v') : Completion.Alike w (.value v) (.value v')
  | returns {v v' : Value} (h : v.Alike w v') : Completion.Alike w (.returns v) (.returns v')
  | breakLoop : Completion.Alike w .breakLoop .breakLoop
  | continueLoop : Completion.Alike w .continueLoop .continueLoop

/-- Items that are alike. -/
def AlikeItems : (k : Kind) → Renaming → k.Item → k.Item → Prop
  | .value => AlikeValues
  | .completion => fun w => Completion.Alike w
  | .tuple => fun w => List.Forall₂ (Value.Alike w)

/-- Items that are alike stay so when more frames and cells correspond. -/
theorem AlikeItems.mono {k : Kind} {item a : k.Item} (h : AlikeItems k w item a) (hle : w ≤ w') :
    AlikeItems k w' item a := by
  cases k with
  | value => exact Value.Alike.mono hle h
  | completion =>
    cases (h : Completion.Alike w item a) with
    | value h => exact .value (h.mono hle)
    | returns h => exact .returns (h.mono hle)
    | breakLoop => exact .breakLoop
    | continueLoop => exact .continueLoop
  | tuple => exact List.Forall₂.imp (fun _ _ h => Value.Alike.mono hle h) h

namespace Machine

-- ---------------------------------------------------------------------------
-- Configurations
-- ---------------------------------------------------------------------------

/-- Where a walk has got to: it may have ended in a fault. -/
abbrev Config := EStateM.Result Fault Context Machine

/-- Up to `n` steps further, none of the searches being dropped. -/
def after (n : Nat) : Config → Config
  | .ok m c => m.run Search.neverExhausted n c
  | .error t c => .error t c

theorem after_zero (r : Config) : after 0 r = r := by
  cases r <;> rfl

/-- One step and the others. -/
theorem after_succ {m : Machine} (h : m.finished? = none) (n : Nat) (c : Context) :
    after (n + 1) (.ok m c) = after n (m.step Search.neverExhausted c) := by
  show m.run Search.neverExhausted (n + 1) c = _
  rw [run_succ h]
  cases m.step Search.neverExhausted c <;> rfl

/-- A walk that is over goes no further. -/
theorem after_finished {m : Machine} {x : Option Value × Search .value} (h : m.finished? = some x)
    (n : Nat) (c : Context) : after n (.ok m c) = .ok m c := run_of_finished h n c

/-- Some steps and then others. -/
theorem after_add (i j : Nat) (r : Config) : after (i + j) r = after j (after i r) := by
  induction i generalizing r with
  | zero => rw [Nat.zero_add, after_zero]
  | succ i ih =>
    cases r with
    | error t c => rfl
    | ok m c =>
      cases h : m.finished? with
      | some x => rw [after_finished h, after_finished h, after_finished h]
      | none => rw [Nat.succ_add, after_succ h, after_succ h, ih]

/-- The walk is still under way. -/
def UnderWay (r : Config) : Prop := ∃ m c, r = .ok m c ∧ m.finished? = none

/-- A walk that is under way later is so before. -/
theorem underWay_of_after {r : Config} {j : Nat} (h : UnderWay (after j r)) {i : Nat} (hi : i ≤ j) :
    UnderWay (after i r) := by
  -- a configuration that has ended stays as it is, so one still under way was so before
  obtain ⟨k, rfl⟩ := Nat.exists_eq_add_of_le hi
  rw [after_add] at h
  revert h
  generalize after i r = r'
  intro h
  cases r' with
  | error t c =>
    obtain ⟨m, d, hEq, -⟩ := h
    cases hEq
  | ok m c =>
    cases hFinished : m.finished? with
    | none => exact ⟨m, c, rfl, hFinished⟩
    | some x =>
      rw [after_finished hFinished] at h
      obtain ⟨m', d, hEq, hUnfinished⟩ := h
      cases hEq
      rw [hFinished] at hUnfinished
      cases hUnfinished

/-- A walk that gets further under way was under way all the time. -/
theorem underWay_before {r : Config} {j : Nat} {m : Machine} {c : Context}
    (hAfter : after j r = .ok m c) (hUnfinished : m.finished? = none) {n : Nat}
    (h : ∀ i, i < n → UnderWay (after i (.ok m c))) {i : Nat} (hi : i < j + n) :
    UnderWay (after i r) := by
  by_cases hLate : j ≤ i
  · have hUnder := h (i - j) (by omega)
    rw [← hAfter, ← after_add, Nat.add_sub_cancel' hLate] at hUnder
    exact hUnder
  · exact underWay_of_after ⟨m, c, hAfter, hUnfinished⟩ (by omega)

/-- The walk gets to `r'` in `j` steps, and is under way until then. -/
def Arrives (r : Config) (j : Nat) (r' : Config) : Prop :=
  after j r = r' ∧ ∀ i, i < j → UnderWay (after i r)

namespace Arrives

/-- A walk is where it is. -/
theorem here (r : Config) : Arrives r 0 r := by
  refine ⟨after_zero r, ?_⟩
  intro _ hi
  exact absurd hi (Nat.not_lt_zero _)

/-- Where a walk arrives later, it arrives from before. -/
theorem of_after {r r' : Config} {i j : Nat} {m : Machine} {c : Context}
    (hAfter : after j r = .ok m c) (hUnfinished : m.finished? = none)
    (h : Arrives (.ok m c) i r') : Arrives r (j + i) r' := by
  refine ⟨?_, fun n hn => underWay_before hAfter hUnfinished h.2 hn⟩
  rw [after_add, hAfter]
  exact h.1

end Arrives

end Machine

-- ---------------------------------------------------------------------------
-- Delivery
-- ---------------------------------------------------------------------------

/-- No limit can be reached, and no stop has been asked for. -/
def Context.Unbounded (c : Context) : Prop := c.limits = .unlimited ∧ c.interrupted = false

/-- Limits do not come up later. -/
theorem Context.Precedes.unbounded {c d : Context} (h : c.Precedes d) (hUnbounded : c.Unbounded) :
    d.Unbounded := ⟨h.limits_eq.trans hUnbounded.1, h.interrupted_eq.trans hUnbounded.2⟩

/-- A later context reports faults alike. -/
theorem Context.Precedes.reports {c d : Context} (h : c.Precedes d) : c.Reports d :=
  ⟨h.errors_eq, h.source_eq⟩

namespace Machine

/-- The walk from the configuration on comes back to the stack with what is listed, one result
after the other. The context of each is a later one of `start`, and the renaming goes beyond `w`.
`shown` is what has been displayed when it comes to the listing. The walk stays under way for as
many steps as the clock says, where the listing is unknown. -/
def Delivers (start : Context) (w : Renaming) {k : Kind} :
    Listing k.Item → Nat → List String → Stack k → Config → Prop
  | .unknown, clock, _, _, r => ∀ i, i < clock → UnderWay (after i r)
  | .done, _, shown, stack, r => ∃ j s c,
      after j r = .ok (drained s stack) c ∧ start.Precedes c ∧ c.output.toList = shown
  | .fault t, _, shown, _, r => ∃ j c,
      after j r = .error t c ∧ start.Reports c ∧ c.output.toList = shown
  | .line text L, clock, shown, stack, r => Delivers start w L clock (shown ++ [text]) stack r
  | .result a d L, clock, shown, stack, r => ∃ j item s c w',
      Arrives r j (.ok (found item s stack) c) ∧ start.Precedes c ∧ c.output.toList = shown ∧
        w ≤ w' ∧ Agree w' c d ∧ AlikeItems k w' item a ∧
          ∀ c' stack', c.Precedes c' →
            Delivers start w L (clock - j) c'.output.toList stack' (.ok (pull s stack') c')

namespace Delivers

variable {start start' : Context} {k : Kind} {L : Listing k.Item} {clock clock' : Nat}
  {shown : List String} {stack : Stack k} {r : Config}

theorem weaken (h : Delivers start w L clock shown stack r) (hStart : start'.Precedes start)
    (hle : w' ≤ w) (hClock : clock' ≤ clock) : Delivers start' w' L clock' shown stack r := by
  induction L generalizing clock clock' shown stack r with
  | unknown => exact fun i hi => h i (Nat.lt_of_lt_of_le hi hClock)
  | done =>
    obtain ⟨j, s, c, hAfter, hLater, hShown⟩ := h
    exact ⟨j, s, c, hAfter, hStart.trans hLater, hShown⟩
  | fault t =>
    obtain ⟨j, c, hAfter, hReports, hShown⟩ := h
    exact ⟨j, c, hAfter, hStart.reports.trans hReports, hShown⟩
  | line text L ih => exact ih h hClock
  | result a d L ih =>
    obtain ⟨j, item, s, c, w₁, hAfter, hLater, hShown, hle₁, hAgree, hItem, hRest⟩ := h
    refine ⟨j, item, s, c, w₁, hAfter, hStart.trans hLater, hShown, hle.trans hle₁, hAgree, hItem,
      fun c' stack' hLater' => ?_⟩
    exact ih (hRest c' stack' hLater') (Nat.sub_le_sub_right hClock j)

/-- For a clock that runs out earlier. -/
theorem mono (h : Delivers start w L clock shown stack r) (hClock : clock' ≤ clock) :
    Delivers start w L clock' shown stack r := h.weaken (.refl _) le_rfl hClock

/-- What is delivered later is delivered now, if the walk was under way in between. -/
theorem of_after {j : Nat} {m : Machine} {c : Context} (hAfter : after j r = .ok m c)
    (hUnfinished : m.finished? = none)
    (h : Delivers start w L (clock - j) shown stack (.ok m c)) :
    Delivers start w L clock shown stack r := by
  -- whatever the listing says comes so many steps later
  have hAdd (i : Nat) : after (j + i) r = after i (.ok m c) := by rw [after_add, hAfter]
  induction L generalizing shown with
  | unknown => exact fun i hi => underWay_before hAfter hUnfinished h (by omega)
  | done =>
    obtain ⟨i, s, d, hDrained, hRest⟩ := h
    exact ⟨j + i, s, d, (hAdd i).trans hDrained, hRest⟩
  | fault t =>
    obtain ⟨i, d, hFault, hRest⟩ := h
    exact ⟨j + i, d, (hAdd i).trans hFault, hRest⟩
  | line text L ih => exact ih h
  | result a d L _ =>
    obtain ⟨i, item, s, e, w₁, hFound, hLater, hShown, hle, hAgree, hItem, hRest⟩ := h
    refine ⟨j + i, item, s, e, w₁, hFound.of_after hAfter hUnfinished, hLater, hShown, hle, hAgree,
      hItem, ?_⟩
    rwa [Nat.sub_sub] at hRest

theorem of_step {m : Machine} {c : Context} (hUnfinished : m.finished? = none)
    (h : Delivers start w L (clock - 1) shown stack (m.step Search.neverExhausted c)) :
    Delivers start w L clock shown stack (.ok m c) := by
  -- whatever the listing says comes one step later
  have hAdd (i : Nat) : after (1 + i) (.ok m c) = after i (m.step Search.neverExhausted c) := by
    rw [Nat.add_comm, after_succ hUnfinished]
  have hUnder {n : Nat} (h : ∀ i, i < n → UnderWay (after i (m.step Search.neverExhausted c)))
      (i : Nat) (hi : i < 1 + n) : UnderWay (after i (.ok m c)) := by
    cases i with
    | zero => exact ⟨m, c, rfl, hUnfinished⟩
    | succ i =>
      rw [Nat.add_comm, hAdd]
      exact h i (by omega)
  induction L generalizing shown with
  | unknown => exact fun i hi => hUnder h i (by omega)
  | done =>
    obtain ⟨i, s, d, hDrained, hRest⟩ := h
    exact ⟨1 + i, s, d, (hAdd i).trans hDrained, hRest⟩
  | fault t =>
    obtain ⟨i, d, hFault, hRest⟩ := h
    exact ⟨1 + i, d, (hAdd i).trans hFault, hRest⟩
  | line text L ih => exact ih h
  | result a d L _ =>
    obtain ⟨i, item, s, e, w₁, hFound, hLater, hShown, hle, hAgree, hItem, hRest⟩ := h
    refine ⟨1 + i, item, s, e, w₁, ⟨(hAdd i).trans hFound.1, hUnder hFound.2⟩, hLater, hShown, hle,
      hAgree, hItem, ?_⟩
    rwa [Nat.sub_sub] at hRest

/-- Lines that have been displayed. -/
theorem say {lines : List String} (h : Delivers start w L clock (shown ++ lines) stack r) :
    Delivers start w (L.say lines) clock shown stack r := by
  induction lines generalizing shown with
  | nil => rwa [List.append_nil] at h
  | cons text lines ih =>
    refine ih ?_
    rwa [List.append_assoc]

/-- The walk is at the end. -/
theorem atEnd {s : Search k} {c : Context} (hLater : start.Precedes c) :
    Delivers start w (.done : Listing k.Item) clock c.output.toList stack
      (.ok (drained s stack) c) := ⟨0, s, c, rfl, hLater, rfl⟩

/-- The walk is at a fault. -/
theorem atFault {t : Fault} {c : Context} (hReports : start.Reports c) :
    Delivers start w (.fault t : Listing k.Item) clock c.output.toList stack (.error t c) :=
  ⟨0, c, rfl, hReports, rfl⟩

/-- The walk is at a result. -/
theorem atResult {item a : k.Item} {s : Search k} {c d : Context} (hLater : start.Precedes c)
    (hle : w ≤ w') (hAgree : Agree w' c d) (hItem : AlikeItems k w' item a)
    (hRest : ∀ c' stack', c.Precedes c' →
      Delivers start w L clock c'.output.toList stack' (.ok (pull s stack') c')) :
    Delivers start w (.result a d L) clock c.output.toList stack (.ok (found item s stack) c) :=
  ⟨0, item, s, c, w', .here _, hLater, rfl, hle, hAgree, hItem, hRest⟩

/-- A pending search that makes something of every result of its part. `hFound` says what it does
with a result, given what it delivers from the next time on that the part is asked; `hDrained` says
what it does when the part has no more results. The part begins in a context of its own, `inside`,
which differs from `start` in the frames in force. -/
theorem fold {i o : Kind} {p : Pending i o} {start inside : Context} {w wPart : Renaming}
    {L : Listing i.Item} {f : i.Item → Context → Listing o.Item → Listing o.Item}
    {M : Listing o.Item} {clock : Nat} {shown : List String} {stack : Stack o} {r : Config}
    (hReports : start.Reports inside)
    (hDrained : ∀ s c stack, inside.Precedes c →
      Delivers start w M clock c.output.toList stack (.ok (drained s (.push p stack)) c))
    (hFound : ∀ clock' a d item s c w' X stack, clock' ≤ clock → inside.Precedes c → wPart ≤ w' →
      Agree w' c d → AlikeItems i w' item a →
      (∀ c' stack', c.Precedes c' →
        Delivers start w X clock' c'.output.toList stack' (.ok (pull s (.push p stack')) c')) →
      Delivers start w (f a d X) clock' c.output.toList stack (.ok (found item s (.push p stack)) c))
    (hPart : Delivers inside wPart L clock shown (.push p stack) r) :
    Delivers start w (L.fold f M) clock shown stack r := by
  -- by induction on the part's listing: where it ends the rest goes on, where it has a result the
  -- function goes on, asking the part again when it wants another
  induction L generalizing clock shown stack r with
  | unknown => exact hPart
  | done =>
    obtain ⟨j, s, c, hAfter, hLater, rfl⟩ := hPart
    exact .of_after hAfter rfl ((hDrained s c stack hLater).mono (Nat.sub_le _ _))
  | fault t =>
    obtain ⟨j, c, hAfter, hReports', hShown⟩ := hPart
    exact ⟨j, c, hAfter, hReports.trans hReports', hShown⟩
  | line text L ih => exact ih hDrained hFound hPart
  | result a d L ih =>
    obtain ⟨j, item, s, c, w', hAfter, hLater, rfl, hle, hAgree, hItem, hRest⟩ := hPart
    have hLess : clock - j ≤ clock := Nat.sub_le _ _
    refine .of_after hAfter.1 rfl
      (hFound _ a d item s c w' _ stack hLess hLater hle hAgree hItem fun c' stack' hLater' => ?_)
    refine ih (fun s c stack hLater => (hDrained s c stack hLater).mono hLess) ?_
      (hRest c' _ hLater')
    exact fun clock' a d item s c w' X stack hClock => hFound clock' a d item s c w' X stack
      (Nat.le_trans hClock hLess)

end Delivers

end Machine

-- ---------------------------------------------------------------------------
-- Searches that are started
-- ---------------------------------------------------------------------------

/-- A search is started and asked for a result. -/
def Eval.launch {k : Kind} (x : Eval (Search k)) (stack : Stack k) : Eval Machine := do
  return Machine.pull (← x) stack

namespace Eval

open Machine

/-- In contexts that agree, the search that `x` starts delivers what is listed. -/
def Lists (w : Renaming) (clock : Nat) {k : Kind} (x : Eval (Search k))
    (L : Context → Listing k.Item) : Prop :=
  ∀ w', w ≤ w' → ∀ c d, Agree w' c d → c.Unbounded → ∀ stack : Stack k,
    Delivers c w' (L d) clock c.output.toList stack (launch x stack c)

variable {k : Kind} {clock clock' : Nat}

/-- For more that corresponds, and a clock that runs out earlier. -/
theorem Lists.mono {x : Eval (Search k)} {L : Context → Listing k.Item} (h : Lists w clock x L)
    (hle : w ≤ w') (hClock : clock' ≤ clock) : Lists w' clock' x L := by
  intro w'' hle' c d hAgree hUnbounded stack
  exact (h w'' (hle.trans hle') c d hAgree hUnbounded stack).mono hClock

/-- An action that comes before a search is started. -/
theorem lists_bind {R : Renaming → α → β → Prop} {x : Eval α} {y : Eval β}
    {f : α → Eval (Search k)} {L : β → Context → Listing k.Item} (hForward : Forward x)
    (hx : Matches w R x y)
    (hf : ∀ w', w ≤ w' → ∀ a b, R w' a b → Lists w' clock (f a) (L b)) :
    Lists w clock (x >>= f) fun d => (Listing.perform y d).bind L := by
  intro w' hle c d hAgree hUnbounded stack
  -- the action meets its counterpart: both fail, having shown the same lines, or both go on from
  -- contexts that agree
  have hMeets := hx w' hle c d hAgree
  show Delivers c w' ((Listing.perform y d).bind L) clock _ stack
    (EStateM.bind (EStateM.bind x f) (fun s => pure (pull s stack)) c)
  unfold EStateM.bind
  cases hEq : x c with
  | error t c' =>
    rw [hEq] at hMeets
    cases hEq' : y d with
    | ok b d' =>
      rw [hEq'] at hMeets
      cases hMeets
    | error t' d' =>
      rw [hEq'] at hMeets
      cases hMeets with
      | error lines _ _ hReports hOutput hOutput' =>
        rw [Listing.perform_of_error hEq' hOutput', Listing.say_bind, Listing.fault_bind]
        refine .say ?_
        rw [← hOutput]
        exact .atFault hReports
  | ok a c' =>
    rw [hEq] at hMeets
    cases hEq' : y d with
    | error t' d' =>
      rw [hEq'] at hMeets
      cases hMeets
    | ok b d' =>
      rw [hEq'] at hMeets
      cases hMeets with
      | ok lines hle₁ hAgree₁ h hReports hOutput hOutput' =>
        rw [Listing.perform_of_ok hEq' hOutput', Listing.say_bind, Listing.one_bind]
        refine .say ?_
        rw [← hOutput]
        have hLater := (hForward c a c' hEq).precedes
        exact (hf _ (hle.trans hle₁) a b h _ le_rfl c' d' hAgree₁ (hLater.unbounded hUnbounded)
          stack).weaken hLater hle₁ (Nat.le_refl _)

/-- Without limits the count of steps does not matter. -/
theorem tick_unbounded {c : Context} (hUnbounded : c.Unbounded) (span : Span) :
    tick span c = .ok () c.counted := by
  obtain ⟨hLimits, hInterrupted⟩ := hUnbounded
  have hNone : c.counted.exceeded? span = none := by
    simp [Context.exceeded?, Context.exceeded?.overtime, Context.counted, hLimits, hInterrupted,
      Limits.unlimited]
  rw [tick_apply, hNone]

/-- A node is counted first, which no limit can stop. -/
theorem lists_tick (span : Span) {x : Eval (Search k)} {L : Context → Listing k.Item}
    (hx : Lists w clock x L) : Lists w clock (tick span >>= fun _ => x) L := by
  intro w' hle c d hAgree hUnbounded stack
  have hTick : launch (tick span >>= fun _ => x) stack c = launch x stack c.counted := by
    show EStateM.bind (EStateM.bind (tick span) fun _ => x) _ c = EStateM.bind x _ c.counted
    simp only [EStateM.bind, tick_unbounded hUnbounded]
  have hLater : c.Precedes c.counted := ⟨.refl _, Nat.le_refl _, rfl⟩
  rw [hTick]
  exact (hx w' hle c.counted d hAgree.counted (hLater.unbounded hUnbounded) stack).weaken hLater
    le_rfl (Nat.le_refl _)

/-- A search without results. -/
theorem lists_failed : Lists w clock (pure (.failed : Search k)) fun _ => .done := by
  intro w' _ c d _ _ stack
  exact .of_step rfl (.atEnd (.refl c))

/-- A search that cannot be started. -/
theorem lists_throw (t : Fault) :
    Lists w clock (throw t : Eval (Search k)) fun _ => .fault t :=
  fun _ _ _ _ _ _ _ => .atFault ⟨rfl, rfl⟩

/-- A search with one result. -/
theorem lists_found {item a : k.Item} (hItem : AlikeItems k w item a) :
    Lists w clock (pure (.found item)) (Listing.one a) := by
  intro w' hle c d hAgree _ stack
  refine .of_step rfl (.atResult (.refl c) le_rfl hAgree (hItem.mono hle) fun c' stack' hLater => ?_)
  exact .of_step rfl (.atEnd hLater)

/-- The result of an action is the only one. -/
theorem lists_perform {x y : Eval k.Item} (hForward : Forward x)
    (hx : Matches w (AlikeItems k) x y) :
    Lists w clock (do return .found (← x)) (Listing.perform y) := by
  have hBind : Lists w clock (do return .found (← x)) fun d => (Listing.perform y d).bind
      fun a c => Listing.one a c :=
    lists_bind hForward hx fun _ _ _ _ hItem => lists_found hItem
  simpa only [Listing.bind_one] using hBind

end Eval

end AmbScript
