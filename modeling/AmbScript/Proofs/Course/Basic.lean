import AmbScript.Proofs.Course.Replies
import AmbScript.Proofs.Listing.Delivery

/-!
# Courses

The course of a search is what it does when it is asked for one result after the other: its results
in order, each with the context that it leaves, then the end, or a fault. What it does next depends
on the context in which it is asked next; a course says it for every context.

A course may be known for a number of results only.

* `Course.each` — what becomes of all results of a course.
* `Search.course` — the course of a search, as far as a number of results.
* `Machine.Pursues` — the machine does what a course says; `Machine.Pursues.each` is the one rule
  for searches that wait for the results of a part.
* `Search.tells_iff` — a course that is pursued to any length tells all that a search does.

A search may run forever between two results, and whether it does cannot be decided by looking at
it. So `Search.course` is cut off after a number of results, and a clock is handed along with it:
where the course is unknown, the walk stays above the stack for as many steps as the clock says.
With every number allowed, nothing of what a search does is left out.
-/

namespace AmbScript

open Machine

variable {α β : Type} {i k o : Kind}

-- ---------------------------------------------------------------------------
-- Courses
-- ---------------------------------------------------------------------------

/-- What a search does when it is asked for one result after the other. -/
inductive Course (α : Type) : Type
  /-- What comes is not known. -/
  | unknown
  | done (left : Context)
  | fault (t : Fault) (left : Context)
  /-- What comes next depends on the context then. -/
  | result (item : α) (left : Context) (next : Context → Course α)

namespace Course

/-- What becomes of the results of a course: `f` goes on from a result, and from the context that it
leaves; its last argument is what is to be done when that has come to its end, which is to ask for
the next result. In the end `otherwise` is to be done. -/
def each (otherwise : Context → Course β)
    (f : α → Context → (Context → Course β) → Course β) : Course α → Course β
  | .unknown => .unknown
  | .done c => otherwise c
  | .fault t c => .fault t c
  | .result item c next => f item c fun c' => (next c').each otherwise f

/-- What is seen in the end when the next results are asked for in the contexts listed. -/
def told : Course α → List Context → Option (Event α)
  | .unknown, _ => none
  | .done c, [] => some (.done c)
  | .fault t c, [] => some (.fault t c)
  | .result item c _, [] => some (.result item c)
  | .done _, c :: cs => told (.done c) cs
  | .fault _ _, _ :: _ => none
  | .result _ _ next, c :: cs => told (next c) cs

/-- The first course says the same as the second, as far as it is known. -/
inductive Abridges : Course α → Course α → Prop
  | unknown (Q : Course α) : Abridges .unknown Q
  | done (c : Context) : Abridges (.done c) (.done c)
  | fault (t : Fault) (c : Context) : Abridges (.fault t c) (.fault t c)
  | result (item : α) (c : Context) {next next' : Context → Course α}
      (h : ∀ c', Abridges (next c') (next' c')) :
      Abridges (.result item c next) (.result item c next')

namespace Abridges

/-- A course says the same as itself. -/
theorem refl (P : Course α) : P.Abridges P := by
  induction P with
  | unknown => exact .unknown _
  | done c => exact .done c
  | fault t c => exact .fault t c
  | result item c next ih => exact .result item c ih

/-- What becomes of the results of courses one of which abridges the other. -/
theorem each {P Q : Course α} (h : P.Abridges Q) {otherwise otherwise' : Context → Course β}
    {f f' : α → Context → (Context → Course β) → Course β}
    (hOtherwise : ∀ c, (otherwise c).Abridges (otherwise' c))
    (hf : ∀ item c again again', (∀ c', (again c').Abridges (again' c')) →
      (f item c again).Abridges (f' item c again')) :
    (P.each otherwise f).Abridges (Q.each otherwise' f') := by
  induction h with
  | unknown Q => exact .unknown _
  | done c => exact hOtherwise c
  | fault t c => exact .fault t c
  | result item c _ ih => exact hf item c _ _ ih

/-- What is told by a course that is known less far is told by the other one. -/
theorem told {P Q : Course α} (h : P.Abridges Q) {cs : List Context} {event : Event α}
    (hTold : P.told cs = some event) : Q.told cs = some event := by
  induction cs generalizing P Q with
  | nil =>
    cases h with
    | unknown => cases hTold
    | _ => exact hTold
  | cons c' cs ih =>
    cases h with
    | unknown => cases hTold
    | done c => exact hTold
    | fault t c => cases hTold
    | result item c hNext => exact ih (hNext c') hTold

end Abridges

end Course

-- ---------------------------------------------------------------------------
-- The course of a search
-- ---------------------------------------------------------------------------

open Classical in
/-- The reply of the search in a context, if there is one. -/
noncomputable def Search.reply? (s : Search k) (c : Context) :
    Option (EStateM.Result Fault Context (Reply k)) :=
  if h : ∃ r, s.Replies c r then some h.choose else none

/-- What the search does for up to `n` results. -/
noncomputable def Search.course {k : Kind} : Nat → Search k → Context → Course k.Item
  | 0, _, _ => .unknown
  | n + 1, s, c =>
    match s.reply? c with
    | none => .unknown
    | some (.error t d) => .fault t d
    | some (.ok (.drained _) d) => .done d
    | some (.ok (.found item rest) d) =>
      .result item d fun c' => if rest.isExhausted then .done c' else course n rest c'

/-- What a search does that is to be started. -/
noncomputable def Eval.course (n : Nat) (x : Eval (Search k)) (c : Context) : Course k.Item :=
  match x c with
  | .ok s d => s.course n d
  | .error t d => .fault t d

-- ---------------------------------------------------------------------------
-- Courses that are pursued
-- ---------------------------------------------------------------------------

namespace Machine

/-- The walk comes back to the stack with what the course says, one result after the other; it is
the same above whatever stack it is asked to come back to. Where the course is not known the walk
does not come back for as many steps as the clock says. -/
def Pursues {k : Kind} : Course k.Item → Nat → Stack k → EStateM.Result Fault Context Machine → Prop
  | .unknown, clock, stack, r => ∀ i, i < clock → Above stack (ahead i r)
  | .done d, _, stack, r => ∃ j rest, Attains stack r j (.ok (drained rest stack) d)
  | .fault t d, _, stack, r => ∃ j, Attains stack r j (.error t d)
  | .result item d next, clock, stack, r => ∃ j rest,
      Attains stack r j (.ok (found item rest stack) d) ∧
        (rest.isExhausted = true → ∀ c, next c = .done c) ∧
          ∀ c stack', Pursues (next c) (clock - j) stack' (.ok (pull rest stack') c)

namespace Pursues

variable {P : Course k.Item} {clock clock' : Nat} {stack : Stack k}
  {r r' : EStateM.Result Fault Context Machine}

/-- A clock that is behind. -/
theorem mono (h : Pursues P clock stack r) (hClock : clock' ≤ clock) :
    Pursues P clock' stack r := by
  induction P generalizing clock clock' stack r with
  | unknown => exact fun i hi => h i (Nat.lt_of_lt_of_le hi hClock)
  | done d => exact h
  | fault t d => exact h
  | result item d next ih =>
    obtain ⟨j, rest, hAttains, hExhausted, hRest⟩ := h
    exact ⟨j, rest, hAttains, hExhausted, fun c stack' =>
      ih c (hRest c stack') (Nat.sub_le_sub_right hClock j)⟩

/-- What is pursued later is pursued now, if the walk is above the stack in between. -/
theorem of_attains {j : Nat} (hAttains : Attains stack r j r')
    (h : Pursues P (clock - j) stack r') : Pursues P clock stack r := by
  cases P with
  | unknown => exact fun i hi => hAttains.above_add h i (by omega)
  | done d =>
    obtain ⟨n, rest, hDrained⟩ := h
    exact ⟨j + n, rest, hAttains.trans hDrained⟩
  | fault t d =>
    obtain ⟨n, hFault⟩ := h
    exact ⟨j + n, hAttains.trans hFault⟩
  | result item d next =>
    obtain ⟨n, rest, hFound, hExhausted, hRest⟩ := h
    refine ⟨j + n, rest, hAttains.trans hFound, hExhausted, ?_⟩
    rwa [Nat.sub_sub] at hRest

/-- One step is taken, which the clock may count. -/
theorem of_counted_step {m : Machine} {c : Context} (hAbove : stack.height < m.level)
    (h : Pursues P (clock - 1) stack (m.step Search.isExhausted c)) :
    Pursues P clock stack (.ok m c) :=
  .of_attains (.step hAbove) h

/-- One step is taken, which the clock need not count. -/
theorem of_step {m : Machine} {c : Context} (hAbove : stack.height < m.level)
    (h : Pursues P clock stack (m.step Search.isExhausted c)) :
    Pursues P clock stack (.ok m c) :=
  .of_counted_step hAbove (h.mono (Nat.sub_le clock 1))

/-- The walk is at the end. -/
theorem atEnd {rest : Search k} {c : Context} :
    Pursues (.done c) clock stack (.ok (drained rest stack) c) := ⟨0, rest, .here _ _⟩

/-- The walk has failed. -/
theorem atFault {t : Fault} {c : Context} :
    Pursues (.fault t c : Course k.Item) clock stack (.error t c) := ⟨0, .here _ _⟩

/-- The walk is at a result. -/
theorem atResult {item : k.Item} {rest : Search k} {c : Context} {next : Context → Course k.Item}
    (hExhausted : rest.isExhausted = true → ∀ c', next c' = .done c')
    (hRest : ∀ c' stack', Pursues (next c') clock stack' (.ok (pull rest stack') c')) :
    Pursues (.result item c next) clock stack (.ok (found item rest stack) c) :=
  ⟨0, rest, .here _ _, hExhausted, hRest⟩

/-- A pending search that makes something of every result of its part. `hFound` says what it does
with a result, given that what is to be done afterwards is pursued when the part is asked again;
`hDrained` says what it does when the part has no more results. -/
theorem each {p : Pending i o} {P : Course i.Item} {otherwise : Context → Course o.Item}
    {f : i.Item → Context → (Context → Course o.Item) → Course o.Item} {clock : Nat}
    {stack : Stack o} {r : EStateM.Result Fault Context Machine}
    (hDrained : ∀ rest c stack,
      Pursues (otherwise c) clock stack (.ok (drained rest (.push p stack)) c))
    (hFound : ∀ clock' item rest c again stack, clock' ≤ clock →
      (rest.isExhausted = true → ∀ c', again c' = otherwise c') →
      (∀ c' stack', Pursues (again c') clock' stack' (.ok (pull rest (.push p stack')) c')) →
      Pursues (f item c again) clock' stack (.ok (found item rest (.push p stack)) c))
    (hPart : Pursues P clock (.push p stack) r) :
    Pursues (P.each otherwise f) clock stack r := by
  induction P generalizing clock stack r with
  | unknown => exact fun n hn => (hPart n hn).below
  | done d =>
    obtain ⟨j, rest, hAttains⟩ := hPart
    exact .of_attains hAttains.below ((hDrained rest d stack).mono (Nat.sub_le _ _))
  | fault t d =>
    obtain ⟨j, hAttains⟩ := hPart
    exact ⟨j, hAttains.below⟩
  | result item d next ih =>
    obtain ⟨j, rest, hAttains, hExhausted, hRest⟩ := hPart
    have hLess : clock - j ≤ clock := Nat.sub_le _ _
    -- The steps that the part has taken are taken off the clock for what comes after the result.
    refine .of_attains hAttains.below (hFound _ item rest d _ stack hLess ?_ fun c' stack' => ?_)
    · intro h c'
      rw [hExhausted h c']
      rfl
    · exact ih c' (fun rest c stack => (hDrained rest c stack).mono hLess)
        (fun clock' item rest c again stack hClock =>
          hFound clock' item rest c again stack (Nat.le_trans hClock hLess)) (hRest c' _)

end Pursues

-- ---------------------------------------------------------------------------
-- A search pursues its course
-- ---------------------------------------------------------------------------

/-- An exhausted search is at its end. -/
theorem pursues_exhausted {s : Search k} (h : s.isExhausted = true) (clock : Nat) (stack : Stack k)
    (c : Context) : Pursues (.done c) clock stack (.ok (pull s stack) c) := by
  obtain ⟨rest, ⟨j, hAttains⟩, -⟩ := s.replies_of_isExhausted h c
  exact ⟨j, rest, hAttains stack⟩

/-- The reply that is chosen is one. -/
theorem Search.replies_of_reply? {s : Search k} {c : Context}
    {r : EStateM.Result Fault Context (Reply k)} (h : s.reply? c = some r) : s.Replies c r := by
  unfold Search.reply? at h
  split at h
  · next hReplies =>
    cases h
    exact hReplies.choose_spec
  · cases h

/-- A search without a reply never comes back. -/
theorem above_of_reply? {s : Search k} {c : Context} (h : s.reply? c = none) (stack : Stack k)
    (n : Nat) : Above stack (ahead n (.ok (pull s stack) c)) := by
  unfold Search.reply? at h
  split at h
  · cases h
  · next hNone => exact (replies_or_stays s.uniform_ask c).resolve_left hNone stack n

/-- Every search pursues its course. -/
theorem pursues_course (n : Nat) (s : Search k) (c : Context) (stack : Stack k) :
    Pursues (s.course n c) n stack (.ok (pull s stack) c) := by
  induction n generalizing s c stack with
  | zero => exact fun i hi => absurd hi (Nat.not_lt_zero i)
  | succ n ih =>
    rw [Search.course]
    cases hReply : s.reply? c with
    | none => exact fun i _ => above_of_reply? hReply stack i
    | some r =>
      obtain ⟨j, hReplies⟩ := Search.replies_of_reply? hReply
      match r, hReplies with
      | .error t d, hReplies => exact ⟨j, hReplies stack⟩
      | .ok (.drained rest) d, hReplies => exact ⟨j, rest, hReplies stack⟩
      | .ok (.found item rest) d, hReplies =>
        -- asking takes a step at least
        have hLater : 0 < j := by
          refine Nat.pos_of_ne_zero fun hZero => ?_
          have hBack : (.ok (pull s stack) c : EStateM.Result Fault Context Machine) = _ :=
            (ahead_zero _).symm.trans (hZero ▸ (hReplies stack).1)
          cases hBack
        refine ⟨j, rest, hReplies stack, fun h c' => if_pos h, fun c' stack' => ?_⟩
        cases hExhausted : rest.isExhausted with
        | true => exact pursues_exhausted hExhausted _ stack' c'
        | false => exact (ih rest c' stack').mono (by omega)

/-- A search that is started pursues its course. -/
theorem pursues_launch (n : Nat) (x : Eval (Search k)) (c : Context) (stack : Stack k) :
    Pursues (Eval.course n x c) n stack (Eval.launch x stack c) := by
  unfold Eval.course
  show Pursues _ n stack (EStateM.bind x (fun s => pure (pull s stack)) c)
  rw [EStateM.bind]
  cases x c with
  | error t d => exact .atFault
  | ok s d => exact pursues_course n s d stack

end Machine

-- ---------------------------------------------------------------------------
-- What is told
-- ---------------------------------------------------------------------------

namespace Search

/-- The reply that a search comes back to a stack with. -/
theorem replies_of_attains {s : Search k} {c : Context} {stack : Stack k} {j : Nat}
    {r : EStateM.Result Fault Context (Reply k)}
    (h : Attains stack (.ok (pull s stack) c) j (deliver stack r)) : s.Replies c r := by
  obtain ⟨r', hReplies, hEq⟩ := Attains.replies s.uniform_ask h (not_above_deliver stack r)
  exact deliver_injective hEq ▸ hReplies

/-- What a course tells that is pursued, the search does. -/
theorem tells_of_told {P : Course k.Item} {clock : Nat} {stack : Stack k} {s : Search k}
    {c : Context} {cs : List Context} {event : Event k.Item}
    (h : Pursues P clock stack (.ok (pull s stack) c)) (hTold : P.told cs = some event) :
    s.Tells c cs event := by
  -- by induction on the contexts the search is asked again in: each takes off one reply of the
  -- course, and a search that has drained goes on draining
  induction cs generalizing P clock stack s c with
  | nil =>
    cases P with
    | unknown => cases hTold
    | done d =>
      cases hTold
      obtain ⟨j, rest, hAttains⟩ := h
      exact .now (replies_of_attains (r := .ok (.drained rest) d) hAttains)
    | fault t d =>
      cases hTold
      obtain ⟨j, hAttains⟩ := h
      exact .now (replies_of_attains (r := .error t d) hAttains)
    | result item d next =>
      cases hTold
      obtain ⟨j, rest, hAttains, -⟩ := h
      exact .now (replies_of_attains (r := .ok (.found item rest) d) hAttains)
  | cons c' cs ih =>
    cases P with
    | unknown => cases hTold
    | done d =>
      obtain ⟨j, rest, hAttains⟩ := h
      have hDrained := replies_of_attains (r := .ok (.drained rest) d) hAttains
      exact .later hDrained (ih (pursues_exhausted hDrained.isExhausted 0 stack c') hTold)
    | fault t d => cases hTold
    | result item d next =>
      obtain ⟨j, rest, hAttains, -, hRest⟩ := h
      exact .later (replies_of_attains (r := .ok (.found item rest) d) hAttains)
        (ih (hRest c' stack) hTold)

/-- What the search does, every course tells that is pursued for long enough. -/
theorem Tells.told {s : Search k} {c : Context} {cs : List Context} {event : Event k.Item}
    (h : s.Tells c cs event) : ∃ n, ∀ (P : Course k.Item) (clock : Nat) (stack : Stack k),
      n ≤ clock → Pursues P clock stack (.ok (pull s stack) c) → P.told cs = some event := by
  -- a course that is not known does not come back with a reply
  have hKnown {s : Search k} {c : Context} {r : EStateM.Result Fault Context (Reply k)} {j : Nat}
      (hReplies : ∀ stack, Attains stack (.ok (pull s stack) c) j (deliver stack r)) {clock : Nat}
      (hClock : j < clock) {stack : Stack k} :
      ¬ Pursues .unknown clock stack (.ok (pull s stack) c) := fun h =>
    not_above_deliver stack r ((hReplies stack).1 ▸ h j hClock)
  have hSame {s : Search k} {c : Context} {r : EStateM.Result Fault Context (Reply k)}
      (r' : EStateM.Result Fault Context (Reply k)) {j n : Nat}
      (hReplies : ∀ stack, Attains stack (.ok (pull s stack) c) j (deliver stack r))
      {stack : Stack k} (h : Attains stack (.ok (pull s stack) c) n (deliver stack r')) : r = r' :=
    Machine.Replies.unique ⟨j, hReplies⟩ (replies_of_attains h)
  induction h with
  | @now s c r hReplies =>
    obtain ⟨j, hReplies⟩ := hReplies
    refine ⟨j + 1, fun P clock stack hClock h => ?_⟩
    cases P with
    | unknown => exact absurd h (hKnown hReplies hClock)
    | done d =>
      obtain ⟨n, rest, hAttains⟩ := h
      rw [hSame (.ok (.drained rest) d) hReplies hAttains]
      rfl
    | fault t d =>
      obtain ⟨n, hAttains⟩ := h
      rw [hSame (.error t d) hReplies hAttains]
      rfl
    | result item d next =>
      obtain ⟨n, rest, hAttains, -⟩ := h
      rw [hSame (.ok (.found item rest) d) hReplies hAttains]
      rfl
  | @later s c d c' reply cs event hReplies hRest ih =>
    obtain ⟨n', ih⟩ := ih
    have hExhausted := @Replies.isExhausted k s
    obtain ⟨j, hReplies⟩ := hReplies
    refine ⟨j + n' + 1, fun P clock stack hClock h => ?_⟩
    cases P with
    | unknown => exact absurd h (hKnown hReplies (by omega))
    | done d =>
      obtain ⟨n, rest, hAttains⟩ := h
      cases hSame (.ok (.drained rest) d) hReplies hAttains
      exact ih (.done c') n' stack (Nat.le_refl _)
        (pursues_exhausted (hExhausted ⟨j, hReplies⟩) n' stack c')
    | fault t d =>
      obtain ⟨n, hAttains⟩ := h
      cases hSame (.error t d) hReplies hAttains
    | result item d next =>
      obtain ⟨n, rest, hAttains, -, hNext⟩ := h
      cases hSame (.ok (.found item rest) d) hReplies hAttains
      have hEq := ((hReplies stack).unique (not_above_deliver stack _) hAttains
        (not_above_deliver stack (.ok (.found item rest) d))).1
      exact ih (next c') (clock - n) stack (by omega) (hNext c' stack)

/-- The replies of a search are those of a course that is pursued to any length. -/
theorem tells_iff {s : Search k} {c : Context} {P : Nat → Course k.Item}
    (h : ∀ n stack, Pursues (P n) n stack (.ok (pull s stack) c)) (cs : List Context)
    (event : Event k.Item) : s.Tells c cs event ↔ ∃ n, (P n).told cs = some event := by
  refine ⟨fun hTells => ?_, fun ⟨n, hTold⟩ => tells_of_told (h n (baseStack k)) hTold⟩
  obtain ⟨n, hTold⟩ := hTells.told
  exact ⟨n, hTold (P n) n (baseStack k) (Nat.le_refl n) (h n (baseStack k))⟩

end Search

end AmbScript
