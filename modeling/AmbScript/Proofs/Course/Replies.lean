import AmbScript.Proofs.Course.Segments
import AmbScript.Proofs.Machine.Fresh
import AmbScript.Proofs.Machine.Spent

/-!
# Replies

What comes of asking a search for one result after the other, as long as one likes, in whatever
contexts.

* `Search.Replies` — the reply of a search that is asked in a context.
* `Search.Tells` — the last of several replies, the search being asked in one context after the
  other.
* `Search.replies_of_isExhausted`, `Search.Replies.isExhausted` — once a search has no more results
  it is exhausted, and it stays so.

A reply is defined by what the walk does above every stack, but it is enough to look at one of them:
the walk is the same above all, and where it is back, it is so with a reply.
-/

namespace AmbScript

open Machine Eval

variable {α : Type} {k : Kind}

-- ---------------------------------------------------------------------------
-- Without a result
-- ---------------------------------------------------------------------------

namespace Machine

/-- A search that was found to have no more results is known to have none. -/
def Exhausts (m : Machine) : Prop :=
  match m.walk with
  | .drained rest => rest.isExhausted = true
  | _ => True

/-- Statements that are given up, or all used up, have no more completions. -/
theorem exhausts_pullStatement (reached : List Reached) (commit : Option Nat)
    (stack : Stack .completion) : (pullStatement reached commit stack).Exhausts := by
  rcases reached with _ | ⟨⟨index, rest, s⟩, below⟩
  · rfl
  · unfold pullStatement
    dsimp only
    split
    · rfl
    · trivial

theorem exhausts_startStatement (index : Nat) (stmt : Stmt) (rest : List Stmt)
    (below : List Reached) (commit : Option Nat) (stack : Stack .completion) :
    Returns Exhausts (startStatement index stmt rest below commit stack) := by
  refine returns_bind fun _ => ?_
  exact returns_pure (exhausts_pullStatement _ _ _)

theorem exhausts_completeStatement (index : Nat) (rest : List Stmt) (completion : Completion)
    (reached : List Reached) (commit : Option Nat) (stack : Stack .completion) :
    Returns Exhausts (completeStatement index rest completion reached commit stack) := by
  unfold completeStatement
  split
  · exact exhausts_startStatement _ _ _ _ _ _
  · exact returns_pure trivial

/-- Without an open operand there are no more combinations. -/
theorem exhausts_pullOperand (operands : List Operand) (values : List Value)
    (stack : Stack .tuple) : (pullOperand operands values stack).Exhausts := by
  rcases operands with _ | ⟨⟨rest, s⟩, below⟩
  · rfl
  · trivial

theorem exhausts_fillOperand (operand : Operand) (below : List Operand) (values : List Value)
    (v : Value) (stack : Stack .tuple) :
    Returns Exhausts (fillOperand operand below values v stack) := by
  rcases operand with ⟨_ | ⟨e, rest⟩, s⟩
  · exact returns_pure trivial
  · exact returns_bind fun _ => returns_pure (exhausts_pullOperand _ _ _)

/-- Without an alternative there are no more values. -/
theorem exhausts_nextAlternative (start : Checkpoint) (alternatives : List Expr)
    (stack : Stack .value) : Returns Exhausts (nextAlternative start alternatives stack) := by
  cases alternatives with
  | nil => exact returns_pure rfl
  | cons e rest => exact returns_bind fun _ => returns_pure trivial

/-- Without an open part a loop has no more completions. -/
theorem exhausts_pullPhase (header : Loop) (phases : List Phase) (stack : Stack .completion) :
    Returns Exhausts (pullPhase header phases stack) := by
  match phases with
  | [] => exact returns_bind fun _ => returns_pure rfl
  | .init s :: below => exact returns_pure trivial
  | .test s :: below => exact returns_pure trivial
  | .body s :: below => exact returns_pure trivial
  | .update s :: below => exact returns_pure trivial

theorem exhausts_completeLoop (header : Loop) (phases : List Phase) (completion : Completion)
    (stack : Stack .completion) :
    Returns Exhausts (completeLoop header phases completion stack) :=
  returns_bind fun _ => returns_pure trivial

/-- A search that is asked and has no result is exhausted. -/
theorem exhausts_stepPull (s : Search k) (stack : Stack k) :
    Returns Exhausts (stepPull s stack) := by
  cases s with
  | once item =>
    cases item with
    | none => exact returns_pure rfl
    | some item => exact returns_pure trivial
  | map f inner => exact returns_pure trivial
  | bind f outer => exact returns_pure trivial
  | binding f outer inner => exact returns_pure trivial
  | within frame inner => exact returns_bind fun _ => returns_pure trivial
  | choice alternatives => exact returns_bind fun _ => exhausts_nextAlternative _ _ _
  | choosing start current alternatives =>
    cases current with
    | none => exact exhausts_nextAlternative _ _ _
    | some s => exact returns_pure trivial
  | product exprs =>
    cases exprs with
    | nil => exact returns_pure trivial
    | cons e rest => exact returns_bind fun _ => returns_pure (exhausts_pullOperand _ _ _)
  | producing operands values => exact returns_pure (exhausts_pullOperand _ _ _)
  | sequence statements =>
    cases statements with
    | nil => exact returns_pure trivial
    | cons stmt rest => exact exhausts_startStatement _ _ _ _ _ _
  | sequenced reached commit => exact returns_pure (exhausts_pullStatement _ _ _)
  | loop header =>
    exact returns_bind fun _ => returns_bind fun _ => exhausts_pullPhase _ _ _
  | looping header phases => exact returns_bind fun _ => exhausts_pullPhase _ _ _

/-- What waits does not say that there are no more results when one was found. -/
theorem exhausts_stepFound {i o : Kind} (item : i.Item) (rest : Search i) (p : Pending i o)
    (stack : Stack o) : Returns Exhausts (stepFound Search.isExhausted item rest p stack) := by
  cases p with
  | map f => exact returns_bind fun _ => returns_pure trivial
  | outer f => exact returns_bind fun _ => returns_pure trivial
  | inner f outer => exact returns_pure trivial
  | within frame => exact returns_bind fun _ => returns_pure trivial
  | choosing start alternatives => exact returns_pure trivial
  | operand exprs below values => exact exhausts_fillOperand _ _ _ _ _
  | statement index stmts below commit => exact exhausts_completeStatement _ _ _ _ _ _
  | init header below => exact returns_bind fun _ => exhausts_pullPhase _ _ _
  | test header below =>
    show Returns Exhausts (afterTest header _ item stack)
    unfold afterTest
    split
    · exact returns_bind fun _ => exhausts_pullPhase _ _ _
    · exact exhausts_completeLoop _ _ _ _
    · exact returns_throw _
  | body header below =>
    show Returns Exhausts (afterBody header _ item stack)
    unfold afterBody
    split
    · exact returns_bind fun _ => exhausts_pullPhase _ _ _
    · exact returns_bind fun _ => exhausts_pullPhase _ _ _
    · exact exhausts_completeLoop _ _ _ _
    · exact exhausts_completeLoop _ _ _ _
  | update header below => exact returns_bind fun _ => exhausts_pullPhase _ _ _

/-- It is exhausted with the search that it waits for, if nothing else is left to it. -/
theorem exhausts_stepDrained {i o : Kind} {rest : Search i} (h : rest.isExhausted = true)
    (p : Pending i o) (stack : Stack o) : Returns Exhausts (stepDrained rest p stack) := by
  cases p with
  | map f =>
    exact returns_pure (show (Search.map f rest).isExhausted = true by rwa [Search.isExhausted])
  | outer f =>
    exact returns_pure (show (Search.bind f rest).isExhausted = true by rwa [Search.isExhausted])
  | inner f outer => exact returns_pure trivial
  | within frame =>
    exact returns_bind fun _ =>
      returns_pure (show (Search.within frame rest).isExhausted = true by rwa [Search.isExhausted])
  | choosing start alternatives => exact returns_bind fun _ => exhausts_nextAlternative _ _ _
  | operand exprs below values => exact returns_pure (exhausts_pullOperand _ _ _)
  | statement index stmts below commit => exact returns_pure (exhausts_pullStatement _ _ _)
  | init header below => exact exhausts_pullPhase _ _ _
  | test header below => exact exhausts_pullPhase _ _ _
  | body header below => exact exhausts_pullPhase _ _ _
  | update header below => exact exhausts_pullPhase _ _ _

/-- A step from such a machine leads to such a machine. -/
theorem Exhausts.step {m : Machine} (h : m.Exhausts) :
    Returns Exhausts (m.step Search.isExhausted) := by
  obtain ⟨k, walk, stack⟩ := m
  cases walk with
  | pull s => exact exhausts_stepPull s stack
  | found item rest =>
    cases stack with
    | nil => exact returns_pure h
    | push p stack => exact exhausts_stepFound item rest p stack
  | drained rest =>
    cases stack with
    | nil => exact returns_pure h
    | push p stack => exact exhausts_stepDrained h p stack

theorem Exhausts.run {m : Machine} (h : m.Exhausts) (n : Nat) :
    Returns Exhausts (m.run Search.isExhausted n) := by
  induction n generalizing m with
  | zero => exact returns_pure h
  | succ n ih =>
    unfold Machine.run
    split
    · exact returns_pure h
    · exact h.step.bind fun _ => ih

end Machine

-- ---------------------------------------------------------------------------
-- Replies
-- ---------------------------------------------------------------------------

namespace Search

/-- The reply of the search when it is asked for a result. -/
def Replies (s : Search k) (c : Context) (r : EStateM.Result Fault Context (Reply k)) : Prop :=
  Machine.Replies (fun stack => pure (pull s stack)) c r

theorem uniform_ask (s : Search k) : Uniform fun stack => pure (pull s stack) :=
  uniform_pure (.pull s) .nil

/-- A search that has no more results is exhausted. -/
theorem Replies.isExhausted {s rest : Search k} {c d : Context}
    (h : s.Replies c (.ok (.drained rest) d)) : rest.isExhausted = true := by
  obtain ⟨j, h⟩ := h
  exact Exhausts.run (m := pull s (baseStack k)) trivial j c _ d (h (baseStack k)).1

end Search

namespace Machine

/-- What is brought to a stack tells the reply. -/
theorem deliver_injective {stack : Stack k} {r r' : EStateM.Result Fault Context (Reply k)}
    (h : deliver stack r = deliver stack r') : r = r' := by
  cases r with
  | error t d =>
    cases r' with
    | error t' d' =>
      cases h
      rfl
    | ok reply' d' => cases h
  | ok reply d =>
    cases r' with
    | error t' d' => cases h
    | ok reply' d' => cases reply <;> cases reply' <;> cases h <;> rfl

/-- There is one reply at most. -/
theorem Replies.unique {x : Stack k → Eval Machine} {c : Context}
    {r r' : EStateM.Result Fault Context (Reply k)} (h : Replies x c r) (h' : Replies x c r') :
    r = r' := by
  obtain ⟨j, h⟩ := h
  obtain ⟨n, h'⟩ := h'
  obtain ⟨-, hSame⟩ := (h (baseStack k)).unique (not_above_deliver _ r) (h' (baseStack k))
    (not_above_deliver _ r')
  exact deliver_injective hSame

/-- A walk that is not above a stack has come back to it with the reply. -/
theorem exists_replies {x : Stack k → Eval Machine} (hx : Uniform x) {c : Context} {stack : Stack k}
    {n : Nat} (h : ¬ Above stack (ahead n (x stack c))) :
    ∃ j r, j ≤ n ∧ Replies x c r ∧ Attains stack (x stack c) j (deliver stack r) := by
  rcases replies_or_stays hx c with ⟨r, j, hReplies⟩ | hStays
  · refine ⟨j, r, Nat.le_of_not_lt fun hLess => h ((hReplies stack).2 n hLess), ⟨j, hReplies⟩,
      hReplies stack⟩
  · exact absurd (hStays stack n) h

/-- A walk over searches of another kind is not back at the stack. -/
theorem ne_deliver {m : Machine} (hKind : m.kind ≠ k) (c : Context) {stack : Stack k}
    (r : EStateM.Result Fault Context (Reply k)) : .ok m c ≠ deliver stack r := by
  intro h
  cases r with
  | error t d => cases h
  | ok reply d => cases reply <;> cases h <;> exact hKind rfl

/-- What comes after a reply at the base is not another reply there. -/
theorem deliver_base {r r' : EStateM.Result Fault Context (Reply k)} {n : Nat}
    (h : ahead n (deliver (baseStack k) r) = deliver (baseStack k) r') : r = r' := by
  cases r with
  | error t d => exact deliver_injective h
  | ok reply d =>
    cases n with
    | zero =>
      rw [ahead_zero] at h
      exact deliver_injective h
    | succ n =>
      cases k with
      | value =>
        cases reply <;> exact deliver_injective ((run_of_finished rfl _ _).symm.trans h)
      | completion =>
        -- the next step ends the walk, with a value or without one
        have hKind : Kind.value ≠ Kind.completion := by decide
        cases reply <;> exact (ne_deliver hKind _ r' ((run_of_finished rfl n _).symm.trans h)).elim
      | tuple =>
        have hKind : Kind.value ≠ Kind.tuple := by decide
        cases reply <;> exact (ne_deliver hKind _ r' ((run_of_finished rfl n _).symm.trans h)).elim

/-- The reply is told by the walk to any one stack. -/
theorem Attains.replies {x : Stack k → Eval Machine} (hx : Uniform x) {c : Context}
    {stack : Stack k} {j : Nat} {r : EStateM.Result Fault Context Machine}
    (h : Attains stack (x stack c) j r) (hBack : ¬ Above stack r) :
    ∃ r', Replies x c r' ∧ r = deliver stack r' := by
  rcases replies_or_stays hx c with ⟨r', n, hReplies⟩ | hStays
  · exact ⟨r', ⟨n, hReplies⟩,
      (h.unique hBack (hReplies stack) (not_above_deliver stack r')).2⟩
  · exact absurd (h.1 ▸ hStays stack j) hBack

end Machine

namespace Search

/-- Asked for a result, an exhausted search has none, and the context is as it was. -/
theorem replies_of_isExhausted {s : Search k} (h : s.isExhausted = true) (c : Context) :
    ∃ rest, s.Replies c (.ok (.drained rest) c) ∧ rest.isExhausted = true := by
  obtain ⟨rest, ⟨n, hRun⟩, hExhausted⟩ := drains_of_spent (s.spent_of_isExhausted h) (baseStack k) c
  have hRun : ahead n (.ok (pull s (baseStack k)) c) =
      deliver (baseStack k) (.ok (.drained rest) c) := hRun
  obtain ⟨j, r, hLe, hReplies, hAttains⟩ :=
    exists_replies s.uniform_ask (c := c) (hRun ▸ not_above_deliver _ _)
  obtain ⟨i, rfl⟩ := Nat.exists_eq_add_of_le hLe
  rw [ahead_add] at hRun
  have hRun : ahead i (deliver (baseStack k) r) = _ := hAttains.1 ▸ hRun
  exact ⟨rest, deliver_base hRun ▸ hReplies, hExhausted⟩

end Search

-- ---------------------------------------------------------------------------
-- One reply after the other
-- ---------------------------------------------------------------------------

/-- What can be seen of a reply: not the search that is left. -/
inductive Event (α : Type)
  | done (left : Context)
  | fault (t : Fault) (left : Context)
  | result (item : α) (left : Context)

/-- What is seen of one reply. -/
def Event.ofReply {k : Kind} : EStateM.Result Fault Context (Reply k) → Event k.Item
  | .ok (.found item _) d => .result item d
  | .ok (.drained _) d => .done d
  | .error t d => .fault t d

/-- What is left of the search after a reply. -/
def Reply.rest : Reply k → Search k
  | .found _ rest => rest
  | .drained rest => rest

/-- The search is asked in `c`, and what is left of it in the contexts that follow; the event is
the last reply. -/
inductive Search.Tells {k : Kind} : Search k → Context → List Context → Event k.Item → Prop
  | now {s : Search k} {c : Context} {r : EStateM.Result Fault Context (Reply k)}
      (h : s.Replies c r) : Tells s c [] (.ofReply r)
  | later {s : Search k} {c d c' : Context} {reply : Reply k} {cs : List Context}
      {event : Event k.Item} (h : s.Replies c (.ok reply d)) (hRest : reply.rest.Tells c' cs event) :
      Tells s c (c' :: cs) event

end AmbScript
