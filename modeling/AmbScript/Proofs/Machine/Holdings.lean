import AmbScript.Proofs.Machine.Fresh
import AmbScript.Proofs.Machine.Run

/-!
# What a machine holds

Everything that a machine has found on its way and may still use, in the order in which it got
hold of it: values that wait for others, frames that it will enter again, and the choices it has
entered. A machine works like a stack in this respect: whatever a step gives up is last in that
order, so what was held before a choice was entered stays as it was while the choice is under way.

* `Holding` — a value, a frame or a choice under way with the frames around it.
* `Stack.frames` — the frames that a machine is inside of.
* `Machine.holdings` — what a machine holds, the earliest first.
* `Machine.holdings_step` — a step gives up the last holdings and adds new ones; a choice is added,
  or gone on with, in one way each.

The order is that of the stack of what waits, from the bottom up, and of the search that is asked on
top of it. A step changes only the top, so each lemma compares two lists that begin alike, and what
is said of a choice under way is said of the part of the list before it.
-/

namespace AmbScript

variable {retire : {k : Kind} → Search k → Bool}

-- ---------------------------------------------------------------------------
-- Holdings
-- ---------------------------------------------------------------------------

/-- A choice under way: the moment it was entered at, and the alternatives not yet begun. -/
structure OpenChoice where
  start : Checkpoint
  left : List Expr

/-- What a machine holds: a value, a frame, or a choice under way. -/
inductive Holding
  | value (v : Value)
  | frame (f : FrameId)
  /-- The frames that were entered around the choice, innermost first. -/
  | choice (o : OpenChoice) (around : List FrameId)

/-- The choice, if it is one. -/
def Holding.choice? : Holding → Option OpenChoice
  | choice o _ => some o
  | _ => none

/-- The values of a result. -/
def itemHoldings : {k : Kind} → k.Item → List Holding
  | .value, v => [.value v]
  | .completion, .value v => [.value v]
  | .completion, .returns v => [.value v]
  | .completion, _ => []
  | .tuple, vs => vs.map .value

/-- What was found before. -/
def Mapping.holdings {i o : Kind} : Mapping i o → List Holding
  | .binary _ left _ => [.value left]
  | .index object _ => [.value object]
  | _ => []

/-- The function that waits for its arguments. -/
def Expansion.holdings {i o : Kind} : Expansion i o → List Holding
  | .arguments function _ => [.value function]
  | _ => []

/-- The frame that is entered around the loop, if it has one. -/
def Loop.frames : Loop → List FrameId
  | .whileLoop .. => []
  | .forLoop _ _ _ _ frame => [frame]

/-- The frame of a loop is held as long as the loop is under way. -/
def Loop.holdings (header : Loop) : List Holding := header.frames.map .frame

mutual

/-- What a search holds that is asked for results inside the frames `around`. -/
def Search.holdings {k : Kind} (around : List FrameId) : Search k → List Holding
  | .once none => []
  | .once (some item) => itemHoldings item
  | .map f inner => f.holdings ++ inner.holdings around
  | .bind f outer => f.holdings ++ outer.holdings around
  | .binding f outer inner => f.holdings ++ outer.holdings around ++ inner.holdings around
  | .within frame inner => .frame frame :: inner.holdings (frame :: around)
  | .choice _ => []
  | .choosing _ none [] => []
  | .choosing start none (e :: rest) => [.choice ⟨start, e :: rest⟩ around]
  | .choosing start (some s) alternatives =>
    .choice ⟨start, alternatives⟩ around :: s.holdings around
  | .product _ => []
  | .producing [] values => values.reverse.map .value
  | .producing (.mk _ s :: below) values => filledHoldings around below values ++ s.holdings around
  | .sequence _ => []
  | .sequenced reached _ => reachedHoldings around reached
  | .loop header => header.holdings
  | .looping header phases => header.holdings ++ phaseHoldings (header.frames ++ around) phases

/-- Of operands that have found values: each is followed by its value. -/
def filledHoldings (around : List FrameId) : List Operand → List Value → List Holding
  | [], values => values.reverse.map .value
  | .mk _ s :: below, [] => filledHoldings around below [] ++ s.holdings around
  | .mk _ s :: below, v :: values =>
    filledHoldings around below values ++ s.holdings around ++ [.value v]

/-- Of the statements of a sequence that were reached, the first one first. -/
def reachedHoldings (around : List FrameId) : List Reached → List Holding
  | [] => []
  | .mk _ _ s :: below => reachedHoldings around below ++ s.holdings around

/-- Of the parts of a loop under way, the first one first. -/
def phaseHoldings (around : List FrameId) : List Phase → List Holding
  | [] => []
  | p :: below => phaseHoldings around below ++ p.holdings around

/-- What the search for a part of a loop holds. -/
def Phase.holdings (around : List FrameId) : Phase → List Holding
  | .init s => s.holdings around
  | .test s => s.holdings around
  | .body s => s.holdings around
  | .update s => s.holdings around

end

attribute [simp] Search.holdings filledHoldings reachedHoldings phaseHoldings Phase.holdings

/-- The frame that is left again when the part is done. -/
def Pending.frames {i o : Kind} : Pending i o → List FrameId
  | .within frame => [frame]
  | .init header _ => header.frames
  | .test header _ => header.frames
  | .body header _ => header.frames
  | .update header _ => header.frames
  | _ => []

/-- The frames that were entered around the part that is asked, innermost first. -/
def Stack.frames {k : Kind} : Stack k → List FrameId
  | .nil => []
  | .push p below => p.frames ++ below.frames

/-- What is held beside the part that is asked. -/
def Pending.holdings {i o : Kind} (around : List FrameId) : Pending i o → List Holding
  | .map f => f.holdings
  | .outer f => f.holdings
  | .inner f s => f.holdings ++ s.holdings around
  | .within frame => [.frame frame]
  | .choosing start alternatives => [.choice ⟨start, alternatives⟩ around]
  | .operand _ below values => filledHoldings around below values
  | .statement _ _ below _ => reachedHoldings around below
  | .init header below => header.holdings ++ phaseHoldings (header.frames ++ around) below
  | .test header below => header.holdings ++ phaseHoldings (header.frames ++ around) below
  | .body header below => header.holdings ++ phaseHoldings (header.frames ++ around) below
  | .update header below => header.holdings ++ phaseHoldings (header.frames ++ around) below

/-- What is held by all that waits, the outermost first. -/
def Stack.holdings {k : Kind} : Stack k → List Holding
  | .nil => []
  | .push p below => below.holdings ++ p.holdings below.frames

/-- What is held by the search that is asked, and the result it has found. -/
def Walk.holdings {k : Kind} (around : List FrameId) : Walk k → List Holding
  | .pull s => s.holdings around
  | .found item rest => rest.holdings around ++ itemHoldings item
  | .drained _ => []

/-- What the machine holds, the earliest first. -/
def Machine.holdings (m : Machine) : List Holding :=
  m.stack.holdings ++ m.walk.holdings m.stack.frames

/-- None of them is a choice. -/
def Choiceless (hs : List Holding) : Prop := ∀ h ∈ hs, h.choice? = none

/-- There is nothing that could be a choice. -/
theorem choiceless_nil : Choiceless [] := fun _ h => absurd h List.not_mem_nil

/-- One that is none, and others. -/
theorem choiceless_cons {h : Holding} {hs : List Holding} (hh : h.choice? = none)
    (hs' : Choiceless hs) : Choiceless (h :: hs) := List.forall_mem_cons.mpr ⟨hh, hs'⟩

theorem choiceless_append {hs hs' : List Holding} (h : Choiceless hs) (h' : Choiceless hs') :
    Choiceless (hs ++ hs') := List.forall_mem_append.mpr ⟨h, h'⟩

/-- A result has values only. -/
theorem choiceless_itemHoldings {k : Kind} (item : k.Item) : Choiceless (itemHoldings item) := by
  cases k with
  | value => exact choiceless_cons rfl choiceless_nil
  | completion =>
    cases item <;> first | exact choiceless_nil | exact choiceless_cons rfl choiceless_nil
  | tuple =>
    intro h hh
    obtain ⟨v, -, rfl⟩ := List.mem_map.mp hh
    rfl

/-- What waits to be used with a result is a value. -/
theorem Mapping.choiceless_holdings {i o : Kind} (f : Mapping i o) : Choiceless f.holdings := by
  cases f <;> first | exact choiceless_nil | exact choiceless_cons rfl choiceless_nil

/-- A function that waits for its arguments is a value. -/
theorem Expansion.choiceless_holdings {i o : Kind} (f : Expansion i o) : Choiceless f.holdings := by
  cases f <;> first | exact choiceless_nil | exact choiceless_cons rfl choiceless_nil

/-- The frame of a loop is a frame. -/
theorem Loop.choiceless_holdings (header : Loop) : Choiceless header.holdings := by
  cases header <;> first | exact choiceless_nil | exact choiceless_cons rfl choiceless_nil

/-- A search that was just started has entered no choice. -/
theorem Search.Fresh.choiceless_holdings {k : Kind} {s : Search k} (h : s.Fresh)
    (around : List FrameId) : Choiceless (s.holdings around) := by
  induction h generalizing around with
  | once item =>
    cases item with
    | none =>
      rw [Search.holdings]
      exact choiceless_nil
    | some item =>
      rw [Search.holdings]
      exact choiceless_itemHoldings item
  | map f _ ih =>
    rw [Search.holdings]
    exact choiceless_append f.choiceless_holdings (ih around)
  | bind f _ ih =>
    rw [Search.holdings]
    exact choiceless_append f.choiceless_holdings (ih around)
  -- a frame is held, but is no choice
  | within frame _ ih =>
    rw [Search.holdings]
    exact choiceless_cons rfl (ih _)
  | loop header =>
    rw [Search.holdings]
    exact header.choiceless_holdings
  | _ =>
    rw [Search.holdings]
    exact choiceless_nil

/-- A part of a loop that was just started has entered no choice. -/
theorem Phase.Fresh.choiceless_holdings {p : Phase} (h : p.Fresh) (around : List FrameId) :
    Choiceless (p.holdings around) := by
  cases p <;> (rw [Phase.holdings]; exact Search.Fresh.choiceless_holdings h around)

open Eval Search

-- ---------------------------------------------------------------------------
-- Parts of a step
-- ---------------------------------------------------------------------------

namespace Machine

/-- The machine holds the first part of the list, and nothing beyond that was a choice. -/
def Grows (L : List Holding) (m : Machine) : Prop :=
  ∃ kept new, kept <+: L ∧ Choiceless new ∧ m.holdings = kept ++ new

/-- All is kept, and what is added are no choices. -/
theorem grows_of_append {L new : List Holding} {m : Machine} (hBare : Choiceless new)
    (h : m.holdings = L ++ new) : m.Grows L := ⟨L, new, List.prefix_rfl, hBare, h⟩

/-- Where less was kept, so was less of more. -/
theorem Grows.mono {L L' : List Holding} {m : Machine} (h : m.Grows L) (hL : L <+: L') :
    m.Grows L' := by
  obtain ⟨kept, new, hKept, hBare, hHoldings⟩ := h
  exact ⟨kept, new, hKept.trans hL, hBare, hHoldings⟩

/-- The same list, written in another way. -/
theorem Grows.of_eq {L L' : List Holding} {m : Machine} (h : m.Grows L) (hL : L = L') :
    m.Grows L' := hL ▸ h

section

variable {k : Kind} (stack : Stack k)

/-- A search without more results is given up. -/
theorem grows_drained (rest : Search k) : (drained rest stack).Grows stack.holdings :=
  grows_of_append choiceless_nil rfl

/-- A search is asked with all that it holds. -/
theorem grows_pull (s : Search k) :
    (pull s stack).Grows (stack.holdings ++ s.holdings stack.frames) :=
  grows_of_append choiceless_nil (List.append_nil _).symm

/-- A search that was just started adds no choices. -/
theorem grows_pull_fresh {s : Search k} (h : s.Fresh) : (pull s stack).Grows stack.holdings :=
  grows_of_append (h.choiceless_holdings _) rfl

/-- A result adds its values. -/
theorem grows_found (item : k.Item) (rest : Search k) :
    (found item rest stack).Grows (stack.holdings ++ rest.holdings stack.frames) :=
  grows_of_append (choiceless_itemHoldings item) (List.append_assoc _ _ _).symm

end

/-- A choice without further alternatives is given up. -/
theorem grows_nextAlternative_nil (start : Checkpoint) (stack : Stack .value) :
    Returns (Grows stack.holdings) (nextAlternative start [] stack) :=
  returns_pure (grows_drained _ _)

/-- A choice with further alternatives is held with those behind the next one. -/
theorem holdings_nextAlternative_cons (start : Checkpoint) (e : Expr) (rest : List Expr)
    (stack : Stack .value) :
    Returns (fun m => m.finished? = none ∧ ∃ new, Choiceless new ∧
        m.holdings = stack.holdings ++ .choice ⟨start, rest⟩ stack.frames :: new)
      (nextAlternative start (e :: rest) stack) := by
  refine e.fresh_start.bind fun s hFresh =>
    returns_pure ⟨rfl, s.holdings stack.frames, hFresh.choiceless_holdings _, ?_⟩
  show (stack.holdings ++ [.choice ⟨start, rest⟩ stack.frames]) ++ s.holdings stack.frames = _
  rw [List.append_assoc, List.singleton_append]

/-- The operand started last is asked; the others are held with their values. -/
theorem grows_pullOperand (operands : List Operand) (values : List Value)
    (stack : Stack .tuple) :
    (pullOperand operands values stack).Grows
      (stack.holdings ++ (Search.producing operands values).holdings stack.frames) := by
  cases operands with
  | nil => exact (grows_drained _ _).mono (List.prefix_append _ _)
  | cons operand below =>
    obtain ⟨rest, s⟩ := operand
    refine (grows_pull _ s).of_eq ?_
    show (stack.holdings ++ filledHoldings stack.frames below values) ++ _ = _
    rw [Search.holdings, List.append_assoc]
    rfl

/-- The first operand has no choices yet. -/
theorem grows_startProduct (exprs : List Expr) (stack : Stack .tuple) :
    Returns (Grows stack.holdings) (startProduct exprs stack) := by
  cases exprs with
  | nil =>
    refine returns_pure ((grows_found _ _ _).of_eq ?_)
    simp
  | cons e rest =>
    refine e.fresh_start.bind fun s hFresh =>
      returns_pure ((grows_pull_fresh (.push (.operand rest [] []) stack) hFresh).of_eq ?_)
    show stack.holdings ++ filledHoldings stack.frames [] [] = _
    simp

/-- The value of an operand is added behind the operand. -/
theorem grows_fillOperand (exprs : List Expr) (s : Search .value) (below : List Operand)
    (values : List Value) (v : Value) (stack : Stack .tuple) :
    Returns
      (Grows (stack.holdings ++
        (filledHoldings stack.frames below values ++ s.holdings stack.frames ++ [.value v])))
      (fillOperand (.mk exprs s) below values v stack) := by
  cases exprs with
  | nil =>
    refine returns_pure ((grows_found _ _ _).mono ?_)
    rw [Search.holdings, List.prefix_append_right_inj]
    exact List.prefix_append _ _
  | cons e rest =>
    refine e.fresh_start.bind fun s' hFresh => returns_pure ((grows_pull_fresh
      (.push (.operand rest (.mk (e :: rest) s :: below) (v :: values)) stack) hFresh).of_eq ?_)
    show stack.holdings ++ filledHoldings _ _ _ = _
    rw [filledHoldings]

/-- The statement reached last is asked, or all of them are given up. -/
theorem grows_pullStatement (reached : List Reached) (commit : Option Nat)
    (stack : Stack .completion) :
    (pullStatement reached commit stack).Grows
      (stack.holdings ++ reachedHoldings stack.frames reached) := by
  unfold pullStatement
  split
  · exact (grows_drained _ _).mono (List.prefix_append _ _)
  · split
    · -- a later statement has committed, and all that these hold is given up
      exact (grows_drained _ _).mono (List.prefix_append _ _)
    · rename_i index rest s below _
      refine (grows_pull _ s).of_eq ?_
      show (stack.holdings ++ reachedHoldings stack.frames below) ++ s.holdings stack.frames = _
      rw [reachedHoldings, List.append_assoc]

/-- A statement that was just started is asked. -/
theorem grows_pullStatement_fresh (index : Nat) (rest : List Stmt) (below : List Reached)
    (commit : Option Nat) (stack : Stack .completion) {s : Search .completion}
    (hFresh : s.Fresh) :
    (pullStatement (.mk index rest s :: below) commit stack).Grows
      (stack.holdings ++ reachedHoldings stack.frames below) := by
  unfold pullStatement
  dsimp only
  split
  · exact (grows_drained _ _).mono (List.prefix_append _ _)
  · exact grows_pull_fresh (.push (.statement index rest below commit) stack) hFresh

/-- A statement is added behind those that were reached. -/
theorem grows_startStatement (index : Nat) (stmt : Stmt) (rest : List Stmt)
    (below : List Reached) (commit : Option Nat) (stack : Stack .completion) :
    Returns (Grows (stack.holdings ++ reachedHoldings stack.frames below))
      (startStatement index stmt rest below commit stack) := by
  exact stmt.fresh_start.bind fun s hFresh =>
    returns_pure (grows_pullStatement_fresh _ _ _ _ _ hFresh)

/-- The first statement is added. -/
theorem grows_startSequence (statements : List Stmt) (stack : Stack .completion) :
    Returns (Grows stack.holdings) (startSequence statements stack) := by
  cases statements with
  | nil =>
    refine returns_pure ((grows_found _ _ _).of_eq ?_)
    simp
  | cons stmt rest =>
    have h := grows_startStatement 0 stmt rest [] none stack
    rw [reachedHoldings, List.append_nil] at h
    exact h

/-- The next statement is added, or the sequence has a result. -/
theorem grows_completeStatement (index : Nat) (rest : List Stmt) (completion : Completion)
    (reached : List Reached) (commit : Option Nat) (stack : Stack .completion) :
    Returns (Grows (stack.holdings ++ reachedHoldings stack.frames reached))
      (completeStatement index rest completion reached commit stack) := by
  unfold completeStatement
  split
  · exact grows_startStatement _ _ _ _ _ _
  · refine returns_pure ((grows_found _ _ _).of_eq ?_)
    rw [Search.holdings]

section

variable (header : Loop) (phases : List Phase) (stack : Stack .completion)

/-- What the phases hold of a loop that was entered. -/
theorem grows_pullPhase :
    Returns (Grows (stack.holdings ++ (Search.looping header phases).holdings stack.frames))
      (pullPhase header phases stack) := by
  unfold pullPhase
  split
  · exact returns_bind fun _ =>
      returns_pure ((grows_drained _ _).mono (List.prefix_append _ _))
  all_goals
    refine returns_pure ((grows_pull _ _).of_eq ?_)
    rw [Stack.holdings, Pending.holdings, Stack.frames, Pending.frames, Search.holdings,
      phaseHoldings, Phase.holdings]
    simp only [List.append_assoc]

/-- A phase that was just started is asked. -/
theorem grows_pullPhase_fresh {p : Phase} (hFresh : p.Fresh) :
    Returns (Grows (stack.holdings ++ (Search.looping header phases).holdings stack.frames))
      (pullPhase header (p :: phases) stack) := by
  rw [Search.holdings]
  cases p with
  | init s => exact returns_pure (grows_pull_fresh (.push (.init header phases) stack) hFresh)
  | test s => exact returns_pure (grows_pull_fresh (.push (.test header phases) stack) hFresh)
  | body s => exact returns_pure (grows_pull_fresh (.push (.body header phases) stack) hFresh)
  | update s => exact returns_pure (grows_pull_fresh (.push (.update header phases) stack) hFresh)

/-- The loop keeps its parts behind its result. -/
theorem grows_completeLoop (completion : Completion) :
    Returns (Grows (stack.holdings ++ (Search.looping header phases).holdings stack.frames))
      (completeLoop header phases completion stack) := by
  refine returns_bind fun _ => ?_
  exact returns_pure (grows_found _ _ _)

/-- The body is added, or the loop has a result. -/
theorem grows_afterTest (test : Value) :
    Returns (Grows (stack.holdings ++ (Search.looping header phases).holdings stack.frames))
      (afterTest header phases test stack) := by
  unfold afterTest
  split
  · exact (fresh_startBody _).bind fun _ h => grows_pullPhase_fresh _ _ _ h
  · exact grows_completeLoop _ _ _ _
  · exact returns_throw _

/-- The next part is added, or the loop has a result. -/
theorem grows_afterBody (completion : Completion) :
    Returns (Grows (stack.holdings ++ (Search.looping header phases).holdings stack.frames))
      (afterBody header phases completion stack) := by
  unfold afterBody
  split
  · exact (fresh_startUpdate _).bind fun _ h => grows_pullPhase_fresh _ _ _ h
  · exact (fresh_startUpdate _).bind fun _ h => grows_pullPhase_fresh _ _ _ h
  · exact grows_completeLoop _ _ _ _
  · exact grows_completeLoop _ _ _ _

end

/-- What is dropped was last. -/
theorem prefix_phaseHoldings_keep (around : List FrameId) (dropped : Bool) (p : Phase)
    (below : List Phase) :
    phaseHoldings around (keep dropped p below) <+:
      phaseHoldings around below ++ p.holdings around := by
  cases dropped with
  | false =>
    have hSame : phaseHoldings around (p :: below) =
        phaseHoldings around below ++ p.holdings around := by rw [phaseHoldings]
    exact hSame ▸ List.prefix_rfl
  | true => exact List.prefix_append _ _

theorem prefix_reachedHoldings_keep (around : List FrameId) (dropped : Bool) (index : Nat)
    (rest : List Stmt) (s : Search .completion) (below : List Reached) :
    reachedHoldings around (keep dropped (.mk index rest s) below) <+:
      reachedHoldings around below ++ s.holdings around := by
  cases dropped with
  | false =>
    have hSame : reachedHoldings around (.mk index rest s :: below) =
        reachedHoldings around below ++ s.holdings around := by rw [reachedHoldings]
    exact hSame ▸ List.prefix_rfl
  | true => exact List.prefix_append _ _

/-- Without the last value it is again the last operand's turn. -/
theorem prefix_producing_tail (around : List FrameId) (below : List Operand)
    (values : List Value) :
    (Search.producing below values.tail).holdings around <+:
      filledHoldings around below values := by
  cases below with
  | nil =>
    cases values with
    | nil => simp
    | cons v values => simp
  | cons operand below =>
    obtain ⟨rest, s⟩ := operand
    cases values with
    | nil => simp
    | cons v values => simp

-- ---------------------------------------------------------------------------
-- The step
-- ---------------------------------------------------------------------------

/-- What a step may do to the holdings, when it takes `m` to `m'` at the moment `now`. -/
inductive Shift (now : Checkpoint) (m m' : Machine) : Prop
  /-- The last ones are given up, and others are added. -/
  | grows (h : m'.Grows m.holdings)
  /-- One more choice is entered. -/
  | enters (e : Expr) (left : List Expr) (outside : Stack .value) (new : List Holding)
      (hChoice : m = pull (.choice (e :: left)) outside) (hAsks : m'.finished? = none)
      (hBare : Choiceless new)
      (hHoldings : m'.holdings = m.holdings ++ .choice ⟨now, left⟩ outside.frames :: new)
  /-- A choice, which comes last, goes on to its next alternative. -/
  | next (earlier : List Holding) (start : Checkpoint) (e : Expr) (left : List Expr)
      (around : List FrameId) (new : List Holding) (hAsks : m'.finished? = none)
      (hBare : Choiceless new)
      (hHoldings : m.holdings = earlier ++ [.choice ⟨start, e :: left⟩ around])
      (hNext : m'.holdings = earlier ++ .choice ⟨start, left⟩ around :: new)

/-- On the way down a search is taken apart into what waits and the part that is asked. -/
theorem shift_pull {i o : Kind} {s : Search o} {inner : Search i} {p : Pending i o} {stack : Stack o}
    (hParts : s.holdings stack.frames =
      p.holdings stack.frames ++ inner.holdings (p.frames ++ stack.frames)) (now : Checkpoint) :
    Shift now (pull s stack) (pull inner (.push p stack)) := by
  refine .grows ((grows_pull (.push p stack) inner).of_eq ?_)
  show (stack.holdings ++ p.holdings stack.frames) ++ inner.holdings (p.frames ++ stack.frames) =
    stack.holdings ++ s.holdings stack.frames
  rw [hParts, List.append_assoc]

/-- A search is asked for a result. -/
theorem holdings_stepPull {k : Kind} {s : Search k} {stack : Stack k} {c d : Context}
    {m : Machine} (h : stepPull s stack c = .ok m d) : Shift c.moment (pull s stack) m := by
  cases s with
  | once item =>
    cases item with
    | none =>
      exact .grows ((returns_pure (grows_drained _ _) _ _ _ h).mono (List.prefix_append _ _))
    | some item =>
      refine .grows ((returns_pure (grows_found _ _ _) _ _ _ h).mono ?_)
      rw [Search.failed, Search.holdings, List.append_nil]
      exact List.prefix_append _ _
  | map f inner | bind f outer | binding f outer inner | within frame inner =>
    cases h
    refine shift_pull ?_ _
    rw [Search.holdings]
    rfl
  | choice alternatives =>
    obtain ⟨start, e, hNote, hNext⟩ := bind_eq_ok.mp h
    cases hNote
    cases alternatives with
    | nil =>
      exact .grows ((grows_nextAlternative_nil _ _ _ _ _ hNext).mono (List.prefix_append _ _))
    -- this is where a choice is entered
    | cons e left =>
      obtain ⟨hAsks, new, hBare, hHoldings⟩ := holdings_nextAlternative_cons _ _ _ _ _ _ _ hNext
      refine .enters e left stack new rfl hAsks hBare ?_
      rw [hHoldings]
      show _ = (stack.holdings ++ (Search.choice _).holdings _) ++ _
      rw [Search.holdings, List.append_nil]
  | choosing start current alternatives =>
    cases current with
    | none =>
      cases alternatives with
      | nil =>
        exact .grows ((grows_nextAlternative_nil _ _ _ _ _ h).mono (List.prefix_append _ _))
      | cons e left =>
        obtain ⟨hAsks, new, hBare, hHoldings⟩ := holdings_nextAlternative_cons _ _ _ _ _ _ _ h
        refine .next stack.holdings start e left stack.frames new hAsks hBare ?_ hHoldings
        show stack.holdings ++ (Search.choosing start none (e :: left)).holdings stack.frames = _
        rw [Search.holdings]
    | some s =>
      cases h
      refine shift_pull ?_ _
      rw [Search.holdings]
      rfl
  | product exprs =>
    exact .grows ((grows_startProduct _ _ _ _ _ h).mono (List.prefix_append _ _))
  | producing operands values =>
    exact .grows (returns_pure (grows_pullOperand _ _ _) _ _ _ h)
  | sequence statements =>
    exact .grows ((grows_startSequence _ _ _ _ _ h).mono (List.prefix_append _ _))
  | sequenced reached commit =>
    refine .grows ((returns_pure (grows_pullStatement _ _ _) _ _ _ h).of_eq ?_)
    show _ = stack.holdings ++ (Search.sequenced reached commit).holdings stack.frames
    rw [Search.holdings]
  | loop header =>
    have hAsk : Returns
        (Grows (stack.holdings ++ (Search.looping header []).holdings stack.frames))
        (stepPull (.loop header) stack) :=
      returns_bind fun _ => (fresh_startLoop header).bind fun _ hFresh =>
        grows_pullPhase_fresh header [] stack hFresh
    refine .grows ((hAsk _ _ _ h).of_eq ?_)
    show _ = stack.holdings ++ (Search.loop header).holdings stack.frames
    simp
  | looping header phases =>
    have hAsk : Returns
        (Grows (stack.holdings ++ (Search.looping header phases).holdings stack.frames))
        (stepPull (.looping header phases) stack) :=
      returns_bind fun _ => grows_pullPhase header phases stack
    exact .grows (hAsk _ _ _ h)

/-- A part of a loop has found something, and is kept if it may find more. -/
theorem prefix_looping_keep (header : Loop) (below : List Phase) (p : Phase) (dropped : Bool)
    (stack : Stack .completion) (new : List Holding) :
    stack.holdings ++ (Search.looping header (keep dropped p below)).holdings stack.frames <+:
      (stack.holdings ++
          (header.holdings ++ phaseHoldings (header.frames ++ stack.frames) below)) ++
        (p.holdings (header.frames ++ stack.frames) ++ new) := by
  rw [Search.holdings, List.append_assoc, List.append_assoc, List.prefix_append_right_inj,
    List.prefix_append_right_inj, ← List.append_assoc]
  exact (prefix_phaseHoldings_keep _ _ _ _).trans (List.prefix_append _ _)

/-- A result is used by what waits for it. What is dropped with it was last. -/
theorem grows_stepFound {i o : Kind} (item : i.Item) (rest : Search i) (p : Pending i o)
    (stack : Stack o) :
    Returns (Grows (found item rest (.push p stack)).holdings)
      (stepFound retire item rest p stack) := by
  -- outermost first: the stack's holdings, those of the search waiting, and what the search below
  -- and the item hold; whatever the step drops stands at the inner end
  show Returns (Grows ((stack.holdings ++ p.holdings stack.frames) ++
    (rest.holdings (p.frames ++ stack.frames) ++ itemHoldings item))) _
  cases p with
  | map f =>
    refine returns_bind fun _ => returns_pure ((grows_found _ _ _).mono ?_)
    rw [Search.holdings, Pending.holdings, List.append_assoc, List.prefix_append_right_inj,
      List.prefix_append_right_inj]
    exact List.prefix_append _ _
  | outer f =>
    refine (f.fresh_apply _).bind fun s hFresh =>
      returns_pure ((grows_pull_fresh (.push (.inner f rest) stack) hFresh).mono ?_)
    show stack.holdings ++ (f.holdings ++ rest.holdings stack.frames) <+: _
    rw [Pending.holdings, List.append_assoc, List.prefix_append_right_inj,
      List.prefix_append_right_inj]
    exact List.prefix_append _ _
  -- an exhausted search is dropped, and with it what it held
  | inner f outer =>
    refine returns_pure ((grows_found _ _ _).mono ?_)
    rw [Pending.holdings, List.append_assoc, List.prefix_append_right_inj, ← List.append_assoc]
    split
    · rw [Search.holdings, List.append_assoc (f.holdings ++ _)]
      exact List.prefix_append _ _
    · rw [Search.holdings]
      exact List.prefix_append _ _
  | within frame =>
    refine returns_bind fun _ => returns_pure ((grows_found _ _ _).mono ?_)
    rw [Search.holdings, Pending.holdings, List.append_assoc, List.prefix_append_right_inj]
    exact List.prefix_append _ _
  | choosing start alternatives =>
    refine returns_pure ((grows_found _ _ _).mono ?_)
    rw [Search.holdings, Pending.holdings, List.append_assoc, List.prefix_append_right_inj]
    exact List.prefix_append _ _
  | operand exprs below values =>
    intro c m d h
    refine (grows_fillOperand _ _ _ _ _ _ _ _ _ h).of_eq ?_
    rw [List.append_assoc, List.append_assoc]
    rfl
  | statement index stmts below commit =>
    intro c m d h
    refine (grows_completeStatement _ _ _ _ _ _ _ _ _ h).mono ?_
    rw [Pending.holdings, List.append_assoc, List.prefix_append_right_inj, ← List.append_assoc]
    exact (prefix_reachedHoldings_keep _ _ _ _ _ _).trans (List.prefix_append _ _)
  | init header below =>
    refine (fresh_startTest header).bind fun p hFresh => ?_
    intro c m d h
    refine (grows_pullPhase_fresh header _ _ hFresh _ _ _ h).mono ?_
    exact prefix_looping_keep header below (.init rest) _ _ _
  | test header below =>
    intro c m d h
    refine (grows_afterTest _ _ _ _ _ _ _ h).mono ?_
    exact prefix_looping_keep header below (.test rest) _ _ _
  | body header below =>
    intro c m d h
    refine (grows_afterBody _ _ _ _ _ _ _ h).mono ?_
    exact prefix_looping_keep header below (.body rest) _ _ _
  | update header below =>
    refine (fresh_startTest header).bind fun p hFresh => ?_
    intro c m d h
    refine (grows_pullPhase_fresh header _ _ hFresh _ _ _ h).mono ?_
    exact prefix_looping_keep header below (.update rest) _ _ _

/-- A part has no more results, and is given up. A choice goes on to its next alternative. -/
theorem holdings_stepDrained {i o : Kind} {rest : Search i} {p : Pending i o} {stack : Stack o}
    {c d : Context} {m : Machine} (h : stepDrained rest p stack c = .ok m d) :
    Shift c.moment (drained rest (.push p stack)) m := by
  have hMachine : (drained rest (.push p stack)).holdings =
      stack.holdings ++ p.holdings stack.frames := List.append_nil _
  -- all but a choice itself give the part up and go on with what lies below it
  have hBelow {L : List Holding} (hL : L <+: stack.holdings ++ p.holdings stack.frames)
      (hm : m.Grows L) : Shift c.moment (drained rest (.push p stack)) m :=
    .grows (hMachine ▸ hm.mono hL)
  cases p with
  | map f => exact hBelow (List.prefix_append _ _) (returns_pure (grows_drained _ _) _ _ _ h)
  | outer f => exact hBelow (List.prefix_append _ _) (returns_pure (grows_drained _ _) _ _ _ h)
  | inner f outer =>
    refine hBelow List.prefix_rfl ((returns_pure (grows_pull _ _) _ _ _ h).of_eq ?_)
    show (stack.holdings ++ f.holdings) ++ outer.holdings stack.frames = _
    rw [List.append_assoc]
    rfl
  | within frame =>
    have hLeave : Returns (Grows stack.holdings) (stepDrained rest (.within frame) stack) :=
      returns_bind fun _ => returns_pure (grows_drained _ _)
    exact hBelow (List.prefix_append _ _) (hLeave _ _ _ h)
  | choosing start alternatives =>
    obtain ⟨u, e, hRestore, hNext⟩ := bind_eq_ok.mp h
    cases alternatives with
    | nil => exact hBelow (List.prefix_append _ _) (grows_nextAlternative_nil _ _ _ _ _ hNext)
    | cons e left =>
      obtain ⟨hAsks, new, hBare, hHoldings⟩ := holdings_nextAlternative_cons _ _ _ _ _ _ _ hNext
      exact .next stack.holdings start e left stack.frames new hAsks hBare hMachine hHoldings
  | operand exprs below values =>
    refine hBelow ?_ (returns_pure (grows_pullOperand _ _ _) _ _ _ h)
    rw [List.prefix_append_right_inj]
    exact prefix_producing_tail _ _ _
  | statement index stmts below commit =>
    exact hBelow List.prefix_rfl (returns_pure (grows_pullStatement _ _ _) _ _ _ h)
  | init header below | test header below | body header below | update header below =>
    refine hBelow List.prefix_rfl ((grows_pullPhase _ _ _ _ _ _ h).of_eq ?_)
    rw [Search.holdings, Pending.holdings]

/-- A step gives up the last holdings and adds others. Only where a choice is entered, or goes on,
is a choice among these. -/
theorem holdings_step {m m' : Machine} {c d : Context} (h : m.step retire c = .ok m' d) :
    Shift c.moment m m' := by
  obtain ⟨k, walk, stack⟩ := m
  cases walk with
  | pull s => exact holdings_stepPull h
  | found item rest =>
    cases stack with
    | nil =>
      refine .grows ((returns_pure (grows_found _ _ _) _ _ _ h).mono ?_)
      exact List.prefix_append _ _
    | push p below => exact .grows (grows_stepFound _ _ _ _ _ _ _ h)
  | drained rest =>
    cases stack with
    | nil =>
      exact .grows ((returns_pure (grows_drained _ _) _ _ _ h).mono (List.prefix_append _ _))
    | push p below => exact holdings_stepDrained h

/-- A value that the machine ends with is the last thing that it holds. -/
theorem holdings_of_finished {m : Machine} {v : Value} {rest : Search .value}
    (h : m.finished? = some (some v, rest)) : m.holdings = rest.holdings [] ++ [.value v] := by
  unfold finished? at h
  split at h
  · cases h
    rfl
  · cases h
  · cases h

end Machine

end AmbScript
