import AmbScript.Proofs.Machine.Holdings

/-!
# Choices under way

The choices that a machine has entered and not yet finished, the earliest first. They are nested:
the last one is the one that the walk is inside of.

* `Machine.choices` — the choices under way.
* `Machine.choices_eq` — they are the choices among the machine's holdings.
* `Search.Fresh.choices_eq` — a search that was just started has entered none.
* `Machine.choices_step` — a step gives up the last ones, enters one more, or goes on to the next
  alternative of the last one.

What a step does to the holdings of a machine is known already. So the choices are read off them,
and the form of a step does not have to be looked at again.
-/

namespace AmbScript

variable {retire : {k : Kind} → Search k → Bool}

-- ---------------------------------------------------------------------------
-- Choices under way
-- ---------------------------------------------------------------------------

mutual

/-- The choices under way in a search, the earliest first. -/
def Search.choices {k : Kind} : Search k → List OpenChoice
  | .once _ => []
  | .map _ inner => inner.choices
  | .bind _ outer => outer.choices
  | .binding _ outer inner => outer.choices ++ inner.choices
  | .within _ inner => inner.choices
  | .choice _ => []
  | .choosing _ none [] => []
  | .choosing start none (e :: rest) => [⟨start, e :: rest⟩]
  | .choosing start (some s) alternatives => ⟨start, alternatives⟩ :: s.choices
  | .product _ => []
  | .producing operands _ => operandChoices operands
  | .sequence _ => []
  | .sequenced reached _ => reachedChoices reached
  | .loop _ => []
  | .looping _ phases => phaseChoices phases

/-- The choices under way in the operands, those of the first operand first. -/
def operandChoices : List Operand → List OpenChoice
  | [] => []
  | .mk _ s :: below => operandChoices below ++ s.choices

/-- The choices under way in the statements that a sequence has reached. -/
def reachedChoices : List Reached → List OpenChoice
  | [] => []
  | .mk _ _ s :: below => reachedChoices below ++ s.choices

/-- The choices under way in the parts of a loop. -/
def phaseChoices : List Phase → List OpenChoice
  | [] => []
  | p :: below => phaseChoices below ++ p.choices

/-- Whichever part of the loop it is. -/
def Phase.choices : Phase → List OpenChoice
  | .init s => s.choices
  | .test s => s.choices
  | .body s => s.choices
  | .update s => s.choices

end

attribute [simp] Search.choices operandChoices reachedChoices phaseChoices Phase.choices

/-- The choices entered by what waits, without those of the part that it waits for. -/
def Pending.choices {i o : Kind} : Pending i o → List OpenChoice
  | .map _ => []
  | .outer _ => []
  | .inner _ s => s.choices
  | .within _ => []
  | .choosing start alternatives => [⟨start, alternatives⟩]
  | .operand _ below _ => operandChoices below
  | .statement _ _ below _ => reachedChoices below
  | .init _ below => phaseChoices below
  | .test _ below => phaseChoices below
  | .body _ below => phaseChoices below
  | .update _ below => phaseChoices below

/-- What was pushed later has entered its choices later. -/
def Stack.choices {k : Kind} : Stack k → List OpenChoice
  | .nil => []
  | .push p below => below.choices ++ p.choices

/-- The choices of the search that the walk is at. -/
def Walk.choices {k : Kind} : Walk k → List OpenChoice
  | .pull s => s.choices
  | .found _ rest => rest.choices
  | .drained _ => []

/-- The choices under way, the earliest first. -/
def Machine.choices (m : Machine) : List OpenChoice := m.stack.choices ++ m.walk.choices

/-- A search that was just started has entered no choice. -/
theorem Search.Fresh.choices_eq {k : Kind} {s : Search k} (h : s.Fresh) : s.choices = [] := by
  induction h with
  | map f _ ih | bind f _ ih | within frame _ ih =>
    rw [Search.choices]
    exact ih
  | _ => rw [Search.choices]

-- ---------------------------------------------------------------------------
-- Choices among the holdings
-- ---------------------------------------------------------------------------

/-- The choices among the holdings, in the same order. -/
def choicesAmong (hs : List Holding) : List OpenChoice := hs.filterMap Holding.choice?

/-- There are none where nothing is held. -/
@[simp] theorem choicesAmong_nil : choicesAmong [] = [] := rfl

/-- Holdings one after the other. -/
@[simp] theorem choicesAmong_append (hs hs' : List Holding) :
    choicesAmong (hs ++ hs') = choicesAmong hs ++ choicesAmong hs' := List.filterMap_append

/-- A choice is among them. -/
@[simp] theorem choicesAmong_choice (o : OpenChoice) (around : List FrameId) (hs : List Holding) :
    choicesAmong (.choice o around :: hs) = o :: choicesAmong hs := rfl

/-- A frame is no choice. -/
@[simp] theorem choicesAmong_frame (f : FrameId) (hs : List Holding) :
    choicesAmong (.frame f :: hs) = choicesAmong hs := rfl

@[simp] theorem choicesAmong_value (v : Value) (hs : List Holding) :
    choicesAmong (.value v :: hs) = choicesAmong hs := rfl

/-- Holdings of which none is a choice. -/
theorem Choiceless.choicesAmong_eq {hs : List Holding} (h : Choiceless hs) : choicesAmong hs = [] :=
  List.filterMap_eq_nil_iff.mpr h

/-- A result holds values at most. -/
@[simp] theorem choicesAmong_itemHoldings {k : Kind} (item : k.Item) :
    choicesAmong (itemHoldings item) = [] := (choiceless_itemHoldings item).choicesAmong_eq

/-- Several values. -/
@[simp] theorem choicesAmong_values (vs : List Value) : choicesAmong (vs.map .value) = [] :=
  choicesAmong_itemHoldings (k := .tuple) vs

/-- What is done to each result holds no choice. -/
@[simp] theorem Mapping.choicesAmong_holdings {i o : Kind} (f : Mapping i o) :
    choicesAmong f.holdings = [] := f.choiceless_holdings.choicesAmong_eq

@[simp] theorem Expansion.choicesAmong_holdings {i o : Kind} (f : Expansion i o) :
    choicesAmong f.holdings = [] := f.choiceless_holdings.choicesAmong_eq

@[simp] theorem Loop.choicesAmong_holdings (header : Loop) : choicesAmong header.holdings = [] :=
  header.choiceless_holdings.choicesAmong_eq

mutual

/-- The choices of a search are those among its holdings, whatever frames are around it. By
induction on the search, together with the lists of its parts. -/
theorem Search.choices_eq {k : Kind} (around : List FrameId) :
    ∀ s : Search k, s.choices = choicesAmong (s.holdings around)
  | .once none => by simp
  | .once (some item) => by simp
  | .map f inner => by simp [inner.choices_eq around]
  | .bind f outer => by simp [outer.choices_eq around]
  | .binding f outer inner => by simp [outer.choices_eq around, inner.choices_eq around]
  | .within frame inner => by simp [inner.choices_eq (frame :: around)]
  | .choice _ => by simp
  | .choosing _ none [] => by simp
  | .choosing start none (e :: rest) => by simp
  | .choosing start (some s) alternatives => by simp [s.choices_eq around]
  | .product _ => by simp
  | .producing [] values => by simp [-List.map_reverse]
  | .producing (.mk _ s :: below) values => by
    simp [s.choices_eq around, operandChoices_eq around below values]
  | .sequence _ => by simp
  | .sequenced reached _ => by simp [reachedChoices_eq around reached]
  | .loop header => by simp
  | .looping header phases => by simp [phaseChoices_eq (header.frames ++ around) phases]

/-- The same for operands, the values found for them lying in between. -/
theorem operandChoices_eq (around : List FrameId) : ∀ (below : List Operand) (values : List Value),
    operandChoices below = choicesAmong (filledHoldings around below values)
  | [], values => by simp [-List.map_reverse]
  | .mk _ s :: below, [] => by simp [s.choices_eq around, operandChoices_eq around below []]
  | .mk _ s :: below, v :: values => by
    simp [s.choices_eq around, operandChoices_eq around below values]

theorem reachedChoices_eq (around : List FrameId) : ∀ reached : List Reached,
    reachedChoices reached = choicesAmong (reachedHoldings around reached)
  | [] => by simp
  | .mk _ _ s :: below => by simp [s.choices_eq around, reachedChoices_eq around below]

theorem phaseChoices_eq (around : List FrameId) : ∀ phases : List Phase,
    phaseChoices phases = choicesAmong (phaseHoldings around phases)
  | [] => by simp
  | p :: below => by simp [p.choices_eq around, phaseChoices_eq around below]

theorem Phase.choices_eq (around : List FrameId) : ∀ p : Phase,
    p.choices = choicesAmong (p.holdings around)
  | .init s => by simp [s.choices_eq around]
  | .test s => by simp [s.choices_eq around]
  | .body s => by simp [s.choices_eq around]
  | .update s => by simp [s.choices_eq around]

end

theorem Pending.choices_eq {i o : Kind} (around : List FrameId) (p : Pending i o) :
    p.choices = choicesAmong (p.holdings around) := by
  cases p with
  | operand exprs below values => exact operandChoices_eq around below values
  | init header below | test header below | body header below | update header below =>
    simp [Pending.choices, Pending.holdings, phaseChoices_eq (header.frames ++ around)]
  | _ => simp [Pending.choices, Pending.holdings, Search.choices_eq around,
      reachedChoices_eq around]

theorem Stack.choices_eq {k : Kind} (stack : Stack k) :
    stack.choices = choicesAmong stack.holdings := by
  induction stack with
  | nil => rfl
  | push p below ih =>
    rw [Stack.choices, Stack.holdings, choicesAmong_append, ih, p.choices_eq below.frames]

namespace Machine

/-- The choices under way are those among the holdings, in the same order. -/
theorem choices_eq (m : Machine) : m.choices = choicesAmong m.holdings := by
  obtain ⟨k, walk, stack⟩ := m
  rw [choices, holdings, choicesAmong_append, stack.choices_eq]
  cases walk with
  | pull s => rw [Walk.choices, Walk.holdings, s.choices_eq stack.frames]
  | found item rest =>
    rw [Walk.choices, Walk.holdings, choicesAmong_append, rest.choices_eq stack.frames,
      choicesAmong_itemHoldings, List.append_nil]
  | drained rest => rfl

-- ---------------------------------------------------------------------------
-- The step
-- ---------------------------------------------------------------------------

/-- The machine has given up choices of the list at most, the last ones first. -/
def Within (L : List OpenChoice) (m : Machine) : Prop := m.choices <+: L

/-- What a step may do to the choices under way, when it takes `m` to `m'` at the moment `now`. -/
inductive Turn (now : Checkpoint) (m m' : Machine) : Prop
  /-- The last ones are given up. -/
  | within (h : m'.Within m.choices)
  /-- One more is entered. -/
  | enters (e : Expr) (left : List Expr) (outside : Stack .value)
      (hChoice : m = pull (.choice (e :: left)) outside)
      (hChoices : m'.choices = m.choices ++ [⟨now, left⟩])
  /-- The last one goes on to its next alternative. -/
  | next (earlier : List OpenChoice) (start : Checkpoint) (e : Expr) (left : List Expr)
      (hChoices : m.choices = earlier ++ [⟨start, e :: left⟩])
      (hNext : m'.choices = earlier ++ [⟨start, left⟩])

/-- A step turns the choices under way in one of the three ways, since this is what it does to the
holdings. -/
theorem choices_step {m m' : Machine} {c d : Context} (h : m.step retire c = .ok m' d) :
    Turn c.moment m m' := by
  have hShift := holdings_step h
  cases hShift with
  -- a step that asks only adds holdings that are no choices
  | grows hGrows =>
    obtain ⟨kept, new, hKept, hBare, hHoldings⟩ := hGrows
    refine .within ?_
    rw [Within, choices_eq, choices_eq, hHoldings, choicesAmong_append, hBare.choicesAmong_eq,
      List.append_nil]
    exact hKept.filterMap Holding.choice?
  | enters e left outside new hChoice hAsks hBare hHoldings =>
    refine .enters e left outside hChoice ?_
    rw [choices_eq, choices_eq, hHoldings, choicesAmong_append, choicesAmong_choice,
      hBare.choicesAmong_eq]
  -- the innermost choice goes on to its next alternative, those around it stay
  | next earlier start e left around new hAsks hBare hHoldings hNext =>
    refine .next (choicesAmong earlier) start e left ?_ ?_
    · rw [choices_eq, hHoldings, choicesAmong_append, choicesAmong_choice, choicesAmong_nil]
    · rw [choices_eq, hNext, choicesAmong_append, choicesAmong_choice, hBare.choicesAmong_eq]

/-- What the next step goes back to is the moment of the last choice under way. -/
theorem choices_of_restores {m : Machine} {start : Checkpoint} (h : m.restores? = some start) :
    ∃ earlier left, m.choices = earlier ++ [⟨start, left⟩] := by
  obtain ⟨k, walk, stack⟩ := m
  cases walk with
  | pull s => cases h
  | found item rest => cases h
  | drained rest =>
    cases stack with
    | nil => cases h
    | push p below =>
      cases p with
      | choosing start' left =>
        cases h
        exact ⟨below.choices, left, List.append_nil _⟩
      | _ => cases h

/-- When the walk is over, all choices under way are those of the search that is left. -/
theorem choices_of_finished {m : Machine} {v : Value} {rest : Search .value}
    (h : m.finished? = some (some v, rest)) : m.choices = rest.choices := by
  unfold finished? at h
  split at h
  · cases h
    rfl
  · cases h
  · cases h

end Machine

end AmbScript
