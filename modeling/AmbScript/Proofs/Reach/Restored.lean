import AmbScript.Proofs.Reach.Whole

/-!
# What can be got at after going back

Changes of frames that were made since a choice was entered are not logged, and so are not taken
back when the choice goes on to its next alternative. This is not noticed: such frames cannot be got
at any more. All that is still held was held when the choice was entered, and what it leads to was
there then.

* `Value.Mentions`, `Store.Links`, `Store.Reaches` — how one gets from a value or a frame to frames.
* `Stage.Root` — where one can start from after a choice has gone back.
* `Stack.Closed.holdings` — what a machine holds is inside of every region that it is closed in.
* `Stage.restored_reaches_old` — from there only old frames are reached, as they were.

A region that is closed when the choice is entered serves as the set of what can be reached: links
do not lead out of it, everything held then is inside, and its frames are just the old ones. Back at
the mark these have the scopes they had, so links between them are the same as well.
-/

namespace AmbScript

variable {r : Region} {retire : {k : Kind} → Search k → Bool}

-- ---------------------------------------------------------------------------
-- Getting at frames
-- ---------------------------------------------------------------------------

/-- The value is a closure made in the frame, or there is one inside of it. -/
inductive Value.Mentions (f : FrameId) : Value → Prop
  | closure (cell : CellId) (function : Function) : Mentions f (.closure cell function f)
  | head {cell : CellId} {a b : Value} (h : Mentions f a) : Mentions f (.pair cell a b)
  | tail {cell : CellId} {a b : Value} (h : Mentions f b) : Mentions f (.pair cell a b)
  | item {cell : CellId} {vs : List Value} {v : Value} (hv : v ∈ vs) (h : Mentions f v) :
      Mentions f (.array cell vs)

/-- One gets from the frame `f` to the frame `g`: it is around `f`, or a value bound in `f` mentions
it. -/
inductive Store.Links (s : Store) (f g : FrameId) : Prop
  | parent {scope : Scope} (hScope : s.scope? f = some scope) (hParent : scope.parent = some g)
  | binding {scope : Scope} {name : String} {v : Value} {isConst : Bool}
      (hScope : s.scope? f = some scope) (hBinding : scope.binding? name = some ⟨.value v, isConst⟩)
      (h : v.Mentions g)

/-- One gets there by any number of links. -/
def Store.Reaches (s : Store) : FrameId → FrameId → Prop := Relation.ReflTransGen s.Links

/-- The frame itself is held, or a value that mentions it. -/
def Holding.Mentions (f : FrameId) : Holding → Prop
  | value v => v.Mentions f
  | frame g => g = f
  | choice _ _ => False

/-- A value in a closed region mentions frames of the region only. -/
theorem Value.Mentions.frames {f : FrameId} {v : Value} (h : v.Mentions f)
    (hClosed : ClosedValue r v) : r.frames f := by
  induction h with
  | closure cell function =>
    cases (hClosed : Value.Alike _ _ _) with
    | closure _ _ hFrame => exact hFrame.2
  | head _ ih =>
    cases (hClosed : Value.Alike _ _ _) with
    | pair _ hHead _ => exact ih hHead
  | tail _ ih =>
    cases (hClosed : Value.Alike _ _ _) with
    | pair _ _ hTail => exact ih hTail
  | item hv _ ih =>
    cases (hClosed : Value.Alike _ _ _) with
    | array _ hItems => exact ih (List.forall₂_same.mp (Value.itemsAlike_iff.mp hItems) _ hv)

/-- Links do not lead out of a closed region. -/
theorem Store.Links.frames {c : Context} (hClosed : c.Closed r) {f g : FrameId}
    (h : c.store.Links f g) (hf : r.frames f) : r.frames g := by
  -- a region agrees with itself, so what a frame in it refers to is paired with itself
  obtain ⟨s, s', hs, hs', hAlike⟩ := Agree.scopes hClosed (f := f) ⟨rfl, hf⟩
  rw [hs] at hs'
  cases hs'
  cases h with
  | parent hScope hParent =>
    rw [hs] at hScope
    cases hScope
    have hRel := hAlike.parent
    rw [hParent] at hRel
    cases hRel with
    | some hPair => exact hPair.1.2
  | @binding _ name _ _ hScope hBinding hMentions =>
    rw [hs] at hScope
    cases hScope
    have hRel := hAlike.binding name
    rw [hBinding] at hRel
    cases hRel with
    | some hValue =>
      cases hValue with
      | value hv _ => exact hMentions.frames hv

-- ---------------------------------------------------------------------------
-- Holdings inside a region
-- ---------------------------------------------------------------------------

/-- What is held is inside the region. -/
def Holding.Closed (r : Region) : Holding → Prop
  | value v => ClosedValue r v
  | frame f => ClosedFrame r f
  | choice _ _ => True

/-- What is held in a closed region leads to frames of the region only. -/
theorem Holding.Closed.frames {f : FrameId} {h : Holding} (hClosed : h.Closed r)
    (hMentions : h.Mentions f) : r.frames f := by
  cases h with
  | value v => exact Value.Mentions.frames hMentions hClosed
  | frame g =>
    cases (hMentions : g = f)
    exact hClosed.2
  | choice o around => exact hMentions.elim

/-- All of them are inside the region. -/
def HoldingsClosed (r : Region) (hs : List Holding) : Prop := ∀ h ∈ hs, h.Closed r

theorem holdingsClosed_nil : HoldingsClosed r [] := fun _ h => absurd h List.not_mem_nil

theorem HoldingsClosed.cons {h : Holding} {hs : List Holding} (hh : h.Closed r)
    (hs' : HoldingsClosed r hs) : HoldingsClosed r (h :: hs) := List.forall_mem_cons.mpr ⟨hh, hs'⟩

theorem HoldingsClosed.append {hs hs' : List Holding} (h : HoldingsClosed r hs)
    (h' : HoldingsClosed r hs') : HoldingsClosed r (hs ++ hs') :=
  List.forall_mem_append.mpr ⟨h, h'⟩

/-- Values that are held. -/
theorem holdingsClosed_values {vs : List Value} (h : ∀ v ∈ vs, ClosedValue r v) :
    HoldingsClosed r (vs.map .value) := by
  intro x hx
  obtain ⟨v, hv, rfl⟩ := List.mem_map.mp hx
  exact h v hv

/-- A result that is held. -/
theorem holdingsClosed_item {k : Kind} {item : k.Item} (h : ClosedItem k r item) :
    HoldingsClosed r (itemHoldings item) := by
  cases k with
  | value => exact .cons h holdingsClosed_nil
  | completion =>
    cases item with
    | value v => exact .cons h holdingsClosed_nil
    | returns v => exact .cons h holdingsClosed_nil
    | _ => exact holdingsClosed_nil
  | tuple => exact holdingsClosed_values h

theorem Mapping.Closed.holdings {i o : Kind} {f : Mapping i o} (h : f.Closed r) :
    HoldingsClosed r f.holdings := by
  cases f with
  | binary => exact .cons h holdingsClosed_nil
  | index => exact .cons h holdingsClosed_nil
  | _ => exact holdingsClosed_nil

theorem Expansion.Closed.holdings {i o : Kind} {f : Expansion i o} (h : f.Closed r) :
    HoldingsClosed r f.holdings := by
  cases f with
  | arguments => exact .cons h holdingsClosed_nil
  | _ => exact holdingsClosed_nil

theorem Loop.Closed.holdings {header : Loop} (h : header.Closed r) :
    HoldingsClosed r header.holdings := by
  cases header with
  | whileLoop => exact holdingsClosed_nil
  | forLoop => exact .cons h holdingsClosed_nil

theorem holdingsClosed_reverse {vs : List Value} (h : ∀ v ∈ vs, ClosedValue r v) :
    HoldingsClosed r (vs.reverse.map .value) := by
  refine holdingsClosed_values fun v hv => ?_
  exact h v (List.mem_reverse.mp hv)

mutual

/-- A search that is closed in a region holds nothing else. -/
theorem Search.Closed.holdings : ∀ {k : Kind} {s : Search k}, s.Closed r →
    ∀ around, HoldingsClosed r (s.holdings around)
  | _, _, .failed, _ => by
    rw [Search.holdings]
    exact holdingsClosed_nil
  | _, _, .found h, _ => by
    rw [Search.holdings]
    exact holdingsClosed_item h
  | _, _, .map hf h, around => by
    rw [Search.holdings]
    exact hf.holdings.append (h.holdings around)
  | _, _, .bind hf h, around => by
    rw [Search.holdings]
    exact hf.holdings.append (h.holdings around)
  | _, _, .binding hf hOuter hInner, around => by
    rw [Search.holdings]
    exact (hf.holdings.append (hOuter.holdings around)).append (hInner.holdings around)
  | _, _, .within hFrame h, around => by
    rw [Search.holdings]
    exact .cons hFrame (h.holdings _)
  | _, _, .choice _, _ => by
    rw [Search.holdings]
    exact holdingsClosed_nil
  | _, _, .between _ [], _ => by
    rw [Search.holdings]
    exact holdingsClosed_nil
  | _, _, .between _ (_ :: _), _ => by
    rw [Search.holdings]
    -- a choice with alternatives left holds its checkpoint, which refers to no frame
    exact .cons trivial holdingsClosed_nil
  | _, _, .choosing _ _ h, around => by
    rw [Search.holdings]
    exact .cons trivial (h.holdings around)
  | _, _, .product _, _ => by
    rw [Search.holdings]
    exact holdingsClosed_nil
  | _, _, .producing .nil hValues, _ => by
    rw [Search.holdings]
    exact holdingsClosed_reverse hValues
  | _, _, .producing (.cons _ h hBelow) hValues, around => by
    rw [Search.holdings]
    exact (hBelow.holdings around hValues).append (h.holdings around)
  | _, _, .sequence _, _ => by
    rw [Search.holdings]
    exact holdingsClosed_nil
  | _, _, .sequenced h _, around => by
    rw [Search.holdings]
    exact h.holdings around
  | _, _, .loop hHeader, _ => by
    rw [Search.holdings]
    exact hHeader.holdings
  | _, _, .looping hHeader h, around => by
    rw [Search.holdings]
    exact hHeader.holdings.append (h.holdings _)

/-- The values found so far are between the operands. -/
theorem OperandsClosed.holdings : ∀ {below : List Operand}, OperandsClosed r below →
    ∀ around {values : List Value}, (∀ v ∈ values, ClosedValue r v) →
      HoldingsClosed r (filledHoldings around below values)
  | _, .nil, _, _, hValues => by
    rw [filledHoldings]
    exact holdingsClosed_reverse hValues
  | _, .cons _ h hBelow, around, [], hValues => by
    rw [filledHoldings]
    exact (hBelow.holdings around hValues).append (h.holdings around)
  | _, .cons _ h hBelow, around, v :: values, hValues => by
    obtain ⟨hv, hValues⟩ := List.forall_mem_cons.mp hValues
    rw [filledHoldings]
    exact ((hBelow.holdings around hValues).append (h.holdings around)).append
      (.cons hv holdingsClosed_nil)

theorem ReachedClosed.holdings : ∀ {reached : List Reached}, ReachedClosed r reached →
    ∀ around, HoldingsClosed r (reachedHoldings around reached)
  | _, .nil, _ => by
    rw [reachedHoldings]
    exact holdingsClosed_nil
  | _, .cons _ _ h hBelow, around => by
    rw [reachedHoldings]
    exact (hBelow.holdings around).append (h.holdings around)

theorem PhasesClosed.holdings : ∀ {phases : List Phase}, PhasesClosed r phases →
    ∀ around, HoldingsClosed r (phaseHoldings around phases)
  | _, .nil, _ => by
    rw [phaseHoldings]
    exact holdingsClosed_nil
  | _, .cons h hBelow, around => by
    rw [phaseHoldings]
    exact (hBelow.holdings around).append (h.holdings around)

theorem Phase.Closed.holdings : ∀ {p : Phase}, p.Closed r →
    ∀ around, HoldingsClosed r (p.holdings around)
  | _, .init h, around => by
    rw [Phase.holdings]
    exact h.holdings around
  | _, .test h, around => by
    rw [Phase.holdings]
    exact h.holdings around
  | _, .body h, around => by
    rw [Phase.holdings]
    exact h.holdings around
  | _, .update h, around => by
    rw [Phase.holdings]
    exact h.holdings around

end

/-- What waits for the results of a search holds nothing else. -/
theorem Pending.Closed.holdings {i o : Kind} {p : Pending i o} (h : p.Closed r)
    (around : List FrameId) : HoldingsClosed r (p.holdings around) := by
  cases h with
  | map hf => exact hf.holdings
  | outer hf => exact hf.holdings
  | inner hf h => exact hf.holdings.append (h.holdings around)
  | within hFrame => exact .cons hFrame holdingsClosed_nil
  | choosing start es => exact .cons trivial holdingsClosed_nil
  | operand rest h hValues => exact h.holdings around hValues
  | statement index rest h commit => exact h.holdings around
  | init hHeader h => exact hHeader.holdings.append (h.holdings _)
  | test hHeader h => exact hHeader.holdings.append (h.holdings _)
  | body hHeader h => exact hHeader.holdings.append (h.holdings _)
  | update hHeader h => exact hHeader.holdings.append (h.holdings _)

theorem Stack.Closed.holdings {k : Kind} {stack : Stack k} (h : stack.Closed r) :
    HoldingsClosed r stack.holdings := by
  induction h with
  | nil => exact holdingsClosed_nil
  | push h _ ih => exact ih.append (h.holdings _)

-- ---------------------------------------------------------------------------
-- Going back
-- ---------------------------------------------------------------------------

namespace Stage

/-- The frames that outlast the run are the same as long as a choice is under way. -/
theorem outer_leads {a b : Stage} (h : Leads retire a b) (hOpen : b.choices ≠ []) :
    b.context.outer = a.context.outer := by
  cases h with
  | step r =>
    obtain ⟨m, hStep⟩ := ok_of_open hOpen
    refine (Machine.proceeds_step hStep).outer_eq.trans ?_
    unfold Machine.origin
    split <;> rfl
  | resume s =>
    unfold Suspension.resume
    split <;> rfl
  | signal r => rfl
  | expire r => rfl
  | takeOutput r => rfl

/-- While a choice is under way, no program is entered or left. -/
theorem Since.outer_eq {entry : Running} {outside : Stack .value} {st : Stage}
    (h : Since retire entry outside st) : st.context.outer = entry.context.outer := by
  induction h with
  | entered hHolds => exact outer_leads (.step entry) hHolds.choices_ne_nil
  | step _ hLeads hHolds ih => exact (outer_leads hLeads hHolds.choices_ne_nil).trans ih

/-- When a choice goes back, the frames in force are those in force when it was entered. -/
theorem Since.environments_restore {entry : Running} {alternatives : List Expr}
    {outside : Stack .value} {x : Running}
    (hEntry : entry.machine = .pull (.choice alternatives) outside)
    (h : Since retire entry outside (.running x)) (hSettled : (Stage.running entry).Settled)
    (hSettled' : (Stage.running x).Settled) {rest : Search .value} {left : List Expr}
    {below : Stack .value}
    (hMachine : x.machine = .drained rest (.push (.choosing entry.context.moment left) below))
    (hChoices : outside.choices = below.choices) :
    (x.context.restore entry.context.moment).environments = entry.context.environments := by
  have hBefore : entry.context.inner = outside.frames := by
    have hInner : entry.context.inner = entry.machine.stack.frames := hSettled.inForce
    rw [hInner, hEntry]
    rfl
  have hNow : x.context.inner = below.frames := by
    have hInner : x.context.inner = x.machine.stack.frames := hSettled'.inForce
    rw [hInner, hMachine]
    rfl
  have hSame : x.context.inner = entry.context.inner := by
    rw [hNow, hBefore]
    exact (h.restores hEntry hMachine hChoices).2
  -- Going back only drops frames that were entered since; here there are none, so all are kept.
  show x.context.inner.drop (x.context.inner.length - entry.context.inner.length) ++
    x.context.outer = entry.context.inner ++ entry.context.outer
  rw [hSame, Nat.sub_self, List.drop_zero]
  exact congrArg _ h.outer_eq

/-- Where evaluation can get at frames from, in the context `c` with the searches `below` still to
be asked: a frame in force, one that is held or mentioned by a held value, or any of the first `n`
frames. -/
inductive Root (c : Context) (below : Stack .value) (n : Nat) (f : FrameId) : Prop
  | environment (h : f ∈ c.environments)
  | held {x : Holding} (hx : x ∈ below.holdings) (h : x.Mentions f)
  | old (h : f < n)

/-- Whenever in a run a choice goes back, no frame made since it was entered can be got at: not from
the frames in force, not from what is held by searches that may still be asked, and not from any
frame that was there when it was entered. What can be got at is as it was then. -/
theorem restored_reaches_old {c : Context} (hRest : c.AtRest) {first : Stage}
    (hFirst : first.BeginsOn c) {x : Running}
    (hRun : Relation.ReflTransGen (Leads Search.isExhausted) first (.running x))
    {rest : Search .value} {start : Checkpoint} {left : List Expr} {below : Stack .value}
    (hMachine : x.machine = .drained rest (.push (.choosing start left) below)) :
    ∃ entry alternatives outside,
      Relation.ReflTransGen (Leads Search.isExhausted) first (.running entry) ∧
      entry.machine = .pull (.choice alternatives) outside ∧
      Since Search.isExhausted entry outside (.running x) ∧
      outside.choices = below.choices ∧
      entry.context.moment = start ∧
      (∃ tried, tried ≠ [] ∧ alternatives = tried ++ left) ∧
      ∃ d, x.machine.step Search.isExhausted x.context =
          Machine.nextAlternative start left below d ∧
        ∀ root f, Root d below entry.context.store.nextFrame root → d.store.Reaches root f →
          f < entry.context.store.nextFrame ∧
            d.store.scope? f = entry.context.store.scope? f := by
  obtain ⟨entry, alternatives, outside, hReach, hEntry, hSince, hOuter, rfl, hTried, hScopes⟩ :=
    exists_entry_of_restores hFirst.choices_eq hRun hMachine
  refine ⟨entry, alternatives, outside, hReach, hEntry, hSince, hOuter, rfl, hTried,
    x.context.restore entry.context.moment, step_restores hMachine, ?_⟩
  -- when the choice was entered, all frames were in a closed region
  obtain ⟨hClosed, hWhole⟩ := whole_run (hFirst.closed hRest) (hFirst.whole hRest) hReach
  obtain ⟨r, hContext, hCovers, hMachineClosed⟩ := hClosed.covered hWhole
  have hOld {f : FrameId} : r.frames f ↔ f < entry.context.store.nextFrame :=
    ⟨fun hf => (Agree.lt_nextFrame hContext (f := f) ⟨rfl, hf⟩).1, hCovers f⟩
  have hOutside : outside.Closed r := by
    rw [hEntry] at hMachineClosed
    cases hMachineClosed with
    | mk _ hStack => exact hStack
  -- Each place to start from was there when the choice was entered, and so is in the region.
  have hRoot {root : FrameId} (h : Root (x.context.restore entry.context.moment) below
      entry.context.store.nextFrame root) : r.frames root := by
    cases h with
    | environment h =>
      rw [hSince.environments_restore hEntry (hFirst.settled.run hReach)
        (hFirst.settled.run hRun) hMachine hOuter] at h
      rcases List.mem_append.mp h with hInner | hOuter
      · exact (List.forall₂_same.mp (Agree.inner hContext) _ hInner).2
      · exact (List.forall₂_same.mp (Agree.outer hContext) _ hOuter).2
    | held hHeld hMentions =>
      rw [(hSince.restores hEntry hMachine hOuter).1] at hHeld
      exact (hOutside.holdings _ hHeld).frames hMentions
    | old h => exact hCovers _ h
  intro root f hStart hReaches
  have hFrames : r.frames f := by
    induction hReaches with
    | refl => exact hRoot hStart
    | tail _ hLink ih =>
      -- the frame that the link starts from is as it was
      have hSame := hScopes _ (hOld.mp ih)
      refine Store.Links.frames hContext ?_ ih
      cases hLink with
      | parent hScope hParent => exact .parent (hSame ▸ hScope) hParent
      | binding hScope hBinding h => exact .binding (hSame ▸ hScope) hBinding h
  exact ⟨hOld.mp hFrames, hScopes f (hOld.mp hFrames)⟩

/-- A choice between a call of a function without parameters, made on the spot, and `false`. -/
def callOrFalse : Program :=
  let body : Block := .mk [.returns (.bool true .synthetic) .synthetic] .synthetic
  let call : Expr := .call (.function (.mk none [] body .synthetic)) [] .synthetic
  ⟨.mk [.expr (.call (.ident ⟨"amb", .synthetic⟩) [call, .bool false .synthetic] .synthetic)]
    .synthetic, .synthetic⟩

set_option maxRecDepth 4000 in
/-- After the first driver step and eight machine steps of the next one, the choice goes back. The
frame of the call, which is the last of three, has been made since. -/
theorem callOrFalse_forgets_call : ∃ x rest start left below,
    Relation.ReflTransGen (Leads Search.isExhausted) (callOrFalse.begin (Context.new 4) .nonDet)
      (.running x) ∧
    x.machine = .drained rest (.push (.choosing start left) below) ∧
    x.context.store.nextFrame = 3 ∧
    ∃ (entry : Running) (d : Context), entry.context.moment = start ∧
      x.machine.step Search.isExhausted x.context = Machine.nextAlternative start left below d ∧
      ∀ root f, Root d below entry.context.store.nextFrame root → d.store.Reaches root f →
        f < entry.context.store.nextFrame ∧ d.store.scope? f = entry.context.store.scope? f := by
  have hStage : ∃ x rest start left below,
      (next Search.isExhausted)^[33] (callOrFalse.begin (Context.new 4) .nonDet) = .running x ∧
      x.machine = Machine.drained rest (.push (.choosing start left) below) ∧
      x.context.store.nextFrame = 3 := ⟨_, _, _, _, _, rfl, rfl, rfl⟩
  obtain ⟨x, rest, start, left, below, hRunning, hMachine, hFrames⟩ := hStage
  have hRun : Relation.ReflTransGen (Leads Search.isExhausted)
      (callOrFalse.begin (Context.new 4) .nonDet) (.running x) :=
    hRunning ▸ leads_iterate_next 33 _
  obtain ⟨entry, _, _, -, -, -, -, hStart, -, d, hStep, hReached⟩ :=
    restored_reaches_old (.new 4) (.program callOrFalse .nonDet) hRun hMachine
  exact ⟨x, rest, start, left, below, hRun, hMachine, hFrames, entry, d, hStart, hStep, hReached⟩

end Stage

end AmbScript
