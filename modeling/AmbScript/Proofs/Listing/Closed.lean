import AmbScript.Proofs.Listing.Actions

/-!
# Nothing dangles

A context is closed if all frames and cells that can be got at are there: from the frames in force,
from values bound in frames, and from what may yet be put back. Whatever evaluation does, closed
contexts stay closed, also where it ends in a fault.

* `Region` — some frames and cells; `Context.Closed` — nothing leads out of a region.
* `Eval.Keeps` — an action leaves closed contexts; `Eval.keeps_of_matches` gets it for every action
  that does the same in contexts that agree.
* `Search.Closed` — a search refers to nothing outside of the region.
* `Expr.keeps_start`, `Stmt.keeps_start` — so do the searches that are started.

A closed context is one that agrees with itself when nothing is renamed, so that all that was shown
of contexts that agree can be used here: what an action does in a context and in the same context is
the same, and the pairs that agreement needs afterwards make up the new region.
-/

namespace AmbScript

variable {α β : Type}

-- ---------------------------------------------------------------------------
-- Regions
-- ---------------------------------------------------------------------------

/-- Some frames and cells. -/
structure Region where
  frames : FrameId → Prop
  cells : CellId → Prop

/-- The numbers with a property, each paired with itself. -/
def Pairing.on (P : Nat → Prop) : Pairing where
  Pairs i j := i = j ∧ P i
  right_unique h h' := h.1.symm.trans h'.1
  left_unique h h' := h.1.trans h'.1.symm

namespace Region

instance : Preorder Region where
  le r r' := (∀ f, r.frames f → r'.frames f) ∧ ∀ i, r.cells i → r'.cells i
  le_refl _ := ⟨fun _ h => h, fun _ h => h⟩
  le_trans _ _ _ h h' := ⟨fun f hf => h'.1 f (h.1 f hf), fun i hi => h'.2 i (h.2 i hi)⟩

/-- Nothing has another name. -/
def same (r : Region) : Renaming := ⟨.on r.frames, .on r.cells⟩

/-- A larger region renames more things to themselves. -/
theorem same_mono {r r' : Region} (h : r ≤ r') : r.same ≤ r'.same := by
  constructor
  · intro _ _ hPairs
    exact ⟨hPairs.1, h.1 _ hPairs.2⟩
  · intro _ _ hPairs
    exact ⟨hPairs.1, h.2 _ hPairs.2⟩

end Region

/-- What has a partner. -/
def Renaming.domain (w : Renaming) : Region :=
  ⟨fun f => ∃ g, w.frames.Pairs f g, fun i => ∃ j, w.cells.Pairs i j⟩

/-- What was there has a partner, namely itself. -/
theorem Region.le_domain {r : Region} {w : Renaming} (h : r.same ≤ w) : r ≤ w.domain := by
  constructor
  · intro f hf
    exact ⟨f, h.1 f f ⟨rfl, hf⟩⟩
  · intro i hi
    exact ⟨i, h.2 i i ⟨rfl, hi⟩⟩

variable {w : Renaming} {r r' : Region}

/-- What is paired with something can be paired with itself. -/
theorem Renaming.pairs_domain {f g : FrameId} (h : w.frames.Pairs f g) :
    w.domain.same.frames.Pairs f f := ⟨rfl, g, h⟩

mutual

/-- A value that has a partner is inside the region of what has one. -/
theorem Value.Alike.domain : ∀ {v v' : Value}, v.Alike w v' → v.Alike w.domain.same v
  | _, _, .undefined => .undefined
  | _, _, .null => .null
  | _, _, .bool b => .bool b
  | _, _, .number x => .number x
  | _, _, .string s => .string s
  | _, _, .pair hCell hHead hTail => .pair ⟨rfl, _, hCell⟩ hHead.domain hTail.domain
  | _, _, .array hCell hItems => .array ⟨rfl, _, hCell⟩ hItems.domain
  | _, _, .closure f hCell hFrame => .closure f ⟨rfl, _, hCell⟩ (Renaming.pairs_domain hFrame)
  | _, _, .primitive p => .primitive p

theorem ItemsAlike.domain : ∀ {vs vs' : List Value}, ItemsAlike w vs vs' →
    ItemsAlike w.domain.same vs vs
  | _, _, .nil => .nil
  | _, _, .cons hHead hTail => .cons hHead.domain hTail.domain

end

theorem Binding.Alike.domain {b b' : Binding} (h : b.Alike w b') : b.Alike w.domain.same b := by
  cases h with
  | placeholder isConst => exact .placeholder isConst
  | value h isConst => exact .value h.domain isConst

/-- If two options are related, what is on the left side is related to itself. -/
theorem optionRel_left {R S : α → α → Prop} (h : ∀ a b, R a b → S a a) {x y : Option α}
    (hRel : Option.Rel R x y) : Option.Rel S x x := by
  cases hRel with
  | some hRel => exact .some (h _ _ hRel)
  | none => exact .none

theorem Scope.Alike.domain {f g : FrameId} {s s' : Scope} (h : s.Alike w f g s') :
    s.Alike w.domain.same f f s where
  parent := optionRel_left
    (fun _ _ hPair => ⟨Renaming.pairs_domain hPair.1, hPair.2.1, hPair.2.1⟩) h.parent
  binding name := optionRel_left (fun _ _ hAlike => hAlike.domain) (h.binding name)

theorem forall₂_domain {fs gs : List FrameId} (h : List.Forall₂ w.frames.Pairs fs gs) :
    List.Forall₂ w.domain.same.frames.Pairs fs fs := by
  induction h with
  | nil => exact .nil
  | cons hPair _ ih => exact .cons (Renaming.pairs_domain hPair) ih

/-- A context that agrees with another one agrees with itself. -/
theorem Agree.domain {c d : Context} (h : Agree w c d) : Agree w.domain.same c c where
  scopes := by
    rintro f _ ⟨rfl, g, hPair⟩
    obtain ⟨s, s', hs, -, hAlike⟩ := h.scopes hPair
    exact ⟨s, s, hs, hs, hAlike.domain⟩
  cells := by
    rintro i _ ⟨rfl, j, hPair⟩
    exact ⟨(h.cells hPair).1, (h.cells hPair).1⟩
  inner := forall₂_domain h.inner
  outer := forall₂_domain h.outer
  rooted := h.rooted
  logged hu b hb := by
    obtain ⟨b', hAlike⟩ := h.logged hu hb
    exact ⟨b, hAlike.domain⟩

-- ---------------------------------------------------------------------------
-- Closed contexts
-- ---------------------------------------------------------------------------

/-- Nothing that the context is made of leads out of the region. -/
def Context.Closed (r : Region) (c : Context) : Prop := Agree r.same c c

/-- A change of the context that does not touch what matters. -/
theorem Context.Closed.of_same {c d : Context} (h : c.Closed r) (hStore : d.store = c.store)
    (hCells : d.nextCell = c.nextCell) (hInner : d.inner = c.inner) (hOuter : d.outer = c.outer) :
    d.Closed r := by
  unfold Context.Closed at *
  have hLe : c.nextCell ≤ d.nextCell := Nat.le_of_eq hCells.symm
  refine h.ofStore ?_ ?_ hLe hLe hInner hInner hOuter hOuter ?_
  · intro f _
    rw [hStore]
  · intro f _
    rw [hStore]
  · rw [hStore]

/-- Where an action ends, in a result or a fault, the context is closed. -/
inductive Kept (r : Region) (P : Region → α → Prop) : EStateM.Result Fault Context α → Prop
  | ok {r' : Region} {a : α} {d : Context} (hle : r ≤ r') (hClosed : d.Closed r') (h : P r' a) :
      Kept r P (.ok a d)
  | error {r' : Region} {t : Fault} {d : Context} (hle : r ≤ r') (hClosed : d.Closed r') :
      Kept r P (.error t d)

/-- In closed contexts `x` ends in closed contexts, and its results have the property. -/
def Eval.Keeps (r : Region) (P : Region → α → Prop) (x : Eval α) : Prop :=
  ∀ c : Context, c.Closed r → Kept r P (x c)

/-- The value is inside the region. -/
def ClosedValue (r : Region) (v : Value) : Prop := v.Alike r.same v

/-- The frame is inside the region. -/
def ClosedFrame (r : Region) (f : FrameId) : Prop := r.same.frames.Pairs f f

/-- Nothing is said. -/
def ClosedUnit (_ : Region) (_ : Unit) : Prop := True

namespace Eval

variable {P : Region → α → Prop} {Q : Region → β → Prop}

/-- A result inside the region. -/
theorem keeps_pure {a : α} (h : P r a) : Keeps r P (pure a) :=
  fun _ hClosed => .ok le_rfl hClosed h

/-- A fault leaves the context as it was. -/
theorem keeps_throw (t : Fault) : Keeps r P (throw t : Eval α) :=
  fun _ hClosed => .error le_rfl hClosed

/-- One action after the other, the second one for the region that the first one leaves. -/
theorem keeps_bind {x : Eval α} {f : α → Eval β} (hx : Keeps r P x)
    (hf : ∀ r', r ≤ r' → ∀ a, P r' a → Keeps r' Q (f a)) : Keeps r Q (x >>= f) := by
  intro c hClosed
  have hFirst := hx c hClosed
  show Kept r Q (EStateM.bind x f c)
  unfold EStateM.bind
  revert hFirst
  generalize x c = y
  rintro (⟨hle, hClosed', h⟩ | ⟨hle, hClosed'⟩)
  -- the region may grow in both actions
  · dsimp only
    have hSecond := hf _ hle _ h _ hClosed'
    revert hSecond
    generalize f _ _ = y
    rintro (⟨hle', hClosed'', h'⟩ | ⟨hle', hClosed''⟩)
    · exact .ok (hle.trans hle') hClosed'' h'
    · exact .error (hle.trans hle') hClosed''
  · exact .error hle hClosed'

/-- A change of the context. -/
theorem keeps_modify {f : Context → Context} (h : ∀ c : Context, c.Closed r → (f c).Closed r) :
    Keeps r ClosedUnit (modify f) := by
  intro c hClosed
  exact .ok le_rfl (h c hClosed) trivial

/-- What does the same in contexts that agree keeps contexts closed. -/
theorem keeps_of_matches {R : Renaming → α → α → Prop}
    (hR : ∀ w a b, R w a b → P w.domain a) {x : Eval α} (hx : Matches r.same R x x) :
    Keeps r P x := by
  intro c hClosed
  have hMeets := hx r.same le_rfl c c hClosed
  revert hMeets
  generalize x c = y
  intro hMeets
  cases y with
  | ok a d =>
    cases hMeets with
    | ok lines hle hAgree h => exact .ok (Region.le_domain hle) hAgree.domain (hR _ _ _ h)
  | error t d =>
    cases hMeets with
    | error lines hle hAgree => exact .error (Region.le_domain hle) hAgree.domain

/-- An action that finds the same value in contexts that agree. -/
theorem keeps_value {x : Eval Value} (hx : Matches r.same AlikeValues x x) :
    Keeps r ClosedValue x := by
  refine keeps_of_matches ?_ hx
  intro _ _ _ h
  exact Value.Alike.domain h

/-- An action that makes or finds a frame. -/
theorem keeps_frame {x : Eval FrameId} (hx : Matches r.same SameFrames x x) :
    Keeps r ClosedFrame x := by
  refine keeps_of_matches ?_ hx
  intro _ _ _ h
  exact Renaming.pairs_domain h

/-- An action without a result. -/
theorem keeps_unit {x : Eval Unit} (hx : Matches r.same NoResult x x) : Keeps r ClosedUnit x :=
  keeps_of_matches (fun _ _ _ _ => trivial) hx

/-- To count a node touches none of this. -/
theorem keeps_tick (span : Span) : Keeps r ClosedUnit (tick span) := by
  intro c hClosed
  rw [tick_apply]
  have hCounted : c.counted.Closed r := hClosed.of_same rfl rfl rfl rfl
  split
  · exact .error le_rfl hCounted
  · exact .ok le_rfl hCounted trivial

end Eval

-- ---------------------------------------------------------------------------
-- Closed searches
-- ---------------------------------------------------------------------------

/-- The item is inside the region. -/
def ClosedItem (k : Kind) (r : Region) (item : k.Item) : Prop :=
  match k, item with
  | .value, v => ClosedValue r v
  | .completion, .value v => ClosedValue r v
  | .completion, .returns v => ClosedValue r v
  | .completion, _ => True
  | .tuple, vs => ∀ v ∈ vs, ClosedValue r v

/-- What the mapping has found before is inside the region. -/
def Mapping.Closed (r : Region) {i o : Kind} : Mapping i o → Prop
  | .binary _ left _ => ClosedValue r left
  | .index object _ => ClosedValue r object
  | _ => True

/-- What the expansion has found before is inside the region. -/
def Expansion.Closed (r : Region) {i o : Kind} : Expansion i o → Prop
  | .arguments function _ => ClosedValue r function
  | _ => True

/-- The frame of the loop's variables is inside the region, if it has one. -/
def Loop.Closed (r : Region) : Loop → Prop
  | .whileLoop .. => True
  | .forLoop _ _ _ _ frame => ClosedFrame r frame

mutual

/-- The search refers to nothing outside of the region. -/
inductive Search.Closed (r : Region) : {k : Kind} → Search k → Prop
  | failed {k : Kind} : Search.Closed r (.once (none : Option k.Item))
  | found {k : Kind} {item : k.Item} (h : ClosedItem k r item) : Search.Closed r (.once (some item))
  | map {i o : Kind} {f : Mapping i o} (hf : f.Closed r) {s : Search i} (h : Search.Closed r s) :
      Search.Closed r (.map f s)
  | bind {i o : Kind} {f : Expansion i o} (hf : f.Closed r) {s : Search i}
      (h : Search.Closed r s) : Search.Closed r (.bind f s)
  | binding {i o : Kind} {f : Expansion i o} (hf : f.Closed r) {s : Search i} {t : Search o}
      (hOuter : Search.Closed r s) (hInner : Search.Closed r t) :
      Search.Closed r (.binding f s t)
  | within {k : Kind} {frame : FrameId} (hFrame : ClosedFrame r frame) {s : Search k}
      (h : Search.Closed r s) : Search.Closed r (.within frame s)
  | choice (alternatives : List Expr) : Search.Closed r (.choice alternatives)
  | between (start : Checkpoint) (alternatives : List Expr) :
      Search.Closed r (.choosing start none alternatives)
  | choosing (start : Checkpoint) (alternatives : List Expr) {s : Search .value}
      (h : Search.Closed r s) : Search.Closed r (.choosing start (some s) alternatives)
  | product (exprs : List Expr) : Search.Closed r (.product exprs)
  | producing {operands : List Operand} (h : OperandsClosed r operands) {values : List Value}
      (hValues : ∀ v ∈ values, ClosedValue r v) : Search.Closed r (.producing operands values)
  | sequence (statements : List Stmt) : Search.Closed r (.sequence statements)
  | sequenced {reached : List Reached} (h : ReachedClosed r reached) (commit : Option Nat) :
      Search.Closed r (.sequenced reached commit)
  | loop {header : Loop} (hHeader : header.Closed r) : Search.Closed r (.loop header)
  | looping {header : Loop} (hHeader : header.Closed r) {phases : List Phase}
      (h : PhasesClosed r phases) : Search.Closed r (.looping header phases)

/-- The operands refer to nothing outside of the region. -/
inductive OperandsClosed (r : Region) : List Operand → Prop
  | nil : OperandsClosed r []
  | cons (rest : List Expr) {s : Search .value} (h : Search.Closed r s) {below : List Operand}
      (hBelow : OperandsClosed r below) : OperandsClosed r (.mk rest s :: below)

/-- Nor do the statements that were reached. -/
inductive ReachedClosed (r : Region) : List Reached → Prop
  | nil : ReachedClosed r []
  | cons (index : Nat) (rest : List Stmt) {s : Search .completion} (h : Search.Closed r s)
      {below : List Reached} (hBelow : ReachedClosed r below) :
      ReachedClosed r (.mk index rest s :: below)

/-- Nor do the parts of a loop. -/
inductive PhasesClosed (r : Region) : List Phase → Prop
  | nil : PhasesClosed r []
  | cons {p : Phase} (h : Phase.Closed r p) {below : List Phase} (hBelow : PhasesClosed r below) :
      PhasesClosed r (p :: below)

/-- Nor does one part of a loop. -/
inductive Phase.Closed (r : Region) : Phase → Prop
  | init {s : Search .completion} (h : Search.Closed r s) : Phase.Closed r (.init s)
  | test {s : Search .value} (h : Search.Closed r s) : Phase.Closed r (.test s)
  | body {s : Search .completion} (h : Search.Closed r s) : Phase.Closed r (.body s)
  | update {s : Search .value} (h : Search.Closed r s) : Phase.Closed r (.update s)

end

-- ---------------------------------------------------------------------------
-- Larger regions
-- ---------------------------------------------------------------------------

/-- A value inside a region is inside every larger one. -/
theorem ClosedValue.mono (hle : r ≤ r') {v : Value} (h : ClosedValue r v) : ClosedValue r' v :=
  Value.Alike.mono (Region.same_mono hle) h

theorem ClosedFrame.mono (hle : r ≤ r') {f : FrameId} (h : ClosedFrame r f) : ClosedFrame r' f :=
  Renaming.frames_of_le (Region.same_mono hle) h

theorem closedValues_mono (hle : r ≤ r') {vs : List Value} (h : ∀ v ∈ vs, ClosedValue r v) :
    ∀ v ∈ vs, ClosedValue r' v := fun v hv => (h v hv).mono hle

/-- A result of any kind inside a region is inside every larger one. -/
theorem ClosedItem.mono (hle : r ≤ r') {k : Kind} {item : k.Item} (h : ClosedItem k r item) :
    ClosedItem k r' item := by
  cases k with
  | value => exact ClosedValue.mono hle h
  | completion =>
    cases item with
    | value v => exact ClosedValue.mono hle h
    | returns v => exact ClosedValue.mono hle h
    | _ => trivial
  | tuple => exact closedValues_mono hle h

theorem Mapping.Closed.mono (hle : r ≤ r') {i o : Kind} {f : Mapping i o} (h : f.Closed r) :
    f.Closed r' := by
  cases f with
  | binary => exact ClosedValue.mono hle h
  | index => exact ClosedValue.mono hle h
  | _ => trivial

theorem Expansion.Closed.mono (hle : r ≤ r') {i o : Kind} {f : Expansion i o} (h : f.Closed r) :
    f.Closed r' := by
  cases f with
  | arguments => exact ClosedValue.mono hle h
  | _ => trivial

theorem Loop.Closed.mono (hle : r ≤ r') {header : Loop} (h : header.Closed r) :
    header.Closed r' := by
  cases header with
  | whileLoop => trivial
  | forLoop => exact ClosedFrame.mono hle h

mutual

/-- A search names nothing outside a larger region, and neither do the lists of its parts. -/
theorem Search.Closed.mono (hle : r ≤ r') : ∀ {k : Kind} {s : Search k}, s.Closed r → s.Closed r'
  | _, _, .failed => .failed
  | _, _, .found h => .found (h.mono hle)
  | _, _, .map hf h => .map (hf.mono hle) (h.mono hle)
  | _, _, .bind hf h => .bind (hf.mono hle) (h.mono hle)
  | _, _, .binding hf hOuter hInner => .binding (hf.mono hle) (hOuter.mono hle) (hInner.mono hle)
  | _, _, .within hFrame h => .within (hFrame.mono hle) (h.mono hle)
  | _, _, .choice es => .choice es
  | _, _, .between start es => .between start es
  | _, _, .choosing start es h => .choosing start es (h.mono hle)
  | _, _, .product es => .product es
  | _, _, .producing h hValues => .producing (h.mono hle) (closedValues_mono hle hValues)
  | _, _, .sequence stmts => .sequence stmts
  | _, _, .sequenced h commit => .sequenced (h.mono hle) commit
  | _, _, .loop hHeader => .loop (hHeader.mono hle)
  | _, _, .looping hHeader h => .looping (hHeader.mono hle) (h.mono hle)

theorem OperandsClosed.mono (hle : r ≤ r') : ∀ {os : List Operand}, OperandsClosed r os →
    OperandsClosed r' os
  | _, .nil => .nil
  | _, .cons rest h hBelow => .cons rest (h.mono hle) (hBelow.mono hle)

theorem ReachedClosed.mono (hle : r ≤ r') : ∀ {rs : List Reached}, ReachedClosed r rs →
    ReachedClosed r' rs
  | _, .nil => .nil
  | _, .cons index rest h hBelow => .cons index rest (h.mono hle) (hBelow.mono hle)

theorem PhasesClosed.mono (hle : r ≤ r') : ∀ {ps : List Phase}, PhasesClosed r ps →
    PhasesClosed r' ps
  | _, .nil => .nil
  | _, .cons h hBelow => .cons (h.mono hle) (hBelow.mono hle)

theorem Phase.Closed.mono (hle : r ≤ r') : ∀ {p : Phase}, p.Closed r → p.Closed r'
  | _, .init h => .init (h.mono hle)
  | _, .test h => .test (h.mono hle)
  | _, .body h => .body (h.mono hle)
  | _, .update h => .update (h.mono hle)

end

-- ---------------------------------------------------------------------------
-- Searches that are started
-- ---------------------------------------------------------------------------

/-- The search is inside the region. -/
def ClosedSearch {k : Kind} (r : Region) (s : Search k) : Prop := s.Closed r

open Eval

/-- A node that is counted first. -/
theorem Eval.keeps_tick_bind {P : Region → α → Prop} {span : Span} {x : Eval α}
    (hx : ∀ r', r ≤ r' → Keeps r' P x) : Keeps r P (tick span >>= fun _ => x) := by
  refine keeps_bind (keeps_tick span) fun r' hle _ _ => ?_
  exact hx r' hle

/-- A result that is known at once. -/
theorem Eval.keeps_found {k : Kind} {item : k.Item} (h : ClosedItem k r item) :
    Keeps r ClosedSearch (pure (Search.found item)) := keeps_pure (.found h)

/-- A search around another one. -/
theorem Eval.keeps_map {i o : Kind} {f : Mapping i o} {x : Eval (Search i)}
    (hf : ∀ r', r ≤ r' → f.Closed r') (hx : Keeps r ClosedSearch x) :
    Keeps r ClosedSearch (do return .map f (← x)) := by
  refine keeps_bind hx fun r' hle _ hs => ?_
  exact keeps_pure (.map (hf r' hle) hs)

/-- A search for what is evaluated after each result. -/
theorem Eval.keeps_expand {i o : Kind} {f : Expansion i o} {x : Eval (Search i)}
    (hf : ∀ r', r ≤ r' → f.Closed r') (hx : Keeps r ClosedSearch x) :
    Keeps r ClosedSearch (do return .bind f (← x)) := by
  refine keeps_bind hx fun r' hle _ hs => ?_
  exact keeps_pure (.bind (hf r' hle) hs)

/-- The frame of a block is made, and so it is in the region from there on. -/
theorem Block.keeps_start (b : Block) (r : Region) : Keeps r ClosedSearch b.start := by
  refine keeps_bind (keeps_frame (matches_openBlock b)) fun _ _ _ hFrame => ?_
  exact keeps_pure (.within hFrame (.sequence _))

mutual

/-- What an expression starts names nothing outside the region. Only names and functions look at the
context; all other forms make a search of what was started for their parts. -/
theorem Expr.keeps_start : ∀ (e : Expr) (r : Region), Keeps r ClosedSearch e.start
  | .number x _, _ => by
    refine keeps_tick_bind fun _ _ => ?_
    exact keeps_found (k := .value) (.number x)
  | .string text _, _ => by
    refine keeps_tick_bind fun _ _ => ?_
    exact keeps_found (k := .value) (.string text)
  | .bool b _, _ => by
    refine keeps_tick_bind fun _ _ => ?_
    exact keeps_found (k := .value) (.bool b)
  | .null _, _ => by
    refine keeps_tick_bind fun _ _ => ?_
    exact keeps_found (k := .value) .null
  | .undefined _, _ => by
    refine keeps_tick_bind fun _ _ => ?_
    exact keeps_found (k := .value) .undefined
  | .array items _, _ => by
    refine keeps_tick_bind fun _ _ => ?_
    exact keeps_pure (.map (f := .array) trivial (.product items))
  | .ident name, _ => by
    refine keeps_tick_bind fun _ _ => ?_
    refine keeps_bind (keeps_value (matches_lookup name)) fun _ _ _ hv => ?_
    exact keeps_found (k := .value) hv
  | .assign _ value _, _ => by
    refine keeps_tick_bind fun r' _ => ?_
    exact keeps_map (fun _ _ => trivial) (value.keeps_start r')
  | .unary _ operand _, _ => by
    refine keeps_tick_bind fun r' _ => ?_
    exact keeps_map (fun _ _ => trivial) (operand.keeps_start r')
  | .binary _ left _ _, _ => by
    refine keeps_tick_bind fun r' _ => ?_
    exact keeps_expand (fun _ _ => trivial) (left.keeps_start r')
  | .logical _ left _ _, _ => by
    refine keeps_tick_bind fun r' _ => ?_
    exact keeps_expand (fun _ _ => trivial) (left.keeps_start r')
  | .conditional test _ _ _, _ => by
    refine keeps_tick_bind fun r' _ => ?_
    exact keeps_expand (fun _ _ => trivial) (test.keeps_start r')
  | .call callee args span, _ => by
    refine keeps_tick_bind fun r' _ => ?_
    split
    · exact keeps_pure (.choice args)
    · exact keeps_startRequire args span r'
    · exact keeps_expand (fun _ _ => trivial) (callee.keeps_start r')
  | .index object _ _, _ => by
    refine keeps_tick_bind fun r' _ => ?_
    exact keeps_expand (fun _ _ => trivial) (object.keeps_start r')
  | .member object _ _, _ => by
    refine keeps_tick_bind fun r' _ => ?_
    exact keeps_map (fun _ _ => trivial) (object.keeps_start r')
  | .function f, _ => by
    refine keeps_tick_bind fun r' _ => ?_
    have hClosure := keeps_bind (keeps_value (matches_closeOver (w := r'.same) f))
      fun _ _ _ hv => keeps_found (k := .value) hv
    rw [bind_assoc] at hClosure
    exact hClosure

/-- A call of `require` looks for the condition; with no or several arguments it fails. -/
theorem keeps_startRequire : ∀ (args : List Expr) (span : Span) (r : Region),
    Keeps r ClosedSearch (startRequire args span)
  | [predicate], _, r => keeps_expand (fun _ _ => trivial) (predicate.keeps_start r)
  | [], _, _ => keeps_throw _
  | _ :: _ :: _, _, _ => keeps_throw _

end

/-- The condition of a branch is looked for first. -/
theorem Branch.keeps_start (b : Branch) (r : Region) : Keeps r ClosedSearch b.start := by
  cases b with
  | mk test consequent alternate span =>
    exact keeps_tick_bind fun r' _ => keeps_expand (fun _ _ => trivial) (test.keeps_start r')

/-- One case for each kind of statement. -/
theorem Stmt.keeps_start (s : Stmt) (r : Region) : Keeps r ClosedSearch s.start := by
  cases s with
  | expr e => exact keeps_tick_bind fun r' _ => keeps_map (fun _ _ => trivial) (e.keeps_start r')
  | declare isConst name init span =>
    exact keeps_tick_bind fun r' _ => keeps_map (fun _ _ => trivial) (init.keeps_start r')
  | function f =>
    exact keeps_tick_bind fun _ _ => keeps_pure (.found Value.Alike.undefined)
  | returns value span =>
    exact keeps_tick_bind fun r' _ => keeps_map (fun _ _ => trivial) (value.keeps_start r')
  | branch b => exact b.keeps_start r
  | block b => exact keeps_tick_bind fun r' _ => b.keeps_start r'
  | whileLoop test body span => exact keeps_tick_bind fun _ _ => keeps_pure (.loop trivial)
  | forLoop init test update body span =>
    exact keeps_tick_bind fun _ _ => keeps_bind (keeps_frame (matches_openLoop init))
      fun _ _ _ hFrame => keeps_pure (.loop hFrame)
  | breakLoop span =>
    exact keeps_tick_bind fun _ _ => keeps_pure (.found trivial)
  | continueLoop span =>
    exact keeps_tick_bind fun _ _ => keeps_pure (.found trivial)
  | cut span =>
    exact keeps_tick_bind fun _ _ => keeps_pure (.found Value.Alike.undefined)

-- ---------------------------------------------------------------------------
-- Going on from results
-- ---------------------------------------------------------------------------

namespace Eval

/-- A value that was computed without looking at the context. -/
theorem keeps_ofExcept {x : Except Fault Value} (h : Value.ResultAlike r.same x x) :
    Keeps r ClosedValue (ofExcept x) := keeps_value (matches_ofExcept h)

/-- A closure refers to its frame, which is in the region because the closure is. -/
theorem keeps_startCall {function : Value} (hFunction : ClosedValue r function) {args : List Value}
    (hArgs : ∀ v ∈ args, ClosedValue r v) (span : Span) :
    Keeps r ClosedSearch (startCall function args span) := by
  have hAlike : List.Forall₂ (Value.Alike r.same) args args := List.forall₂_same.mpr hArgs
  cases function with
  | closure cell f env =>
    cases (hFunction : Value.Alike _ _ _) with
    | closure _ _ hFrame =>
      exact keeps_bind (keeps_frame (matches_openCall f hFrame hAlike span)) fun _ _ _ hNew =>
        keeps_pure (.map (f := .call) trivial (.within hNew (.sequence _)))
  | primitive p =>
    exact keeps_bind (keeps_value (matches_applyPrimitive p hAlike span)) fun _ _ _ hv =>
      keeps_found (k := .value) hv
  | _ => exact keeps_throw _

/-- A condition that is no boolean is a fault. -/
theorem keeps_nonBoolean {P : Region → α → Prop} (v : Value) (span : Span) :
    Keeps r P (nonBoolean v span) := keeps_throw _

end Eval

/-- What stands after `else`. -/
theorem Alternate.keeps_start (a : Alternate) (r : Region) : Keeps r ClosedSearch a.start := by
  cases a with
  | absent => exact keeps_pure (.found Value.Alike.undefined)
  | block b => exact b.keeps_start r
  | branch b => exact b.keeps_start r

/-- One case for each thing that can be done to a result. -/
theorem Mapping.keeps_apply {i o : Kind} {f : Mapping i o} (hf : f.Closed r) {item : i.Item}
    (hItem : ClosedItem i r item) : Keeps r (ClosedItem o) (f.apply item) := by
  cases f with
  | array =>
    have hVs : List.Forall₂ (Value.Alike r.same) item item := List.forall₂_same.mpr hItem
    refine keeps_value (matches_bind matches_newCell fun _ hle _ _ hCell => ?_)
    exact matches_pure fun _ hle' => .array (Renaming.cells_of_le hle' hCell)
      (Value.itemsAlike_iff.mpr (hVs.imp fun _ _ h => h.mono (hle.trans hle')))
  | assign target =>
    exact keeps_bind (keeps_unit (matches_assign target hItem)) fun _ hle _ _ =>
      keeps_pure (ClosedValue.mono hle hItem)
  | unary op span => exact keeps_ofExcept (Value.Alike.unary op hItem span)
  | binary op left span => exact keeps_ofExcept (Value.Alike.binary op hf hItem span)
  | index object span => exact keeps_ofExcept (Value.Alike.index hf hItem span)
  | member property span => exact keeps_throw _
  | statement => exact keeps_pure hItem
  | declare isConst name =>
    exact keeps_bind (keeps_unit (matches_define name hItem isConst)) fun _ hle _ _ =>
      keeps_pure (ClosedValue.mono hle hItem)
  | returns => exact keeps_pure hItem
  | call =>
    refine keeps_pure ?_
    cases item with
    | returns v => exact hItem
    | _ => exact .undefined
  | program =>
    refine keeps_pure ?_
    cases item with
    | value v => exact hItem
    | returns v => exact hItem
    | _ => exact .undefined

/-- One case for each thing that can be evaluated after a result. -/
theorem Expansion.keeps_apply {i o : Kind} {f : Expansion i o} (hf : f.Closed r) {item : i.Item}
    (hItem : ClosedItem i r item) : Keeps r ClosedSearch (f.apply item) := by
  cases f with
  | binary op right span =>
    exact keeps_map (fun _ hle => ClosedValue.mono hle hItem) (right.keeps_start r)
  | logical op right leftSpan =>
    show Keeps r ClosedSearch (continueLogical op right leftSpan item)
    unfold continueLogical
    split
    · exact right.keeps_start r
    · exact right.keeps_start r
    · exact keeps_found (k := .value) (.bool _)
    · exact keeps_nonBoolean _ _
  | conditional consequent alternate testSpan =>
    show Keeps r ClosedSearch (continueConditional consequent alternate testSpan item)
    unfold continueConditional
    split
    · exact consequent.keeps_start r
    · exact alternate.keeps_start r
    · exact keeps_nonBoolean _ _
  | callee args span => exact keeps_pure (.bind (f := .arguments item span) hItem (.product args))
  | arguments function span => exact keeps_startCall hf hItem span
  | index key span => exact keeps_map (fun _ hle => ClosedValue.mono hle hItem) (key.keeps_start r)
  | require span =>
    show Keeps r ClosedSearch (continueRequire span item)
    unfold continueRequire
    split
    · exact keeps_found (k := .value) .undefined
    · exact keeps_pure .failed
    · exact keeps_throw _
  | branch consequent alternate testSpan =>
    show Keeps r ClosedSearch (continueBranch consequent alternate testSpan item)
    unfold continueBranch
    split
    · exact consequent.keeps_start r
    · exact alternate.keeps_start r
    · exact keeps_nonBoolean _ _

end AmbScript
