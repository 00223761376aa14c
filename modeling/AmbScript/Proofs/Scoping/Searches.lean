import AmbScript.Proofs.Machine.Holdings
import AmbScript.Proofs.Scoping.Actions

/-!
# Searches in their place

A search holds pieces of a program that are still to be evaluated, and values found before. It is
asked inside the frames that were in force when it was started, so what it holds is in its place if
the frame that it is asked in was made for the scope that the text puts around the pieces.

* `Search.Placed` — a search, asked in a frame, is in its place.
* `Expr.sets_start`, `Stmt.sets_start` — pieces in their place start searches in their place.
* `Mapping.charts_apply`, `Expansion.sets_apply` — going on from a result.

The frame that a search is asked in is not stored in the search, so `Search.Placed` has it as a
parameter, which changes where a frame is entered: for what is inside of `within`, and for the parts
of a loop with variables.
-/

namespace AmbScript

variable {α β : Type} {ch ch' : Chart} {outer fs : List FrameId} {f : FrameId}

open Eval

-- ---------------------------------------------------------------------------
-- Searches
-- ---------------------------------------------------------------------------

/-- The functions in the item are in their place. -/
def PlacedItem (k : Kind) (ch : Chart) (item : k.Item) : Prop :=
  match k, item with
  | .value, v => v.Placed ch
  | .completion, .value v => v.Placed ch
  | .completion, .returns v => v.Placed ch
  | .completion, _ => True
  | .tuple, vs => ∀ v ∈ vs, v.Placed ch

namespace Chart

/-- The frame was made for a scope. -/
def Knows (ch : Chart) (f : FrameId) : Prop := ∃ layout, ch.layout f = some layout

/-- All of the expressions are in their place in the frame. -/
def PlacesAll (ch : Chart) (f : FrameId) (es : List Expr) : Prop := ∀ e ∈ es, ch.Places f (.expr e)

/-- The statements are in their place in the frame; if it is the frame of a program, they are its
statements. -/
structure Opens (ch : Chart) (f : FrameId) (statements : List Stmt) : Prop where
  known : ch.Knows f
  code : ∀ code, ch.code f = some code → code = statements
  places : ∀ s ∈ statements, ch.Places f (.stmt s)

/-- A frame that a piece is in its place in was made for a scope. -/
theorem Places.known {n : Node} (h : ch.Places f n) : ch.Knows f := by
  obtain ⟨layout, -, -, hLayout, -⟩ := h
  exact ⟨layout, hLayout⟩

/-- A larger chart knows no fewer frames. -/
theorem Knows.mono (hle : ch ≤ ch') (h : ch.Knows f) : ch'.Knows f := by
  obtain ⟨layout, hLayout⟩ := h
  exact ⟨layout, layout_mono hle hLayout⟩

/-- Expressions stay in their place. -/
theorem PlacesAll.mono (hle : ch ≤ ch') {es : List Expr} (h : ch.PlacesAll f es) :
    ch'.PlacesAll f es := fun e he => (h e he).mono hle

theorem Opens.mono (hle : ch ≤ ch') {statements : List Stmt} (h : ch.Opens f statements) :
    ch'.Opens f statements where
  known := h.known.mono hle
  code code hCode := by
    obtain ⟨layout, hLayout⟩ := h.known
    exact h.code code ((code_mono hle hLayout).symm.trans hCode)
  places s hs := (h.places s hs).mono hle

end Chart

/-- Applied in the frame, the mapping is in its place. -/
def Mapping.Placed (ch : Chart) (f : FrameId) {i o : Kind} : Mapping i o → Prop
  | .assign target => ch.Places f (.target target)
  | .binary _ left _ => left.Placed ch
  | .index object _ => object.Placed ch
  | .declare .. => ch.Knows f
  | .program => ch.Knows f ∧ ∃ statements, ch.code f = some statements
  | _ => True

/-- Applied in the frame, the expansion goes on with pieces that are in their place there. -/
def Expansion.Placed (ch : Chart) (f : FrameId) {i o : Kind} : Expansion i o → Prop
  | .binary _ right _ => ch.Places f (.expr right)
  | .logical _ right _ => ch.Places f (.expr right)
  | .conditional consequent alternate _ =>
    ch.Places f (.expr consequent) ∧ ch.Places f (.expr alternate)
  | .callee args _ => ch.PlacesAll f args
  | .arguments function _ => function.Placed ch
  | .index key _ => ch.Places f (.expr key)
  | .require _ => True
  | .branch consequent alternate _ =>
    ch.Places f (.block consequent) ∧ ch.Places f (.alternate alternate)

/-- Inside the frame `f` the loop is in its place; its frame, if it has one, was made for it. -/
def Loop.Placed (ch : Chart) (f : FrameId) : Loop → Prop
  | .whileLoop test body => ch.Places f (.expr test) ∧ ch.Places f (.block body)
  | .forLoop init test update body frame => ∃ g path layout span,
    ch.at? g path = some (layout, .stmt (.forLoop init test update body span)) ∧
      ch.layout frame = some (⟨g, path, .loop init⟩ :: layout)

/-- The frame that the parts of a loop are asked in. -/
def Loop.inside (header : Loop) (f : FrameId) : FrameId := header.frames.headD f

mutual

/-- Asked in the frame, the search is in its place. -/
inductive Search.Placed (ch : Chart) : FrameId → {k : Kind} → Search k → Prop
  | failed (f : FrameId) {k : Kind} : Search.Placed ch f (.once (none : Option k.Item))
  | found (f : FrameId) {k : Kind} {item : k.Item} (h : PlacedItem k ch item) :
      Search.Placed ch f (.once (some item))
  | map {f : FrameId} {i o : Kind} {g : Mapping i o} (hg : g.Placed ch f) {s : Search i}
      (h : Search.Placed ch f s) : Search.Placed ch f (.map g s)
  | bind {f : FrameId} {i o : Kind} {g : Expansion i o} (hg : g.Placed ch f) {s : Search i}
      (h : Search.Placed ch f s) : Search.Placed ch f (.bind g s)
  | binding {f : FrameId} {i o : Kind} {g : Expansion i o} (hg : g.Placed ch f) {s : Search i}
      {t : Search o} (hOuter : Search.Placed ch f s) (hInner : Search.Placed ch f t) :
      Search.Placed ch f (.binding g s t)
  | within (f : FrameId) {k : Kind} {frame : FrameId} {s : Search k}
      (h : Search.Placed ch frame s) : Search.Placed ch f (.within frame s)
  | choice {f : FrameId} {alternatives : List Expr} (h : ch.PlacesAll f alternatives) :
      Search.Placed ch f (.choice alternatives)
  | between {f : FrameId} (start : Checkpoint) {alternatives : List Expr}
      (h : ch.PlacesAll f alternatives) : Search.Placed ch f (.choosing start none alternatives)
  | choosing {f : FrameId} (start : Checkpoint) {alternatives : List Expr}
      (hRest : ch.PlacesAll f alternatives) {s : Search .value} (h : Search.Placed ch f s) :
      Search.Placed ch f (.choosing start (some s) alternatives)
  | product {f : FrameId} {exprs : List Expr} (h : ch.PlacesAll f exprs) :
      Search.Placed ch f (.product exprs)
  | producing {f : FrameId} {operands : List Operand} (h : OperandsPlaced ch f operands)
      {values : List Value} (hValues : ∀ v ∈ values, v.Placed ch) :
      Search.Placed ch f (.producing operands values)
  | sequence {f : FrameId} {statements : List Stmt} (h : ch.Opens f statements) :
      Search.Placed ch f (.sequence statements)
  | sequenced {f : FrameId} {reached : List Reached} (h : ReachedPlaced ch f reached)
      (commit : Option Nat) : Search.Placed ch f (.sequenced reached commit)
  | loop {f : FrameId} {header : Loop} (hHeader : header.Placed ch f) :
      Search.Placed ch f (.loop header)
  | looping {f : FrameId} {header : Loop} (hHeader : header.Placed ch f) {phases : List Phase}
      (h : PhasesPlaced ch (header.inside f) phases) : Search.Placed ch f (.looping header phases)

/-- The operands are in their place, and so are the expressions that follow them. -/
inductive OperandsPlaced (ch : Chart) : FrameId → List Operand → Prop
  | nil (f : FrameId) : OperandsPlaced ch f []
  | cons {f : FrameId} {rest : List Expr} (hRest : ch.PlacesAll f rest) {s : Search .value}
      (h : Search.Placed ch f s) {below : List Operand} (hBelow : OperandsPlaced ch f below) :
      OperandsPlaced ch f (.mk rest s :: below)

/-- The statements that were reached are in their place, and so are those that follow them. -/
inductive ReachedPlaced (ch : Chart) : FrameId → List Reached → Prop
  | nil (f : FrameId) : ReachedPlaced ch f []
  | cons {f : FrameId} (index : Nat) {rest : List Stmt}
      (hRest : ∀ s ∈ rest, ch.Places f (.stmt s)) {s : Search .completion}
      (h : Search.Placed ch f s) {below : List Reached} (hBelow : ReachedPlaced ch f below) :
      ReachedPlaced ch f (.mk index rest s :: below)

/-- The parts of a loop are in their place. -/
inductive PhasesPlaced (ch : Chart) : FrameId → List Phase → Prop
  | nil (f : FrameId) : PhasesPlaced ch f []
  | cons {f : FrameId} {p : Phase} (h : Phase.Placed ch f p) {below : List Phase}
      (hBelow : PhasesPlaced ch f below) : PhasesPlaced ch f (p :: below)

/-- A part of a loop is in its place. -/
inductive Phase.Placed (ch : Chart) : FrameId → Phase → Prop
  | init {f : FrameId} {s : Search .completion} (h : Search.Placed ch f s) :
      Phase.Placed ch f (.init s)
  | test {f : FrameId} {s : Search .value} (h : Search.Placed ch f s) : Phase.Placed ch f (.test s)
  | body {f : FrameId} {s : Search .completion} (h : Search.Placed ch f s) :
      Phase.Placed ch f (.body s)
  | update {f : FrameId} {s : Search .value} (h : Search.Placed ch f s) :
      Phase.Placed ch f (.update s)

end

-- ---------------------------------------------------------------------------
-- Larger charts
-- ---------------------------------------------------------------------------

/-- A result stays in its place when the chart says more. -/
theorem PlacedItem.mono (hle : ch ≤ ch') {k : Kind} {item : k.Item} (h : PlacedItem k ch item) :
    PlacedItem k ch' item := by
  cases k with
  | value => exact Value.Placed.mono hle h
  | completion =>
    cases item with
    | value v => exact Value.Placed.mono hle h
    | returns v => exact Value.Placed.mono hle h
    | _ => trivial
  | tuple => exact Value.placed_mono hle h

theorem Mapping.Placed.mono (hle : ch ≤ ch') {i o : Kind} {g : Mapping i o}
    (h : g.Placed ch f) : g.Placed ch' f := by
  cases g with
  | assign => exact Chart.Places.mono hle h
  | binary => exact Value.Placed.mono hle h
  | index => exact Value.Placed.mono hle h
  | declare => exact Chart.Knows.mono hle h
  | program =>
    obtain ⟨⟨layout, hLayout⟩, statements, hCode⟩ := h
    exact ⟨⟨layout, Chart.layout_mono hle hLayout⟩, statements,
      (Chart.code_mono hle hLayout).trans hCode⟩
  | _ => trivial

theorem Expansion.Placed.mono (hle : ch ≤ ch') {i o : Kind} {g : Expansion i o}
    (h : g.Placed ch f) : g.Placed ch' f := by
  cases g with
  | binary => exact Chart.Places.mono hle h
  | logical => exact Chart.Places.mono hle h
  | conditional => exact ⟨h.1.mono hle, h.2.mono hle⟩
  | callee => exact Chart.PlacesAll.mono hle h
  | arguments => exact Value.Placed.mono hle h
  | index => exact Chart.Places.mono hle h
  | require => trivial
  | branch => exact ⟨h.1.mono hle, h.2.mono hle⟩

theorem Loop.Placed.mono (hle : ch ≤ ch') {header : Loop} (h : header.Placed ch f) :
    header.Placed ch' f := by
  cases header with
  | whileLoop => exact ⟨h.1.mono hle, h.2.mono hle⟩
  | forLoop =>
    obtain ⟨g, path, layout, span, hAt, hFrame⟩ := h
    exact ⟨g, path, layout, span, Chart.at?_mono hle hAt, Chart.layout_mono hle hFrame⟩

mutual

/-- A search stays in its place, with all lists of its parts. -/
theorem Search.Placed.mono (hle : ch ≤ ch') : ∀ {f : FrameId} {k : Kind} {s : Search k},
    s.Placed ch f → s.Placed ch' f
  | _, _, _, .failed f => .failed f
  | _, _, _, .found f h => .found f (h.mono hle)
  | _, _, _, .map hg h => .map (hg.mono hle) (h.mono hle)
  | _, _, _, .bind hg h => .bind (hg.mono hle) (h.mono hle)
  | _, _, _, .binding hg hOuter hInner => .binding (hg.mono hle) (hOuter.mono hle) (hInner.mono hle)
  | _, _, _, .within f h => .within f (h.mono hle)
  | _, _, _, .choice h => .choice (h.mono hle)
  | _, _, _, .between start h => .between start (h.mono hle)
  | _, _, _, .choosing start hRest h => .choosing start (hRest.mono hle) (h.mono hle)
  | _, _, _, .product h => .product (h.mono hle)
  | _, _, _, .producing h hValues => .producing (h.mono hle) (Value.placed_mono hle hValues)
  | _, _, _, .sequence h => .sequence (h.mono hle)
  | _, _, _, .sequenced h commit => .sequenced (h.mono hle) commit
  | _, _, _, .loop hHeader => .loop (hHeader.mono hle)
  | _, _, _, .looping hHeader h => .looping (hHeader.mono hle) (h.mono hle)

theorem OperandsPlaced.mono (hle : ch ≤ ch') : ∀ {f : FrameId} {os : List Operand},
    OperandsPlaced ch f os → OperandsPlaced ch' f os
  | _, _, .nil f => .nil f
  | _, _, .cons hRest h hBelow => .cons (hRest.mono hle) (h.mono hle) (hBelow.mono hle)

theorem ReachedPlaced.mono (hle : ch ≤ ch') : ∀ {f : FrameId} {rs : List Reached},
    ReachedPlaced ch f rs → ReachedPlaced ch' f rs
  | _, _, .nil f => .nil f
  | _, _, .cons index hRest h hBelow => by
    refine .cons index ?_ (h.mono hle) (hBelow.mono hle)
    intro s hs
    exact (hRest s hs).mono hle

theorem PhasesPlaced.mono (hle : ch ≤ ch') : ∀ {f : FrameId} {ps : List Phase},
    PhasesPlaced ch f ps → PhasesPlaced ch' f ps
  | _, _, .nil f => .nil f
  | _, _, .cons h hBelow => .cons (h.mono hle) (hBelow.mono hle)

theorem Phase.Placed.mono (hle : ch ≤ ch') : ∀ {f : FrameId} {p : Phase},
    p.Placed ch f → p.Placed ch' f
  | _, _, .init h => .init (h.mono hle)
  | _, _, .test h => .test (h.mono hle)
  | _, _, .body h => .body (h.mono hle)
  | _, _, .update h => .update (h.mono hle)

end

-- ---------------------------------------------------------------------------
-- Searches that are started
-- ---------------------------------------------------------------------------

/-- What an action comes to is in its place in the frame `f`. -/
def PlacedSearch (f : FrameId) {k : Kind} (ch : Chart) (s : Search k) : Prop := s.Placed ch f

/-- A node comes to a search that is in its place where the node is evaluated. -/
abbrev Eval.Sets (ch : Chart) (outer fs : List FrameId) {k : Kind} (x : Eval (Search k)) : Prop :=
  Charts ch outer fs (Stay fs (PlacedSearch (innermost outer fs))) x

namespace Eval

/-- A result that is known at once. -/
theorem sets_found {k : Kind} {item : k.Item} (h : PlacedItem k ch item) :
    Sets ch outer fs (pure (Search.found item)) := charts_pure ⟨rfl, .found _ h⟩

/-- A search around another one. -/
theorem sets_map {i o : Kind} {g : Mapping i o} {x : Eval (Search i)}
    (hg : ∀ ch', ch ≤ ch' → g.Placed ch' (innermost outer fs)) (hx : Sets ch outer fs x) :
    Sets ch outer fs (do return .map g (← x)) := by
  refine charts_stay_bind hx fun ch' hle _ hs => ?_
  exact charts_pure ⟨rfl, .map (hg ch' hle) hs⟩

/-- A search for what is evaluated after each result. -/
theorem sets_bind {i o : Kind} {g : Expansion i o} {x : Eval (Search i)}
    (hg : ∀ ch', ch ≤ ch' → g.Placed ch' (innermost outer fs)) (hx : Sets ch outer fs x) :
    Sets ch outer fs (do return .bind g (← x)) := by
  refine charts_stay_bind hx fun ch' hle _ hs => ?_
  exact charts_pure ⟨rfl, .bind (hg ch' hle) hs⟩

end Eval

/-- The statements of a block are in their place in the frame that is made for it. -/
theorem Block.sets_start {b : Block} (h : ch.Places (innermost outer fs) (.block b)) :
    Sets ch outer fs b.start := by
  refine charts_stay_bind (charts_openBlock h) fun ch' _ frame hFrame => ?_
  obtain ⟨hKnown, hCode, hStatements⟩ := hFrame
  refine charts_pure ⟨rfl, .within _ (.sequence ⟨hKnown, fun code hSome => ?_, hStatements⟩)⟩
  rw [hCode] at hSome
  cases hSome

mutual

/-- By recursion on the expression. A part is in its place in the same frame, since no expression is
a scope. -/
theorem Expr.sets_start : ∀ (e : Expr) {ch : Chart} {outer fs : List FrameId},
    ch.Places (innermost outer fs) (.expr e) → Sets ch outer fs e.start
  | .number x _, _, _, _, _ => charts_counted (sets_found (k := .value) (.number x))
  | .string text _, _, _, _, _ => charts_counted (sets_found (k := .value) (.string text))
  | .bool b _, _, _, _, _ => charts_counted (sets_found (k := .value) (.bool b))
  | .null _, _, _, _, _ => charts_counted (sets_found (k := .value) .null)
  | .undefined _, _, _, _, _ => charts_counted (sets_found (k := .value) .undefined)
  | .array items _, _, _, _, h => by
    refine charts_counted ?_
    refine charts_pure ?_
    refine ⟨rfl, ?_⟩
    refine .map (g := .array) trivial ?_
    refine .product fun e he => ?_
    exact h.part _ (List.mem_map_of_mem he)
  | .ident name, _, _, _, h => by
    obtain ⟨layout, hLayout⟩ := h.known
    exact charts_counted (charts_stay_bind (charts_lookup hLayout name) fun _ _ _ hv =>
      sets_found (k := .value) hv)
  | .assign target value _, _, _, _, h => by
    have hTarget := h.part (.target target) List.mem_cons_self
    have hValue := h.part (.expr value) (List.mem_cons_of_mem _ List.mem_cons_self)
    exact charts_counted (sets_map (fun _ hle => hTarget.mono hle) (value.sets_start hValue))
  | .unary _ operand _, _, _, _, h => by
    refine charts_counted ?_
    exact sets_map (fun _ _ => trivial) (operand.sets_start (h.part _ List.mem_cons_self))
  | .binary _ left right _, _, _, _, h => by
    have hRight := h.part (.expr right) (List.mem_cons_of_mem _ List.mem_cons_self)
    exact charts_counted (sets_bind (fun _ hle => hRight.mono hle)
      (left.sets_start (h.part _ List.mem_cons_self)))
  | .logical _ left right _, _, _, _, h => by
    have hRight := h.part (.expr right) (List.mem_cons_of_mem _ List.mem_cons_self)
    exact charts_counted (sets_bind (fun _ hle => hRight.mono hle)
      (left.sets_start (h.part _ List.mem_cons_self)))
  | .conditional test consequent alternate _, _, _, _, h => by
    have hConsequent := h.part (.expr consequent)
      (List.mem_cons_of_mem _ List.mem_cons_self)
    have hAlternate := h.part (.expr alternate)
      (List.mem_cons_of_mem _ (List.mem_cons_of_mem _ List.mem_cons_self))
    exact charts_counted (sets_bind (fun _ hle => ⟨hConsequent.mono hle, hAlternate.mono hle⟩)
      (test.sets_start (h.part _ List.mem_cons_self)))
  | .call callee args span, _, _, _, h => by
    have hArgs (e : Expr) (he : e ∈ args) := h.part (.expr e)
      (List.mem_map_of_mem (List.mem_cons_of_mem _ he))
    refine charts_counted ?_
    split
    · exact charts_pure ⟨rfl, .choice hArgs⟩
    · exact sets_startRequire args span hArgs
    · exact sets_bind (fun _ hle => Chart.PlacesAll.mono hle hArgs)
        (callee.sets_start (h.part _ (List.mem_map_of_mem List.mem_cons_self)))
  | .index object key _, _, _, _, h => by
    have hKey := h.part (.expr key) (List.mem_cons_of_mem _ List.mem_cons_self)
    exact charts_counted (sets_bind (fun _ hle => hKey.mono hle)
      (object.sets_start (h.part _ List.mem_cons_self)))
  | .member object _ _, _, _, _, h => by
    refine charts_counted ?_
    exact sets_map (fun _ _ => trivial) (object.sets_start (h.part _ List.mem_cons_self))
  | .function g, _, _, _, h => by
    have hFunction := h.part (.function g) List.mem_cons_self
    refine charts_counted (charts_get_bind fun c hStands => ?_)
    rw [hStands.current]
    exact charts_stay_bind (charts_newClosure hFunction)
      (fun _ _ _ hv => sets_found (k := .value) hv) c hStands

/-- The predicate of a requirement is in its place. -/
theorem sets_startRequire : ∀ (args : List Expr) (span : Span) {ch : Chart}
    {outer fs : List FrameId}, ch.PlacesAll (innermost outer fs) args →
      Sets ch outer fs (startRequire args span)
  | [predicate], _, _, _, _, h =>
    sets_bind (fun _ _ => trivial) (predicate.sets_start (h predicate List.mem_cons_self))
  | [], _, _, _, _, _ => charts_throw _
  | _ :: _ :: _, _, _, _, _, _ => charts_throw _

end

theorem Branch.sets_start {b : Branch} (h : ch.Places (innermost outer fs) (.branch b)) :
    Sets ch outer fs b.start := by
  cases b with
  | mk test consequent alternate span =>
    have hConsequent := h.part (.block consequent)
      (List.mem_cons_of_mem _ List.mem_cons_self)
    have hAlternate := h.part (.alternate alternate)
      (List.mem_cons_of_mem _ (List.mem_cons_of_mem _ List.mem_cons_self))
    exact charts_counted (sets_bind (fun _ hle => ⟨hConsequent.mono hle, hAlternate.mono hle⟩)
      (test.sets_start (h.part _ List.mem_cons_self)))

/-- One case for each kind of statement. A `for` loop makes the frame of its variables. -/
theorem Stmt.sets_start {s : Stmt} (h : ch.Places (innermost outer fs) (.stmt s)) :
    Sets ch outer fs s.start := by
  cases s with
  | expr e => exact charts_counted (sets_map (fun _ _ => trivial)
      (e.sets_start (h.part _ List.mem_cons_self)))
  | declare isConst name init span =>
    exact charts_counted (sets_map (fun _ hle => h.known.mono hle)
      (init.sets_start (h.part _ List.mem_cons_self)))
  | function g => exact charts_counted (sets_found (k := .completion) Value.Placed.undefined)
  | returns value span => exact charts_counted (sets_map (fun _ _ => trivial)
      (value.sets_start (h.part _ List.mem_cons_self)))
  | branch b => exact b.sets_start (h.part _ List.mem_cons_self)
  | block b => exact charts_counted (b.sets_start (h.part _ List.mem_cons_self))
  | whileLoop test body span =>
    have hBody := h.part (.block body) (List.mem_cons_of_mem _ List.mem_cons_self)
    exact charts_counted (charts_pure ⟨rfl, .loop ⟨h.part _ List.mem_cons_self, hBody⟩⟩)
  | forLoop init test update body span =>
    -- the header keeps the place of the whole statement, from which its parts are found later
    obtain ⟨layout, g, path, hLayout, hAt⟩ := h
    refine charts_counted (charts_stay_bind (charts_openLoop g path hLayout) ?_)
    exact fun ch' hle frame hFrame => charts_pure ⟨rfl, .loop
      ⟨g, path, layout, span, Chart.at?_mono hle hAt, hFrame⟩⟩
  | breakLoop span => exact charts_counted (sets_found (k := .completion) trivial)
  | continueLoop span => exact charts_counted (sets_found (k := .completion) trivial)
  | cut span => exact charts_counted (sets_found (k := .completion) Value.Placed.undefined)

theorem Alternate.sets_start {a : Alternate} (h : ch.Places (innermost outer fs) (.alternate a)) :
    Sets ch outer fs a.start := by
  cases a with
  | absent => exact sets_found (k := .completion) Value.Placed.undefined
  | block b => exact b.sets_start (h.part _ List.mem_cons_self)
  | branch b => exact b.sets_start (h.part _ List.mem_cons_self)

-- ---------------------------------------------------------------------------
-- Values that are computed
-- ---------------------------------------------------------------------------

namespace Value

/-- A prefix operator gives a number or a boolean. -/
theorem placed_unary {op : UnaryOp} {v w : Value} {span : Span} (h : v.unary op span = .ok w) :
    w.Placed ch := by
  cases op <;> cases v <;> cases h
  · exact .number _
  · exact .bool _

/-- Arithmetic gives a number. -/
theorem placed_arithmetic {g : Float → Float → Float} {v w x : Value} {span : Span}
    (h : arithmetic g v w span = .ok x) : x.Placed ch := by
  unfold arithmetic at h
  cases hNumbers : numbers v w span with
  | error t =>
    rw [hNumbers] at h
    cases h
  | ok xy =>
    rw [hNumbers] at h
    cases h
    exact .number _

/-- A comparison gives a boolean. -/
theorem placed_comparison {g : Float → Float → Bool} {g' : String → String → Bool}
    {v w x : Value} {span : Span} (h : comparison g g' v w span = .ok x) : x.Placed ch := by
  unfold comparison at h
  cases hMatched : matched v w span with
  | error t =>
    rw [hMatched] at h
    cases h
  | ok both =>
    rw [hMatched] at h
    cases both <;> cases h <;> exact .bool _

/-- A sum is a number or a text. -/
theorem placed_add {v w x : Value} {span : Span} (h : v.add w span = .ok x) : x.Placed ch := by
  unfold add at h
  cases hMatched : matched v w span with
  | error t =>
    rw [hMatched] at h
    cases h
  | ok both =>
    rw [hMatched] at h
    cases both <;> cases h
    · exact .number _
    · exact .string _

/-- No operator gives a function. -/
theorem placed_binary {op : BinaryOp} {v w x : Value} {span : Span}
    (h : Value.binary op v w span = .ok x) : x.Placed ch := by
  cases op with
  | equal =>
    cases h
    exact .bool _
  | notEqual =>
    cases h
    exact .bool _
  | add => exact placed_add h
  | subtract => exact placed_arithmetic h
  | multiply => exact placed_arithmetic h
  | divide => exact placed_arithmetic h
  | remainder => exact placed_arithmetic h
  | less => exact placed_comparison h
  | greater => exact placed_comparison h
  | lessEqual => exact placed_comparison h
  | greaterEqual => exact placed_comparison h

/-- The items of an object are in their place if it is. -/
theorem placed_index {object key w : Value} {span : Span} (hObject : object.Placed ch)
    (h : object.index key span = .ok w) : w.Placed ch := by
  -- what an index can reach is an item of the array or a part of the pair
  have hItems : ∀ items kind, object.items? = some (items, kind) → ∀ v ∈ items, v.Placed ch := by
    intro items kind hEq
    cases hObject with
    | array cell hAll =>
      cases hEq
      exact hAll
    | pair cell hHead hTail =>
      cases hEq
      exact List.forall_mem_cons.mpr ⟨hHead, List.forall_mem_singleton.mpr hTail⟩
    | _ => cases hEq
  unfold index at h
  split at h
  · cases h
  · rename_i items kind hEq
    split at h
    · split at h
      · rename_i v hFound
        cases h
        obtain ⟨i, -, hFound⟩ := Option.bind_eq_some_iff.mp hFound
        exact hItems items kind hEq w (List.mem_of_getElem? hFound)
      · cases h
    · cases h

end Value

namespace Eval

/-- The results of an action are values in their place. -/
abbrev Gives (ch : Chart) (outer fs : List FrameId) (x : Eval Value) : Prop :=
  Charts ch outer fs (Stay fs fun ch' v => v.Placed ch') x

/-- A value that was computed without looking at the context. -/
theorem gives_ofExcept {x : Except Fault Value} (h : ∀ v, x = .ok v → v.Placed ch) :
    Gives ch outer fs (ofExcept x) := by
  cases x with
  | error t => exact charts_throw t
  | ok v => exact charts_pure ⟨rfl, h v rfl⟩

/-- A pair is in its place if its parts are. -/
theorem gives_newPair {v w : Value} (hv : v.Placed ch) (hw : w.Placed ch) :
    Gives ch outer fs (Primitive.newPair v w) := by
  refine charts_stay_bind charts_newCell fun _ hle cell _ => ?_
  exact charts_pure ⟨rfl, .pair cell (hv.mono hle) (hw.mono hle)⟩

/-- The list of values that are in their place is in its place. -/
theorem gives_listOnto {items : List Value} (h : ∀ v ∈ items, v.Placed ch) {done : Value}
    (hDone : done.Placed ch) : Gives ch outer fs (Primitive.listOnto items done) := by
  induction items generalizing ch done with
  | nil => exact charts_pure ⟨rfl, hDone⟩
  | cons v vs ih =>
    obtain ⟨hv, hvs⟩ := List.forall_mem_cons.mp h
    exact charts_stay_bind (gives_newPair hv hDone) fun _ hle _ hPair =>
      ih (Value.placed_mono hle hvs) hPair

/-- An answer is in its place. -/
def PlacedAnswer (ch : Chart) (answer : Except HostFault Value) : Prop :=
  ∀ v, answer = .ok v → v.Placed ch

/-- An answer that is a value. -/
theorem charts_answer {x : Eval Value} (h : Gives ch outer fs x) :
    Charts ch outer fs (Stay fs PlacedAnswer) (do return .ok (← x)) := by
  refine charts_stay_bind h fun _ _ v hv => ?_
  refine charts_pure ?_
  refine ⟨rfl, ?_⟩
  intro w hw
  cases hw; exact hv

/-- An answer that is known. -/
theorem charts_decided {answer : Except HostFault Value} (h : PlacedAnswer ch answer) :
    Charts ch outer fs (Stay fs PlacedAnswer) (pure answer) := charts_pure ⟨rfl, h⟩

/-- The answer is a number. -/
theorem placedAnswer_onNumber (p : Primitive) (g : Float → Float) (v : Value) :
    PlacedAnswer ch (p.onNumber g v) := by
  intro w hw
  cases v <;> cases hw
  exact .number _

/-- The answer is one of some numbers. -/
theorem placedAnswer_selectNumber (p : Primitive) (displaces : Float → Float → Bool)
    (position : Nat) (best : Float) (vs : List Value) :
    PlacedAnswer ch (p.selectNumber displaces position best vs) := by
  induction vs generalizing position best with
  | nil =>
    intro w hw
    cases hw
    exact .number _
  | cons v vs ih =>
    intro w hw
    unfold Primitive.selectNumber at hw
    split at hw
    · split at hw
      · cases hw
        exact .number _
      · exact ih _ _ w hw
    · cases hw

/-- A primitive answers with what it makes itself or with parts of its arguments. -/
theorem charts_call (p : Primitive) {args : List Value} (h : ∀ v ∈ args, v.Placed ch) :
    Charts ch outer fs (Stay fs PlacedAnswer) (p.call args) := by
  -- no primitive answers with a closure of its own making: an answer is a part of an argument, made
  -- of arguments, or plain
  have hOk {v : Value} (hv : v.Placed ch) : PlacedAnswer ch (.ok v) := fun w hw => by
    cases hw
    exact hv
  have hError (e : HostFault) : PlacedAnswer ch (.error e) := fun v hv => by cases hv
  unfold Primitive.call
  split
  case h_1 a b => exact charts_answer (gives_newPair (h a (by simp)) (h b (by simp)))
  case h_2 cell a b =>
    cases h (.pair cell a b) (by simp) with
    | pair _ hHead _ => exact charts_decided (hOk hHead)
  case h_4 cell a b =>
    cases h (.pair cell a b) (by simp) with
    | pair _ _ hTail => exact charts_decided (hOk hTail)
  case h_6 => exact charts_answer (gives_listOnto (fun v hv => h v (List.mem_reverse.mp hv)) .null)
  case h_8 v => exact charts_answer (charts_showLine (h v (by simp)) none)
  case h_9 v heading => exact charts_answer (charts_showLine (h v (by simp)) (some heading))
  case h_12 => exact charts_decided (hOk (.string _))
  case h_13 | h_14 | h_15 | h_16 | h_17 => exact charts_decided (placedAnswer_onNumber _ _ _)
  case h_18 x y =>
    refine charts_decided fun w hw => ?_
    cases hNumbers : Primitive.pow.numberArgs 1 [x, y] with
    | error e =>
      rw [hNumbers] at hw
      cases hw
    | ok xs =>
      rw [hNumbers] at hw
      rcases xs with _ | ⟨x, _ | ⟨y, _ | ⟨z, rest⟩⟩⟩ <;> cases hw
      · exact .undefined
      · exact .undefined
      · exact .number _
      · exact .undefined
  case h_19 | h_20 => exact charts_decided (placedAnswer_selectNumber _ _ _ _ _)
  case h_21 => exact charts_decided (hOk (.number _))
  case h_7 | h_23 => exact charts_decided (hOk (.bool _))
  case h_24 => exact charts_decided (hOk .undefined)
  all_goals exact charts_decided (hError _)

/-- What a primitive gives is in its place if its arguments are. -/
theorem gives_applyPrimitive (p : Primitive) {args : List Value} (h : ∀ v ∈ args, v.Placed ch)
    (span : Span) : Gives ch outer fs (applyPrimitive p args span) := by
  unfold applyPrimitive
  split
  · exact charts_throw _
  · refine charts_stay_bind (charts_call p h) fun _ _ answer hPlaced => ?_
    cases answer with
    | ok v => exact charts_pure ⟨rfl, hPlaced v rfl⟩
    | error e => exact charts_throw _

end Eval

-- ---------------------------------------------------------------------------
-- Going on from a result
-- ---------------------------------------------------------------------------

/-- The body of a function is in its place in the frame of the call, since the function is in its
own. -/
theorem Eval.sets_startCall {function : Value} (hFunction : function.Placed ch)
    {args : List Value} (hArgs : ∀ v ∈ args, v.Placed ch) (span : Span) :
    Sets ch outer fs (startCall function args span) := by
  cases hFunction with
  | closure cell h =>
    refine charts_stay_bind (charts_openCall h hArgs span) fun ch' _ frame hFrame => ?_
    obtain ⟨hKnown, hCode, hStatements⟩ := hFrame
    refine charts_pure ⟨rfl, .map (g := .call) trivial
      (.within _ (.sequence ⟨hKnown, fun code hSome => ?_, hStatements⟩))⟩
    rw [hCode] at hSome
    cases hSome
  | primitive p =>
    exact charts_stay_bind (gives_applyPrimitive p hArgs span) fun _ _ _ hv =>
      sets_found (k := .value) hv
  | _ => exact charts_throw _

/-- One case for each thing that can be done to a result. -/
theorem Mapping.charts_apply {i o : Kind} {g : Mapping i o} (hg : g.Placed ch (innermost outer fs))
    {item : i.Item} (hItem : PlacedItem i ch item) :
    Charts ch outer fs (Stay fs (PlacedItem o)) (g.apply item) := by
  cases g with
  | array =>
    exact charts_stay_bind charts_newCell fun _ hle cell _ =>
      charts_pure ⟨rfl, .array cell (Value.placed_mono hle hItem)⟩
  | assign target =>
    obtain ⟨layout, hLayout⟩ := Chart.Places.known hg
    exact charts_stay_bind (charts_assign hLayout target hItem) fun _ hle _ _ =>
      charts_pure ⟨rfl, Value.Placed.mono hle hItem⟩
  | unary op span => exact gives_ofExcept fun v hv => Value.placed_unary hv
  | binary op left span => exact gives_ofExcept fun v hv => Value.placed_binary hv
  | index object span => exact gives_ofExcept fun v hv => Value.placed_index hg hv
  | member property span => exact charts_throw _
  | statement => exact charts_pure ⟨rfl, hItem⟩
  | declare isConst name =>
    obtain ⟨layout, hLayout⟩ := hg
    exact charts_stay_bind (charts_define hLayout name hItem isConst) fun _ hle _ _ =>
      charts_pure ⟨rfl, Value.Placed.mono hle hItem⟩
  | returns => exact charts_pure ⟨rfl, hItem⟩
  | call =>
    refine charts_pure ⟨rfl, ?_⟩
    cases item with
    | returns v => exact hItem
    | _ => exact .undefined
  | program =>
    refine charts_pure ⟨rfl, ?_⟩
    cases item with
    | value v => exact hItem
    | returns v => exact hItem
    | _ => exact .undefined

/-- One case for each thing that can be evaluated after a result. -/
theorem Expansion.sets_apply {i o : Kind} {g : Expansion i o} (hg : g.Placed ch (innermost outer fs))
    {item : i.Item} (hItem : PlacedItem i ch item) : Sets ch outer fs (g.apply item) := by
  cases g with
  | binary op right span =>
    exact sets_map (fun _ hle => Value.Placed.mono hle hItem) (right.sets_start hg)
  | logical op right leftSpan =>
    show Sets ch outer fs (continueLogical op right leftSpan item)
    unfold continueLogical
    split
    · exact right.sets_start hg
    · exact right.sets_start hg
    · exact sets_found (k := .value) (.bool _)
    · exact charts_throw _
  | conditional consequent alternate testSpan =>
    show Sets ch outer fs (continueConditional consequent alternate testSpan item)
    unfold continueConditional
    split
    · exact consequent.sets_start hg.1
    · exact alternate.sets_start hg.2
    · exact charts_throw _
  | callee args span =>
    exact charts_pure ⟨rfl, .bind (g := .arguments item span) hItem (.product hg)⟩
  | arguments function span => exact sets_startCall hg hItem span
  | index key span => exact sets_map (fun _ hle => Value.Placed.mono hle hItem) (key.sets_start hg)
  | require span =>
    show Sets ch outer fs (continueRequire span item)
    unfold continueRequire
    split
    · exact sets_found (k := .value) .undefined
    · exact charts_pure ⟨rfl, .failed _⟩
    · exact charts_throw _
  | branch consequent alternate testSpan =>
    show Sets ch outer fs (continueBranch consequent alternate testSpan item)
    unfold continueBranch
    split
    · exact consequent.sets_start hg.1
    · exact alternate.sets_start hg.2
    · exact charts_throw _

end AmbScript
