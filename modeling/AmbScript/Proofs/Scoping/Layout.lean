import Mathlib.Order.Defs.PartialOrder
import AmbScript.Primitive.Call
import AmbScript.Proofs.Store.Constancy

/-!
# Layouts

The text of a program tells which scopes are around each place in it, and which names each of them
has. A chart says of the frames of a store which scopes they were made for. If the store fits it,
the frame of a name is told by the text: it is as many frames outwards as there are scopes around
the place that do not have the name.

* `Construct` — what a frame is made for, and the names that it gets.
* `Node.parts` — the parts of a piece of a program, and the scopes that each of them is in.
* `Chart.at?` — the piece at a place of a program, with the scopes around it.
* `Chart.Places` — evaluated in this frame, the piece is in the scopes that the text puts around it.
* `Chart.Fits` — the frames of a store are as the chart says.
* `Chart.Fits.resolve?` — the frame that a name is found in.

A place in a program is given from the inside out, by the number of the part in its whole, the
number of that one in its own, and so on. So a part of a place is a list with one more number at its
head, and nothing has to be said about how paths are put together.
-/

namespace AmbScript

open Store

-- ---------------------------------------------------------------------------
-- Scopes in a text
-- ---------------------------------------------------------------------------

/-- What a frame is made for. -/
inductive Construct
  | globals
  | program (statements : List Stmt)
  | block (b : Block)
  | call (f : Function)
  /-- The variables of a `for` loop. -/
  | loop (init : Option LoopInit)
  /-- Their copies of one round. -/
  | round (init : Option LoopInit)

namespace Construct

/-- What the frame is called. -/
def frameName : Construct → String
  | globals => "global"
  | program _ => "programEnvironment"
  | block _ => "blockEnvironment"
  | call f => f.displayName
  | loop _ => "forLoopEnvironment"
  | round _ => "forBlockEnvironment"

/-- The variables of a `for` loop. -/
def loopVariables (init : Option LoopInit) : List Ident := (init.map LoopInit.declared).getD []

/-- The names that are bound in the frame. -/
def names : Construct → List String
  | globals => Primitive.all.map Primitive.name ++ numericConstants.map Prod.fst
  | program statements => (statements.filterMap Stmt.declaredName?).map Ident.name
  | block b => b.declarations.map Ident.name
  | call f => f.params.map Ident.name ++ f.body.declarations.map Ident.name
  | loop init => (loopVariables init).map Ident.name
  | round init => (loopVariables init).map Ident.name

end Construct

/-- A piece of a program. -/
inductive Node
  | program (statements : List Stmt)
  /-- The name that an assignment is to. -/
  | target (name : Ident)
  | expr (e : Expr)
  | stmt (s : Stmt)
  | block (b : Block)
  | branch (b : Branch)
  | alternate (a : Alternate)
  | function (f : Function)

namespace Node

/-- The name that is read or assigned to here. -/
def ident? : Node → Option Ident
  | target name => some name
  | expr (.ident name) => some name
  | _ => none

/-- The parts, each with the scopes that it is in and its whole is not, innermost first. -/
def parts : Node → List (List Construct × Node)
  | program statements => statements.map fun s => ([.program statements], stmt s)
  | target _ => []
  | expr e => exprParts e
  | stmt s => stmtParts s
  | block b => b.statements.map fun s => ([.block b], stmt s)
  | branch (.mk test consequent otherwise _) =>
    [([], expr test), ([], block consequent), ([], alternate otherwise)]
  | alternate .absent => []
  | alternate (.block b) => [([], block b)]
  | alternate (.branch b) => [([], branch b)]
  | function f => f.body.statements.map fun s => ([.call f], stmt s)
where
  exprParts : Expr → List (List Construct × Node)
    | .number .. | .string .. | .bool .. | .null _ | .undefined _ | .ident _ => []
    | .array items _ => items.map fun e => ([], expr e)
    | .assign name value _ => [([], target name), ([], expr value)]
    | .unary _ operand _ => [([], expr operand)]
    | .binary _ left right _ => [([], expr left), ([], expr right)]
    | .logical _ left right _ => [([], expr left), ([], expr right)]
    | .conditional test consequent otherwise _ =>
      [([], expr test), ([], expr consequent), ([], expr otherwise)]
    | .call callee args _ => (callee :: args).map fun e => ([], expr e)
    | .index object key _ => [([], expr object), ([], expr key)]
    | .member object _ _ => [([], expr object)]
    | .function f => [([], function f)]
  stmtParts : Stmt → List (List Construct × Node)
    | .expr e => [([], expr e)]
    | .declare _ _ init _ => [([], expr init)]
    | .function f => [([], function f)]
    | .returns value _ => [([], expr value)]
    | .branch b => [([], branch b)]
    | .block b => [([], block b)]
    | .whileLoop test body _ => [([], expr test), ([], block body)]
    | .forLoop init test update body _ =>
      (init.toList.map fun i => ([.loop init], stmt i.toStmt)) ++
        (test.toList.map fun e => ([.loop init], expr e)) ++
        (update.toList.map fun e => ([.loop init], expr e)) ++
        [([.round init, .loop init], block body)]
    | .breakLoop _ | .continueLoop _ | .cut _ => []

end Node

/-- A scope construct of a program that is run: the program is told by its frame, and the place by
the parts to go to, from the inside out. -/
structure Site where
  program : FrameId
  path : List Nat
  construct : Construct

/-- The scopes around a place, innermost first. -/
abbrev Layout := List Site

/-- The number of scopes to go outwards to the first one that has the name. -/
def Layout.hops? (layout : Layout) (name : String) : Option Nat :=
  layout.findIdx? fun site => decide (name ∈ site.construct.names)

/-- A name is in the innermost scope, or one scope further out than from the next one. -/
theorem Layout.hops?_cons (site : Site) (outside : Layout) (name : String) :
    Layout.hops? (site :: outside) name =
      if name ∈ site.construct.names then some 0 else (outside.hops? name).map (· + 1) := by
  unfold hops?
  rw [List.findIdx?_cons]
  simp

-- ---------------------------------------------------------------------------
-- Charts
-- ---------------------------------------------------------------------------

/-- What frames were made for. -/
structure Chart where
  /-- The statements of the program that the frame is of, if it is one of a program. -/
  code : FrameId → Option (List Stmt)
  /-- The scope that the frame was made for, and those around it. -/
  layout : FrameId → Option Layout

namespace Chart

/-- The piece of the program with the frame `g` at a place, and the scopes that it is in. -/
def at? (ch : Chart) (g : FrameId) : List Nat → Option (Layout × Node)
  | [] => do
    let layout ← ch.layout g
    let statements ← ch.code g
    return (layout.tail, .program statements)
  | i :: path => do
    let (layout, whole) ← ch.at? g path
    let (constructs, part) ← whole.parts[i]?
    return (constructs.map (⟨g, path, ·⟩) ++ layout, part)

/-- The piece is somewhere in a program, in the scopes that the frame was made for. -/
def Places (ch : Chart) (f : FrameId) (n : Node) : Prop :=
  ∃ layout g path, ch.layout f = some layout ∧ ch.at? g path = some (layout, n)

/-- All that a chart says is said by a later one. -/
instance : Preorder Chart where
  le ch ch' := ∀ f layout, ch.layout f = some layout →
    ch'.layout f = some layout ∧ ch'.code f = ch.code f
  le_refl _ _ _ h := ⟨h, rfl⟩
  le_trans _ _ _ h h' f layout hLayout := by
    obtain ⟨hFirst, hCode⟩ := h f layout hLayout
    obtain ⟨hSecond, hCode'⟩ := h' f layout hFirst
    exact ⟨hSecond, hCode'.trans hCode⟩

variable {ch ch' : Chart}

/-- What a chart says of a frame, a larger one says too. -/
theorem layout_mono (hle : ch ≤ ch') {f : FrameId} {layout : Layout}
    (h : ch.layout f = some layout) : ch'.layout f = some layout := (hle f layout h).1

theorem code_mono (hle : ch ≤ ch') {f : FrameId} {layout : Layout}
    (h : ch.layout f = some layout) : ch'.code f = ch.code f := (hle f layout h).2

theorem at?_mono (hle : ch ≤ ch') {g : FrameId} {path : List Nat} {x : Layout × Node}
    (h : ch.at? g path = some x) : ch'.at? g path = some x := by
  induction path generalizing x with
  | nil =>
    obtain ⟨layout, hLayout, h⟩ := Option.bind_eq_some_iff.mp h
    obtain ⟨statements, hCode, h⟩ := Option.bind_eq_some_iff.mp h
    refine Option.bind_eq_some_iff.mpr ⟨layout, layout_mono hle hLayout, ?_⟩
    exact Option.bind_eq_some_iff.mpr ⟨statements, (code_mono hle hLayout).trans hCode, h⟩
  | cons i path ih =>
    obtain ⟨whole, hWhole, h⟩ := Option.bind_eq_some_iff.mp h
    exact Option.bind_eq_some_iff.mpr ⟨whole, ih hWhole, h⟩

theorem Places.mono (hle : ch ≤ ch') {f : FrameId} {n : Node} (h : ch.Places f n) :
    ch'.Places f n := by
  obtain ⟨layout, g, path, hLayout, hAt⟩ := h
  exact ⟨layout, g, path, layout_mono hle hLayout, at?_mono hle hAt⟩

/-- A part is one step further. -/
theorem exists_at?_part {g : FrameId} {path : List Nat} {layout : Layout} {n part : Node}
    {constructs : List Construct} (h : ch.at? g path = some (layout, n))
    (hPart : (constructs, part) ∈ n.parts) :
    ∃ i, ch.at? g (i :: path) = some (constructs.map (⟨g, path, ·⟩) ++ layout, part) := by
  obtain ⟨i, hi⟩ := List.mem_iff_getElem?.mp hPart
  exact ⟨i, Option.bind_eq_some_iff.mpr ⟨_, h, Option.bind_eq_some_iff.mpr ⟨_, hi, rfl⟩⟩⟩

/-- A part without a scope of its own is in the same scopes. -/
theorem Places.part {f : FrameId} {n : Node} (h : ch.Places f n) (part : Node)
    (hPart : ([], part) ∈ n.parts) : ch.Places f part := by
  obtain ⟨layout, g, path, hLayout, hAt⟩ := h
  obtain ⟨i, hi⟩ := exists_at?_part hAt hPart
  exact ⟨layout, g, i :: path, hLayout, hi⟩

/-- A part with scopes of its own is in the frame that was made for them. -/
theorem places_part (constructs : List Construct) {f g : FrameId} {path : List Nat}
    {layout : Layout} {n part : Node} (hAt : ch.at? g path = some (layout, n))
    (hPart : (constructs, part) ∈ n.parts)
    (hLayout : ch.layout f = some (constructs.map (⟨g, path, ·⟩) ++ layout)) :
    ch.Places f part := by
  obtain ⟨i, hi⟩ := exists_at?_part hAt hPart
  exact ⟨_, g, i :: path, hLayout, hi⟩

/-- A frame is added to the chart. -/
def add (ch : Chart) (f : FrameId) (layout : Layout) (code : Option (List Stmt)) : Chart where
  code g := if g = f then code else ch.code g
  layout g := if g = f then some layout else ch.layout g

/-- What was added for the frame. -/
theorem layout_add_self (ch : Chart) (f : FrameId) (layout : Layout)
    (code : Option (List Stmt)) : (ch.add f layout code).layout f = some layout := if_pos rfl

/-- The statements that were added for the frame. -/
theorem code_add_self (ch : Chart) (f : FrameId) (layout : Layout)
    (code : Option (List Stmt)) : (ch.add f layout code).code f = code := if_pos rfl

/-- A chart that says something of one more frame says no less of the others. -/
theorem le_add {f : FrameId} (hNew : ch.layout f = none) (layout : Layout)
    (code : Option (List Stmt)) : ch ≤ ch.add f layout code := by
  intro g old hOld
  have hOther : g ≠ f := by
    rintro rfl
    rw [hNew] at hOld
    cases hOld
  exact ⟨(if_neg hOther).trans hOld, if_neg hOther⟩

end Chart

-- ---------------------------------------------------------------------------
-- What the chart says of values
-- ---------------------------------------------------------------------------

/-- Every function in the value is in the scopes that the text puts around it. -/
inductive Value.Placed (ch : Chart) : Value → Prop
  | undefined : Value.Placed ch .undefined
  | null : Value.Placed ch .null
  | bool (b : Bool) : Value.Placed ch (.bool b)
  | number (x : Float) : Value.Placed ch (.number x)
  | string (s : String) : Value.Placed ch (.string s)
  | pair (cell : CellId) {head tail : Value} (hHead : Value.Placed ch head)
      (hTail : Value.Placed ch tail) : Value.Placed ch (.pair cell head tail)
  | array (cell : CellId) {items : List Value} (h : ∀ v ∈ items, Value.Placed ch v) :
      Value.Placed ch (.array cell items)
  | closure (cell : CellId) {f : Function} {env : FrameId} (h : ch.Places env (.function f)) :
      Value.Placed ch (.closure cell f env)
  | primitive (p : Primitive) : Value.Placed ch (.primitive p)

/-- The value of the binding is in its place, if it has one. -/
def Binding.Placed (ch : Chart) (b : Binding) : Prop := ∀ v, b.value? = some v → v.Placed ch

variable {ch ch' : Chart}

/-- A value stays in its place when the chart says more. -/
theorem Value.Placed.mono (hle : ch ≤ ch') {v : Value} (h : v.Placed ch) : v.Placed ch' := by
  induction h with
  | undefined => exact .undefined
  | null => exact .null
  | bool b => exact .bool b
  | number x => exact .number x
  | string s => exact .string s
  | pair cell _ _ hHead hTail => exact .pair cell hHead hTail
  | array cell _ ih => exact .array cell ih
  | closure cell h => exact .closure cell (h.mono hle)
  | primitive p => exact .primitive p

theorem Value.placed_mono (hle : ch ≤ ch') {vs : List Value} (h : ∀ v ∈ vs, v.Placed ch) :
    ∀ v ∈ vs, v.Placed ch' := fun v hv => (h v hv).mono hle

theorem Binding.Placed.mono (hle : ch ≤ ch') {b : Binding} (h : b.Placed ch) : b.Placed ch' :=
  fun v hv => (h v hv).mono hle

/-- A placeholder has no value. -/
theorem Binding.placed_placeholder : Binding.Placed ch .placeholder := by
  intro v hv
  cases hv

/-- A binding is in its place if its value is. -/
theorem Binding.placed_ofValue {v : Value} (h : v.Placed ch) (isConst : Bool) :
    Binding.Placed ch (.ofValue v isConst) := by
  intro w hw
  cases hw
  exact h

-- ---------------------------------------------------------------------------
-- What the chart says of a store
-- ---------------------------------------------------------------------------

namespace Chart

/-- The frame around `f` was made for the scopes `outside`. -/
def Around (ch : Chart) (f : FrameId) (parent : Option FrameId) (outside : Layout) : Prop :=
  (outside = [] ∧ parent = none) ∨
    ∃ p, parent = some p ∧ p < f ∧ ch.layout p = some outside

/-- The frame is one of the scope that is first in the layout: it has the names of the scope, and
the frame around it is one of the scopes that follow. -/
inductive Shaped (ch : Chart) (s : Store) (f : FrameId) : Layout → Prop
  | mk {sc : Scope} {site : Site} {outside : Layout} (hScope : s.scope? f = some sc)
      (hName : sc.name = site.construct.frameName)
      (hNames : ∀ n, (sc.binding? n).isSome ↔ n ∈ site.construct.names)
      (hAround : ch.Around f sc.parent outside) : Shaped ch s f (site :: outside)

/-- The frames of the store are as the chart says, and the functions that are bound in them or may
be bound there again by going back are in their scopes. -/
structure Fits (ch : Chart) (s : Store) : Prop where
  regular : s.Regular
  shaped : ∀ f layout, ch.layout f = some layout → ch.Shaped s f layout
  bound : ∀ f layout name b, ch.layout f = some layout → s.binding? f name = some b → b.Placed ch
  logged : ∀ u ∈ s.trail.toList, ∀ b, u.previous = some b → b.Placed ch
  code : ∀ f statements, ch.code f = some statements →
    ∃ outside, ch.layout f = some (⟨f, [], .program statements⟩ :: outside)

/-- What is around a frame stays so. -/
theorem Around.mono (hle : ch ≤ ch') {f : FrameId} {parent : Option FrameId} {outside : Layout}
    (h : ch.Around f parent outside) : ch'.Around f parent outside := by
  rcases h with hNone | ⟨p, hParent, hOlder, hLayout⟩
  · exact .inl hNone
  · exact .inr ⟨p, hParent, hOlder, layout_mono hle hLayout⟩

/-- A frame that is as the chart says is so for a larger chart. -/
theorem Shaped.mono (hle : ch ≤ ch') {s : Store} {f : FrameId} {layout : Layout}
    (h : ch.Shaped s f layout) : ch'.Shaped s f layout := by
  cases h with
  | mk hScope hName hNames hAround => exact .mk hScope hName hNames (hAround.mono hle)

/-- It is a frame of the store. -/
theorem Shaped.lt_nextFrame {s : Store} {f : FrameId} {layout : Layout}
    (h : ch.Shaped s f layout) : f < s.nextFrame := by
  cases h with
  | mk hScope =>
    rw [← scope?_isSome_iff, hScope]
    rfl

/-- A frame with the same names is as the chart says, too. -/
theorem Shaped.sameNames {s t : Store} {f : FrameId} {layout : Layout} (h : ch.Shaped s f layout)
    {sc sc' : Scope} (hs : s.scope? f = some sc) (ht : t.scope? f = some sc')
    (hSame : sc.SameNames sc') : ch.Shaped t f layout := by
  cases h with
  | mk hScope hName hNames hAround =>
    cases hs.symm.trans hScope
    refine .mk ht (hSame.name.trans hName) (fun n => ?_) ?_
    · rw [hSame.names]
      exact hNames n
    · rw [hSame.parent]
      exact hAround

/-- Frames keep their names, so they stay what they were made for. -/
theorem Shaped.carries {s t : Store} {f : FrameId} {layout : Layout} (h : ch.Shaped s f layout)
    (hCarries : s.Carries t) : ch.Shaped t f layout := by
  obtain ⟨sc, hs⟩ := Option.isSome_iff_exists.mp ((s.scope?_isSome_iff f).mpr h.lt_nextFrame)
  obtain ⟨sc', ht, hSame⟩ := hCarries.names f sc hs
  exact h.sameNames hs ht hSame

namespace Fits

variable {s t : Store}

/-- What the chart is yet to say is said of frames to come. -/
theorem layout_nextFrame (h : ch.Fits s) : ch.layout s.nextFrame = none := by
  cases hLayout : ch.layout s.nextFrame with
  | none => rfl
  | some layout => exact absurd (h.shaped _ _ hLayout).lt_nextFrame (Nat.lt_irrefl _)

/-- The chart says nothing of frames that there are not. -/
theorem lt_nextFrame (h : ch.Fits s) {f : FrameId} {layout : Layout}
    (hLayout : ch.layout f = some layout) : f < s.nextFrame :=
  (h.shaped f layout hLayout).lt_nextFrame

-- ---------------------------------------------------------------------------
-- Where names are found
-- ---------------------------------------------------------------------------

/-- The search for a name goes outwards as the chart says. Its bound is the number of the frame, of
which those around it are less. -/
theorem resolveLoop (h : ch.Fits s) (name : String) {fuel : Nat} {f : FrameId} {layout : Layout}
    (hLayout : ch.layout f = some layout) (hFuel : f < fuel) :
    (∀ n, layout.hops? name = some n → ∃ g b, s.resolveLoop name fuel f = some (g, b) ∧
      (s.chainLoop fuel f)[n]? = some g ∧ ch.layout g = some (layout.drop n)) ∧
    (layout.hops? name = none → s.resolveLoop name fuel f = none) := by
  -- by induction on the layout, frame by frame outwards: the frame's names are those of its
  -- construct, so a name is found at the first site that has it
  induction layout generalizing f fuel with
  | nil => cases h.shaped f [] hLayout
  | cons site outside ih =>
    obtain ⟨fuel, rfl⟩ := Nat.exists_eq_succ_of_ne_zero (Nat.ne_of_gt (Nat.zero_lt_of_lt hFuel))
    cases h.shaped f _ hLayout with
    | @mk sc _ _ hScope hName hNames hAround =>
      obtain ⟨frame, hFrame, rfl⟩ := Option.map_eq_some_iff.mp hScope
      have hResolve : s.resolveLoop name (fuel + 1) f =
          (frame.binding? name).elim (frame.parent.bind (s.resolveLoop name fuel))
            fun b => some (f, b) := by
        rw [Store.resolveLoop, hFrame]
        dsimp only
        cases frame.binding? name <;> rfl
      by_cases hHere : name ∈ site.construct.names
      · obtain ⟨b, hb⟩ := Option.isSome_iff_exists.mp ((hNames name).mpr hHere)
        have hb : frame.binding? name = some b := hb
        rw [Layout.hops?_cons, if_pos hHere, hResolve, hb]
        refine ⟨fun n hn => ?_, fun hn => by cases hn⟩
        cases hn
        exact ⟨f, b, rfl, rfl, hLayout⟩
      · have hb : frame.binding? name = none :=
          Option.not_isSome_iff_eq_none.mp fun hb => hHere ((hNames name).mp hb)
        rw [Layout.hops?_cons, if_neg hHere, hResolve, hb]
        -- a frame around is older, which is why the fuel suffices
        rcases hAround with ⟨rfl, hParent⟩ | ⟨p, hParent, hOlder, hOutside⟩
        · have hParent : frame.parent = none := hParent
          rw [hParent]
          exact ⟨fun n hn => (by cases hn), fun _ => rfl⟩
        · have hParent : frame.parent = some p := hParent
          obtain ⟨hFound, hNone⟩ := ih hOutside (Nat.lt_of_lt_of_le hOlder (Nat.le_of_lt_succ hFuel))
          rw [hParent]
          refine ⟨fun n hn => ?_, fun hn => hNone (Option.map_eq_none_iff.mp hn)⟩
          obtain ⟨m, hm, rfl⟩ := Option.map_eq_some_iff.mp hn
          obtain ⟨g, b, hResolved, hChain, hg⟩ := hFound m hm
          refine ⟨g, b, hResolved, ?_, hg⟩
          rw [Store.chainLoop, hFrame]
          show (f :: ((frame.parent).map (s.chainLoop fuel)).getD [])[m + 1]? = some g
          rw [hParent]
          exact hChain

/-- From a frame that was made for a scope, a name is found as many frames outwards as there are
scopes that do not have it, in a frame of the first scope that does. -/
theorem resolve? (h : ch.Fits s) (name : String) {f : FrameId} {layout : Layout}
    (hLayout : ch.layout f = some layout) :
    (∀ n, layout.hops? name = some n → ∃ g b, s.resolve? f name = some (g, b) ∧
      (s.chain f)[n]? = some g ∧ ch.layout g = some (layout.drop n)) ∧
    (layout.hops? name = none → s.resolve? f name = none) :=
  h.resolveLoop name hLayout (Nat.lt_succ_self f)

/-- The value of a name that is found from there is in its scopes. -/
theorem placed_resolve? (h : ch.Fits s) {name : String} {f g : FrameId} {layout : Layout}
    {b : Binding} (hLayout : ch.layout f = some layout) (hResolved : s.resolve? f name = some (g, b)) :
    b.Placed ch ∧ ∃ outside, ch.layout g = some outside := by
  obtain ⟨hFound, hNone⟩ := h.resolve? name hLayout
  cases hHops : layout.hops? name with
  | none =>
    rw [hNone hHops] at hResolved
    cases hResolved
  | some n =>
    obtain ⟨g', b', hResolved', -, hg⟩ := hFound n hHops
    rw [hResolved] at hResolved'
    cases hResolved'
    exact ⟨h.bound _ _ _ _ hg (binding?_of_resolve? hResolved), _, hg⟩

end Fits

end Chart

end AmbScript
