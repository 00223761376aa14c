import AmbScript.Proofs.Session.Library

/-!
# The text of the library

The functions of the library that are about lists, as they stand in its text, but for the places.
Their bodies need few kinds of expression and statement.

* `Sketch`, `Line`, `Outline` — expressions, statements and functions without places.
* `Prelude.outlines` — the functions on lists; `Prelude.exists_outlines` says that the text of the
  library has them as they stand here.

The tree that the parser makes of the library's text is large, because of all the places in it, and
proofs about calls should not look into it. So the text is read once, by evaluation, and compared
with the outlines; from then on only these are used.
-/

namespace AmbScript

/-- An expression without places. -/
inductive Sketch
  | null
  | bool (b : Bool)
  | name (n : String)
  | not (e : Sketch)
  | equal (left right : Sketch)
  | logical (op : LogicalOp) (left right : Sketch)
  | conditional (test consequent alternate : Sketch)
  /-- A call with one argument. -/
  | call (function : String) (arg : Sketch)
  /-- A call with two arguments. -/
  | call₂ (function : String) (first second : Sketch)
deriving DecidableEq

/-- A statement without places. -/
inductive Line
  | expr (e : Sketch)
  | returns (e : Sketch)
  /-- A function that returns the value of an expression. -/
  | function (name : String) (params : List String) (result : Sketch)
deriving DecidableEq

/-- A function without places. -/
structure Outline where
  params : List String
  lines : List Line
deriving DecidableEq

/-- The expression reads as the sketch says. -/
inductive Sketch.Of : Sketch → Expr → Prop
  | null (span : Span) : Sketch.Of .null (.null span)
  | bool (b : Bool) (span : Span) : Sketch.Of (.bool b) (.bool b span)
  | name (n : Ident) : Sketch.Of (.name n.name) (.ident n)
  | not {σ : Sketch} {e : Expr} (h : Sketch.Of σ e) (span : Span) :
      Sketch.Of (.not σ) (.unary .not e span)
  | equal {σ τ : Sketch} {left right : Expr} (hLeft : Sketch.Of σ left) (hRight : Sketch.Of τ right)
      (span : Span) : Sketch.Of (.equal σ τ) (.binary .equal left right span)
  | logical (op : LogicalOp) {σ τ : Sketch} {left right : Expr} (hLeft : Sketch.Of σ left)
      (hRight : Sketch.Of τ right) (span : Span) :
      Sketch.Of (.logical op σ τ) (.logical op left right span)
  | conditional {σ τ υ : Sketch} {test consequent alternate : Expr} (hTest : Sketch.Of σ test)
      (hConsequent : Sketch.Of τ consequent) (hAlternate : Sketch.Of υ alternate) (span : Span) :
      Sketch.Of (.conditional σ τ υ) (.conditional test consequent alternate span)
  | call (f : Ident) {σ : Sketch} {arg : Expr} (h : Sketch.Of σ arg) (span : Span) :
      Sketch.Of (.call f.name σ) (.call (.ident f) [arg] span)
  | call₂ (f : Ident) {σ τ : Sketch} {first second : Expr} (hFirst : Sketch.Of σ first)
      (hSecond : Sketch.Of τ second) (span : Span) :
      Sketch.Of (.call₂ f.name σ τ) (.call (.ident f) [first, second] span)

/-- The sketch of an expression, if it has one. -/
def Expr.sketch? : Expr → Option Sketch
  | .null _ => some .null
  | .bool b _ => some (.bool b)
  | .ident n => some (.name n.name)
  | .unary .not e _ => e.sketch?.map .not
  | .binary .equal left right _ => do return .equal (← left.sketch?) (← right.sketch?)
  | .logical op left right _ => do return .logical op (← left.sketch?) (← right.sketch?)
  | .conditional test consequent alternate _ => do
    return .conditional (← test.sketch?) (← consequent.sketch?) (← alternate.sketch?)
  | .call (.ident f) [arg] _ => arg.sketch?.map (.call f.name)
  | .call (.ident f) [first, second] _ => do
    return .call₂ f.name (← first.sketch?) (← second.sketch?)
  | _ => none

/-- An expression reads as its sketch says. -/
theorem Expr.of_sketch? {e : Expr} {σ : Sketch} (h : e.sketch? = some σ) : σ.Of e := by
  fun_induction sketch? e generalizing σ with
  | case1 span => cases h; exact .null span
  | case2 b span => cases h; exact .bool b span
  | case3 n => cases h; exact .name n
  | case4 e span ih =>
    obtain ⟨τ, hτ, rfl⟩ := Option.map_eq_some_iff.mp h
    exact .not (ih hτ) span
  | case5 left right span ihLeft ihRight =>
    obtain ⟨τ, hτ, h⟩ := Option.bind_eq_some_iff.mp h
    obtain ⟨υ, hυ, h⟩ := Option.bind_eq_some_iff.mp h
    cases h
    exact .equal (ihLeft hτ) (ihRight hυ) span
  | case6 op left right span ihLeft ihRight =>
    obtain ⟨τ, hτ, h⟩ := Option.bind_eq_some_iff.mp h
    obtain ⟨υ, hυ, h⟩ := Option.bind_eq_some_iff.mp h
    cases h
    exact .logical op (ihLeft hτ) (ihRight hυ) span
  | case7 test consequent alternate span ihTest ihConsequent ihAlternate =>
    obtain ⟨τ, hτ, h⟩ := Option.bind_eq_some_iff.mp h
    obtain ⟨υ, hυ, h⟩ := Option.bind_eq_some_iff.mp h
    obtain ⟨φ, hφ, h⟩ := Option.bind_eq_some_iff.mp h
    cases h
    exact .conditional (ihTest hτ) (ihConsequent hυ) (ihAlternate hφ) span
  | case8 f arg span ih =>
    obtain ⟨τ, hτ, rfl⟩ := Option.map_eq_some_iff.mp h
    exact .call f (ih hτ) span
  | case9 f first second span ihFirst ihSecond =>
    obtain ⟨τ, hτ, h⟩ := Option.bind_eq_some_iff.mp h
    obtain ⟨υ, hυ, h⟩ := Option.bind_eq_some_iff.mp h
    cases h
    exact .call₂ f (ihFirst hτ) (ihSecond hυ) span
  -- every other form has no sketch
  | case10 => cases h

/-- The statement reads as the line says. -/
inductive Line.Of : Line → Stmt → Prop
  | expr {σ : Sketch} {e : Expr} (h : σ.Of e) : Line.Of (.expr σ) (.expr e)
  | returns {σ : Sketch} {e : Expr} (h : σ.Of e) (span : Span) :
      Line.Of (.returns σ) (.returns e span)
  | function (name : Ident) (params : List Ident) {σ : Sketch} {e : Expr} (h : σ.Of e)
      (span span' span'' : Span) : Line.Of (.function name.name (params.map Ident.name) σ)
        (.function (.mk (some name) params (.mk [.returns e span] span') span''))

/-- The line of a statement, if it has one. -/
def Stmt.line? : Stmt → Option Line
  | .expr e => e.sketch?.map .expr
  | .returns e _ => e.sketch?.map .returns
  | .function (.mk (some name) params (.mk [.returns e _] _) _) =>
    e.sketch?.map (.function name.name (params.map Ident.name))
  | _ => none

/-- A statement reads as its line says. -/
theorem Stmt.of_line? {s : Stmt} {line : Line} (h : s.line? = some line) : line.Of s := by
  unfold line? at h
  split at h
  · obtain ⟨σ, hσ, rfl⟩ := Option.map_eq_some_iff.mp h
    exact .expr (Expr.of_sketch? hσ)
  · obtain ⟨σ, hσ, rfl⟩ := Option.map_eq_some_iff.mp h
    exact .returns (Expr.of_sketch? hσ) _
  · obtain ⟨σ, hσ, rfl⟩ := Option.map_eq_some_iff.mp h
    exact .function _ _ (Expr.of_sketch? hσ) _ _ _
  · cases h

/-- The function reads as the outline says. -/
structure Outline.Of (o : Outline) (f : Function) : Prop where
  params : f.params.map Ident.name = o.params
  lines : List.Forall₂ Line.Of o.lines f.body.statements

/-- The name that a line declares. -/
def Line.name? : Line → Option String
  | .function name _ _ => some name
  | _ => none

/-- The names in the frame of a call. -/
def Outline.names (o : Outline) : List String := o.params ++ o.lines.filterMap Line.name?

/-- The statement declares the name that the line does. -/
theorem Line.Of.name? {line : Line} {s : Stmt} (h : line.Of s) :
    s.declaredName?.map Ident.name = line.name? := by
  cases h <;> rfl

namespace Outline.Of

variable {o : Outline} {f : Function}

/-- The body declares the names that the lines do. -/
theorem declarations (h : o.Of f) :
    f.body.declarations.map Ident.name = o.lines.filterMap Line.name? := by
  unfold Block.declarations
  rw [List.map_filterMap]
  have hLines := h.lines
  generalize o.lines = lines at hLines ⊢
  generalize f.body.statements = statements at hLines ⊢
  induction hLines with
  | nil => rfl
  | cons hLine _ ih => rw [List.filterMap_cons, List.filterMap_cons, ih, hLine.name?]

/-- These are all the names in the frame of a call. -/
theorem names (h : o.Of f) : (f.params ++ f.body.declarations).map Ident.name = o.names := by
  rw [List.map_append, h.params, h.declarations, Outline.names]

/-- The function that a line declares. -/
theorem function (h : o.Of f) {name : String} {params : List String} {result : Sketch}
    (hLine : .function name params result ∈ o.lines) :
    ∃ x ∈ f.body.functions, x.1.name = name ∧ Outline.Of ⟨params, [.returns result]⟩ x.2 := by
  obtain ⟨index, hIndex⟩ := List.mem_iff_get.mp hLine
  have hThere : index.val < f.body.statements.length := h.lines.length_eq ▸ index.isLt
  have hOf := h.lines.get index.isLt hThere
  rw [hIndex] at hOf
  generalize hStatement : f.body.statements.get ⟨index, hThere⟩ = s at hOf
  have hMem : s ∈ f.body.statements := hStatement ▸ List.get_mem _ _
  cases hOf with
  | function name params hOf span span' span'' =>
    exact ⟨(name, _), List.mem_filterMap.mpr ⟨_, hMem, rfl⟩, rfl, rfl,
      .cons (.returns hOf span) .nil⟩

end Outline.Of

/-- The lines of statements. -/
def linesOf? : List Stmt → Option (List Line)
  | [] => some []
  | s :: rest => do return (← s.line?) :: (← linesOf? rest)

/-- The outline of a function, if it has one. -/
def Function.outline? (f : Function) : Option Outline :=
  (linesOf? f.body.statements).map (⟨f.params.map Ident.name, ·⟩)

/-- Statements read as their lines say. -/
theorem of_linesOf? {statements : List Stmt} {lines : List Line}
    (h : linesOf? statements = some lines) : List.Forall₂ Line.Of lines statements := by
  induction statements generalizing lines with
  | nil =>
    cases h
    exact .nil
  | cons s rest ih =>
    obtain ⟨line, hLine, h⟩ := Option.bind_eq_some_iff.mp h
    obtain ⟨lines, hLines, h⟩ := Option.bind_eq_some_iff.mp h
    cases h
    exact .cons (Stmt.of_line? hLine) (ih hLines)

/-- A function reads as its outline says. -/
theorem Function.of_outline? {f : Function} {o : Outline} (h : f.outline? = some o) : o.Of f := by
  obtain ⟨lines, hLines, rfl⟩ := Option.map_eq_some_iff.mp h
  exact ⟨rfl, of_linesOf? hLines⟩

namespace Prelude

open Sketch

/-- Tells whether a value is a list. -/
def isList : Outline where
  params := ["xs"]
  lines := [.returns (.logical .or (call "is_null" (name "xs"))
    (.logical .and (call "is_pair" (name "xs")) (call "is_list" (call "tail" (name "xs")))))]

/-- Applies a function to each item. -/
def map : Outline where
  params := ["f", "xs"]
  lines := [.returns (.conditional (call "is_null" (name "xs")) null
    (call₂ "pair" (call "f" (call "head" (name "xs")))
      (call₂ "map" (name "f") (call "tail" (name "xs")))))]

/-- Puts one list before another. -/
def append : Outline where
  params := ["xs", "ys"]
  lines := [.returns (.conditional (call "is_null" (name "xs")) (name "ys")
    (call₂ "pair" (call "head" (name "xs"))
      (call₂ "append" (call "tail" (name "xs")) (name "ys"))))]

/-- The function inside `reverse`. -/
def rev : Sketch :=
  .conditional (call "is_null" (name "rest")) (name "reversed")
    (call₂ "rev" (call "tail" (name "rest"))
      (call₂ "pair" (call "head" (name "rest")) (name "reversed")))

/-- Reverses a list by way of a function inside. -/
def reverse : Outline where
  params := ["xs"]
  lines := [.function "rev" ["rest", "reversed"] rev, .returns (call₂ "rev" (name "xs") null)]

/-- The rest of the list from the first item on that is equal to the value. -/
def member : Outline where
  params := ["v", "xs"]
  lines := [.returns (.conditional (call "is_null" (name "xs")) null
    (.conditional (.equal (name "v") (call "head" (name "xs"))) (name "xs")
      (call₂ "member" (name "v") (call "tail" (name "xs")))))]

/-- The list without the first item that is equal to the value. -/
def remove : Outline where
  params := ["v", "xs"]
  lines := [.returns (.conditional (call "is_null" (name "xs")) null
    (.conditional (.equal (name "v") (call "head" (name "xs"))) (call "tail" (name "xs"))
      (call₂ "pair" (call "head" (name "xs"))
        (call₂ "remove" (name "v") (call "tail" (name "xs"))))))]

/-- Tells whether no two items are equal. -/
def distinct : Outline where
  params := ["items"]
  lines := [.returns (.conditional (call "is_null" (name "items")) (.bool true)
    (.conditional (call "is_null" (call "tail" (name "items"))) (.bool true)
      (.conditional (call "is_null"
          (call₂ "member" (call "head" (name "items")) (call "tail" (name "items"))))
        (call "distinct" (call "tail" (name "items"))) (.bool false))))]

/-- Chooses an item. -/
def anElementOf : Outline where
  params := ["items"]
  lines := [.expr (call "require" (.not (call "is_null" (name "items")))),
    .returns (call₂ "amb" (call "head" (name "items"))
      (call "an_element_of" (call "tail" (name "items"))))]

/-- The functions on lists, by their names. -/
def outlines : List (String × Outline) :=
  [("is_list", isList), ("map", map), ("append", append), ("reverse", reverse), ("member", member),
    ("remove", remove), ("distinct", distinct), ("an_element_of", anElementOf)]

/-- The primitives that they use. -/
def listPrimitives : List Primitive := [.isNull, .isPair, .head, .tail, .pair]

end Prelude

/-- Whoever declares a function by one of the names declares it as it stands here; all of them are
declared, and none of the primitives. -/
def Program.OutlinesLists (p : Program) : Prop :=
  (∀ s ∈ p.body.statements, ∀ x ∈ Prelude.outlines,
    s.declaredName?.map Ident.name = some x.1 →
      (s.declaredFunction?.bind fun y => y.2.outline?) = some x.2) ∧
  (∀ x ∈ Prelude.outlines, x.1 ∈ p.body.declarations.map Ident.name) ∧
  ∀ q ∈ Prelude.listPrimitives, q.name ∉ p.body.declarations.map Ident.name

instance (p : Program) : Decidable p.OutlinesLists := inferInstanceAs (Decidable (_ ∧ _ ∧ _))

set_option maxRecDepth 100000 in
/-- The text of the library has the functions on lists as they stand here. -/
theorem Prelude.exists_outlines : ∃ p, parsed.program = some p ∧ p.OutlinesLists := by
  have hAny : (parsed.program.any fun p => decide p.OutlinesLists) = true := by
    rw [parsed, parse_of_toList toList_text]
    simp only [lines, List.map_cons, List.map_nil]
    repeat rw [String.toList_ofList]
    decide +kernel
  obtain ⟨p, hProgram, h⟩ := Option.any_eq_true _ _ |>.mp hAny
  exact ⟨p, hProgram, of_decide_eq_true h⟩

end AmbScript
