import AmbScript.Proofs.Parser.Spans
import AmbScript.Proofs.Token.Order

/-!
# How the nodes of a program lie in each other

Every node of a program has its region in the text. The regions of its parts are within it, one
behind the other, and where a region starts or ends a token does. Some nodes take the region from
their first to their last part, some from a keyword to the last token that was read; parentheses
around a part belong to no node.

* `Extent` — a tree of regions; `Program.extent` is that of a program.
* `Extent.Fits` — how the region of a node lies to the tokens and to its parts.
* `Parser.Spread` — what is spelled between two places is made of nodes that fit.
* `Phrase.Derives.spread` — every phrase is.
* `parse_nests` — so are the nodes of a program that is read from a text.

Nothing has to be known of the parser here but the grammar: `Derives` says which tokens each node is
spelled with and which of them its span is made of. The induction is on derivations. `Spread`
carries along which tokens were passed, so that the nodes of one part are seen to end before those
of the next begin; this needs only that the tokens of the text stand in order.
-/

namespace AmbScript

-- ---------------------------------------------------------------------------
-- Trees of regions
-- ---------------------------------------------------------------------------

/-- The region of a node, and the extents of its parts in the order of the text. -/
inductive Extent
  | mk (span : Span) (parts : List Extent)

namespace Extent

/-- The region of the node itself. -/
def span : Extent → Span
  | mk span _ => span

/-- The extents of its parts. -/
def parts : Extent → List Extent
  | mk _ parts => parts

/-- The node is the second one, or that is among its parts, or among theirs. -/
inductive Has : Extent → Extent → Prop
  | self (e : Extent) : Has e e
  | part {span : Span} {parts : List Extent} {part e : Extent} :
    part ∈ parts → Has part e → Has (mk span parts) e

end Extent

/-- A name has no parts. -/
def Ident.extent (n : Ident) : Extent := .mk n.span []

mutual

/-- The expression with its operands. A name and a function are expressions around what they are. -/
def Expr.extent : Expr → Extent
  | .number _ s | .string _ s | .bool _ s | .null s | .undefined s => .mk s []
  | .ident name => .mk name.span [name.extent]
  | .array items s => .mk s (Expr.extents items)
  | .assign target value s => .mk s [target.extent, value.extent]
  | .unary _ operand s => .mk s [operand.extent]
  | .binary _ left right s => .mk s [left.extent, right.extent]
  | .logical _ left right s => .mk s [left.extent, right.extent]
  | .conditional test consequent alternate s =>
    .mk s [test.extent, consequent.extent, alternate.extent]
  | .call callee args s => .mk s (callee.extent :: Expr.extents args)
  | .index object key s => .mk s [object.extent, key.extent]
  | .member object property s => .mk s [object.extent, property.extent]
  | .function f => .mk f.span [f.extent]

/-- Items in the order of the text. -/
def Expr.extents : List Expr → List Extent
  | [] => []
  | e :: es => e.extent :: Expr.extents es

/-- The name, the parameters and the body are the parts of a function. -/
def Function.extent : Function → Extent
  | .mk name params body s =>
    .mk s ((name.toList ++ params).map Ident.extent ++ [body.extent])

/-- The statements are the parts of a block. -/
def Block.extent : Block → Extent
  | .mk statements s => .mk s (Stmt.extents statements)

/-- The statement with its parts. Expressions, functions and blocks are statements around what they
are. -/
def Stmt.extent : Stmt → Extent
  | .expr e => .mk e.span [e.extent]
  | .declare _ name init s => .mk s [name.extent, init.extent]
  | .function f => .mk f.span [f.extent]
  | .returns value s => .mk s [value.extent]
  | .branch b => b.extent
  | .block b => .mk b.span [b.extent]
  | .whileLoop test body s => .mk s [test.extent, body.extent]
  | .forLoop init test update body s =>
    .mk s (LoopInit.optionExtents init ++ (Expr.optionExtents test ++
      (Expr.optionExtents update ++ [body.extent])))
  | .breakLoop s | .continueLoop s | .cut s => .mk s []

/-- Statements in the order of the text. -/
def Stmt.extents : List Stmt → List Extent
  | [] => []
  | s :: ss => s.extent :: Stmt.extents ss

/-- The test, the block, and what follows `else`. -/
def Branch.extent : Branch → Extent
  | .mk test consequent alternate s =>
    .mk s (test.extent :: consequent.extent :: alternate.extents)

/-- What follows `else`, if anything does. -/
def Alternate.extents : Alternate → List Extent
  | .absent => []
  | .block b => [b.extent]
  | .branch b => [b.extent]

/-- The first part of a header is a node as well. -/
def LoopInit.extent : LoopInit → Extent
  | .declare name init s => .mk s [name.extent, init.extent]
  | .expr e => .mk e.span [e.extent]

/-- The first part of a header, if there is one. -/
def LoopInit.optionExtents : Option LoopInit → List Extent
  | none => []
  | some i => [i.extent]

/-- An expression of a header, if there is one. -/
def Expr.optionExtents : Option Expr → List Extent
  | none => []
  | some e => [e.extent]

end

/-- The block of a program has the region of the program. -/
def Program.extent (p : Program) : Extent := .mk p.span [p.body.extent]

/-- The region of an expression is the span in the tree. -/
theorem Expr.span_extent (e : Expr) : e.extent.span = e.span := by
  cases e <;> simp only [Expr.extent, Extent.span, Expr.span]

theorem Block.span_extent (b : Block) : b.extent.span = b.span := by
  cases b
  simp only [Block.extent, Extent.span, Block.span]

theorem Function.span_extent (f : Function) : f.extent.span = f.span := by
  cases f
  simp only [Function.extent, Extent.span, Function.span]

-- ---------------------------------------------------------------------------
-- Nodes that fit
-- ---------------------------------------------------------------------------

/-- The region starts where a token starts and ends where a token ends. -/
structure Edged (tokens : List Token) (s : Span) : Prop where
  start : ∃ t ∈ tokens, t.span.start = s.start
  stop : ∃ t ∈ tokens, t.span.stop = s.stop
  forward : s.Forward

/-- More tokens have as many edges at least. -/
theorem Edged.mono {tokens more : List Token} {s : Span} (h : Edged tokens s)
    (hMore : tokens ⊆ more) : Edged more s := by
  refine ⟨?_, ?_, h.forward⟩
  · refine h.start.imp fun _ ht => ?_
    exact ⟨hMore ht.1, ht.2⟩
  · refine h.stop.imp fun _ ht => ?_
    exact ⟨hMore ht.1, ht.2⟩

/-- A place is not before itself. -/
theorem Position.not_before_self (p : Position) : p.before p = false :=
  Position.before_eq_false_iff.mpr (.inr ⟨rfl, Nat.le_refl _⟩)

/-- If no place is before the one preceding it, the last is not before the first. -/
theorem Position.not_before_trans {p q r : Position} (h : q.before p = false)
    (h' : r.before q = false) : r.before p = false := by
  rw [Position.before_eq_false_iff] at *
  omega

/-- The first of two places is not behind either of them. -/
theorem Position.first_not_after (p q : Position) :
    p.before (p.first q) = false ∧ q.before (p.first q) = false := by
  unfold Position.first
  split
  · next h =>
    refine ⟨?_, q.not_before_self⟩
    rw [Position.before_iff] at h
    rw [Position.before_eq_false_iff]
    omega
  · next h => exact ⟨p.not_before_self, Bool.eq_false_iff.mpr h⟩

/-- The last of two places is not before either of them. -/
theorem Position.last_not_before (p q : Position) :
    (p.last q).before p = false ∧ (p.last q).before q = false := by
  unfold Position.last
  split
  · next h =>
    refine ⟨?_, q.not_before_self⟩
    rw [Position.before_iff] at h
    rw [Position.before_eq_false_iff]
    omega
  · next h => exact ⟨p.not_before_self, Bool.eq_false_iff.mpr h⟩

/-- A span merged from two starts where one of them starts and ends where one of them ends. -/
theorem Edged.merge {tokens : List Token} {a b : Span} (ha : Edged tokens a) (hb : Edged tokens b) :
    Edged tokens (a.merge b) where
  start := by
    show ∃ t ∈ tokens, t.span.start = a.start.first b.start
    unfold Position.first
    split
    · exact hb.start
    · exact ha.start
  stop := by
    show ∃ t ∈ tokens, t.span.stop = a.stop.last b.stop
    unfold Position.last
    split
    · exact hb.stop
    · exact ha.stop
  forward := Position.not_before_trans (Position.not_before_trans
    (a.start.first_not_after b.start).1 ha.forward) (a.stop.last_not_before b.stop).1

namespace Extent

/-- The parts are within the node, one behind the other; the node starts and ends with tokens. -/
structure Fits (tokens : List Token) (e : Extent) : Prop where
  inside : ∀ part ∈ e.parts, part.span.Inside e.span
  ahead : e.parts.Pairwise fun a b => a.span.Ahead b.span
  edged : Edged tokens e.span

/-- All nodes of the tree fit. -/
def Sound (tokens : List Token) (e : Extent) : Prop := ∀ n, e.Has n → n.Fits tokens

variable {tokens more : List Token} {s : Span} {parts : List Extent} {e : Extent}

/-- The nodes of a tree are its root and those of its parts. -/
theorem sound_mk_iff : (mk s parts).Sound tokens ↔
    (mk s parts).Fits tokens ∧ ∀ part ∈ parts, part.Sound tokens := by
  constructor
  · exact fun h => ⟨h _ (.self _), fun part hPart n hn => h n (.part hPart hn)⟩
  · rintro ⟨hWhole, hParts⟩ n hn
    cases hn with
    | self => exact hWhole
    | part hPart hn => exact hParts _ hPart n hn

/-- The root starts and ends with tokens. -/
theorem Sound.edged (h : e.Sound tokens) : Edged tokens e.span := (h e (.self e)).edged

/-- Among more tokens, the nodes still fit. -/
theorem Sound.mono (h : e.Sound tokens) (hMore : tokens ⊆ more) : e.Sound more := by
  intro n hn
  exact ⟨(h n hn).inside, (h n hn).ahead, (h n hn).edged.mono hMore⟩

end Extent

/-- Nodes that fit, one behind the other. -/
structure Laid (tokens : List Token) (es : List Extent) : Prop where
  sound : ∀ e ∈ es, e.Sound tokens
  ahead : es.Pairwise fun a b => a.span.Ahead b.span

namespace Laid

variable {tokens more : List Token} {es es' : List Extent} {e : Extent} {s a b : Span} {t u : Token}

theorem nil (tokens : List Token) : Laid tokens [] := by
  refine ⟨?_, .nil⟩
  intro _ he
  exact absurd he List.not_mem_nil

theorem tail (h : Laid tokens (e :: es)) : Laid tokens es := by
  refine ⟨?_, (List.pairwise_cons.mp h.ahead).2⟩
  intro x hx
  exact h.sound x (List.mem_cons_of_mem e hx)

theorem append (hSorted : Sorted (tokens ++ more)) (h : Laid tokens es) (h' : Laid more es') :
    Laid (tokens ++ more) (es ++ es') := by
  obtain ⟨-, -, hBetween⟩ := Sorted.append_iff.mp hSorted
  refine ⟨List.forall_mem_append.mpr ⟨fun e he => ?_, fun e he => ?_⟩,
    List.pairwise_append.mpr ⟨h.ahead, h'.ahead, fun x hx y hy => ?_⟩⟩
  · exact (h.sound e he).mono (List.subset_append_left _ _)
  · exact (h'.sound e he).mono (List.subset_append_right _ _)
  · obtain ⟨t, ht, hStop⟩ := (h.sound x hx).edged.stop
    obtain ⟨u, hu, hStart⟩ := (h'.sound y hy).edged.start
    have hAhead := hBetween t ht u hu
    rwa [Span.Ahead, hStop, hStart] at hAhead

/-- Nodes within a region are the parts of a node. -/
theorem node (h : Laid tokens es) (hEdged : Edged tokens s)
    (hInside : ∀ e ∈ es, e.span.Inside s) : Laid tokens [.mk s es] := by
  have hSound : (Extent.mk s es).Sound tokens :=
    Extent.sound_mk_iff.mpr ⟨⟨hInside, h.ahead, hEdged⟩, h.sound⟩
  exact ⟨List.forall_mem_singleton.mpr hSound, List.pairwise_singleton _ _⟩

/-- The node of a token. -/
theorem leaf (h : t.span.Forward) : Laid [t] [.mk t.span []] := by
  refine (nil [t]).node ⟨⟨t, List.mem_singleton_self t, rfl⟩, ⟨t, List.mem_singleton_self t,
    rfl⟩, h⟩ fun _ he => ?_
  exact absurd he List.not_mem_nil

/-- A node that takes the region of its only part. -/
theorem same (h : Laid tokens [e]) : Laid tokens [.mk e.span [e]] := by
  refine h.node (h.sound e List.mem_cons_self).edged (List.forall_mem_singleton.mpr ?_)
  exact ⟨Position.not_before_self _, Position.not_before_self _⟩

/-- The only part of a node. -/
theorem part (h : Laid tokens [.mk s [e]]) : Laid tokens [e] := by
  obtain ⟨-, hSound⟩ := Extent.sound_mk_iff.mp (h.sound _ List.mem_cons_self)
  exact ⟨hSound, List.pairwise_singleton _ _⟩

/-- A node over the regions of two tokens or nodes, the one not behind its parts, the other not
before them. -/
theorem merge (h : Laid tokens es) (ha : Edged tokens a) (hb : Edged tokens b)
    (hFirst : ∀ e ∈ es, e.span.start.before a.start = false)
    (hLast : ∀ e ∈ es, b.stop.before e.span.stop = false) : Laid tokens [.mk (a.merge b) es] := by
  refine h.node (ha.merge hb) fun e he => ?_
  exact ⟨Position.not_before_trans (a.start.first_not_after b.start).1 (hFirst e he),
    Position.not_before_trans (hLast e he) (a.stop.last_not_before b.stop).2⟩

/-- No node starts before the first. -/
theorem start_first (h : Laid tokens (e :: es)) :
    ∀ x ∈ e :: es, x.span.start.before e.span.start = false := by
  intro x hx
  rcases List.mem_cons.mp hx with rfl | hx
  · exact Position.not_before_self _
  · have hAhead := Position.before_iff.mp ((List.pairwise_cons.mp h.ahead).1 x hx)
    have hForward := Position.before_eq_false_iff.mp (h.sound e List.mem_cons_self).edged.forward
    rw [Position.before_eq_false_iff]
    omega

/-- No node ends behind the last. -/
theorem stop_last (h : Laid tokens (es ++ [e])) :
    ∀ x ∈ es ++ [e], e.span.stop.before x.span.stop = false := by
  intro x hx
  obtain ⟨-, -, hBetween⟩ := List.pairwise_append.mp h.ahead
  rcases List.mem_append.mp hx with hx | hx
  · have hAhead := Position.before_iff.mp (hBetween x hx e (List.mem_singleton_self e))
    have hLast := h.sound e (List.mem_append_right _ (List.mem_singleton_self e))
    have hForward := Position.before_eq_false_iff.mp hLast.edged.forward
    rw [Position.before_eq_false_iff]
    omega
  · rw [List.mem_singleton.mp hx]
    exact Position.not_before_self _

end Laid

namespace Sorted

variable {t : Token} {tokens : List Token} {s : Span}

/-- Nothing starts before the first token. -/
theorem start_first (h : Sorted (t :: tokens)) (hs : Edged (t :: tokens) s) :
    s.start.before t.span.start = false := by
  obtain ⟨u, hu, hStart⟩ := hs.start
  obtain ⟨⟨hAhead, hForward⟩, -⟩ := Sorted.cons_iff.mp h
  rw [← hStart]
  rcases List.mem_cons.mp hu with rfl | hu
  · exact Position.not_before_self _
  · have hBefore := Position.before_iff.mp (hAhead u hu)
    have ht := Position.before_eq_false_iff.mp hForward
    rw [Position.before_eq_false_iff]
    omega

/-- Nothing ends behind the last token. -/
theorem stop_last (h : Sorted (tokens ++ [t])) (hs : Edged (tokens ++ [t]) s) :
    t.span.stop.before s.stop = false := by
  obtain ⟨u, hu, hStop⟩ := hs.stop
  obtain ⟨-, hLast, hAhead⟩ := Sorted.append_iff.mp h
  rw [← hStop]
  rcases List.mem_append.mp hu with hu | hu
  · have hBefore := Position.before_iff.mp (hAhead u hu t (List.mem_singleton_self t))
    have ht := Position.before_eq_false_iff.mp (hLast.forward t (List.mem_singleton_self t))
    rw [Position.before_eq_false_iff]
    omega
  · rw [List.mem_singleton.mp hu]
    exact Position.not_before_self _

end Sorted

namespace Parser

-- ---------------------------------------------------------------------------
-- What is between two places
-- ---------------------------------------------------------------------------

/-- Where the last of some tokens stands, or else the token before them. -/
def lastSpan (before : Span) (tokens : List Token) : Span :=
  (tokens.getLast?.map Token.span).getD before

/-- The last token of both is the last of the second, if there is one. -/
theorem lastSpan_append (before : Span) (tokens more : List Token) :
    lastSpan before (tokens ++ more) = lastSpan (lastSpan before tokens) more := by
  unfold lastSpan
  rw [List.getLast?_append]
  cases more.getLast? <;> rfl

/-- The place of a token is edged by that token. -/
theorem edged_of_mem {tokens : List Token} {t : Token} (hSorted : Sorted tokens) (ht : t ∈ tokens) :
    Edged tokens t.span :=
  ⟨⟨t, ht, rfl⟩, ⟨t, ht, rfl⟩, hSorted.forward t ht⟩

/-- The last token ends behind all nodes. -/
theorem stop_lastSpan {tokens : List Token} (before : Span) (hSorted : Sorted tokens)
    (hSome : tokens ≠ []) : Edged tokens (lastSpan before tokens) ∧
      ∀ s, Edged tokens s → (lastSpan before tokens).stop.before s.stop = false := by
  obtain ⟨front, t, rfl⟩ : ∃ front t, tokens = front ++ [t] :=
    ⟨_, _, (List.dropLast_concat_getLast hSome).symm⟩
  have hLast : lastSpan before (front ++ [t]) = t.span := by rw [lastSpan_append]; rfl
  rw [hLast]
  exact ⟨edged_of_mem hSorted (List.mem_append_right _ (List.mem_singleton_self t)),
    fun _ => hSorted.stop_last⟩

/-- Between the places these tokens are read. -/
structure Place.Passes (p : Place) (tokens : List Token) (q : Place) : Prop where
  left : p.left = tokens ++ q.left
  previous : q.previous = lastSpan p.previous tokens

/-- What is passed in two steps is passed in one. -/
theorem Place.Passes.append {p m q : Place} {tokens more : List Token} (h : p.Passes tokens m)
    (h' : m.Passes more q) : p.Passes (tokens ++ more) q :=
  ⟨by rw [h.left, h'.left, List.append_assoc],
    by rw [h'.previous, h.previous, lastSpan_append]⟩

/-- If the tokens stand one behind the other, those between the places spell nodes that fit. -/
def Spread (p q : Place) (es : List Extent) : Prop :=
  Sorted p.left → ∃ tokens, p.Passes tokens q ∧ Laid tokens es

namespace Spread

variable {p m r q : Place} {k : Token.Kind} {es es' : List Extent} {e e' : Extent} {s : Span}

theorem nil (p : Place) : Spread p p [] := fun _ => ⟨[], ⟨rfl, rfl⟩, .nil []⟩

/-- A token that is no node. -/
theorem token (h : p.Reads k q) : Spread p q [] := by
  intro _
  exact ⟨[⟨k, q.previous⟩], ⟨h, rfl⟩, .nil _⟩

/-- A node that is a token. -/
theorem leaf (h : p.Reads k q) : Spread p q [.mk q.previous []] := by
  intro hSorted
  rw [show p.left = _ from h] at hSorted
  exact ⟨[⟨k, q.previous⟩], ⟨h, rfl⟩, .leaf (Sorted.cons_iff.mp hSorted).1.2⟩

theorem append (h : Spread p m es) (h' : Spread m q es') : Spread p q (es ++ es') := by
  intro hSorted
  obtain ⟨tokens, hPasses, hLaid⟩ := h hSorted
  rw [hPasses.left] at hSorted
  obtain ⟨more, hPasses', hLaid'⟩ := h' (Sorted.append_iff.mp hSorted).2.1
  rw [hPasses'.left, ← List.append_assoc] at hSorted
  have hTokens := (Sorted.append_iff.mp hSorted).1
  exact ⟨tokens ++ more, hPasses.append hPasses', hLaid.append hTokens hLaid'⟩

/-- A node before others. -/
theorem cons (h : Spread p m [e]) (h' : Spread m q es) : Spread p q (e :: es) := h.append h'

/-- Behind a token that is no node. -/
theorem behind (h : p.Reads k m) (h' : Spread m q es) : Spread p q es := (token h).append h'

/-- Before a token that is no node. -/
theorem before (h : Spread p m es) (h' : m.Reads k q) : Spread p q es := by
  have hBoth := h.append (token h')
  rwa [List.append_nil] at hBoth

/-- Before the end of a statement, where a semicolon may be passed. -/
theorem ends (h : Spread p m es) (h' : m.Ends q) : Spread p q es := by
  rcases h' with h' | ⟨-, -, rfl⟩
  · exact h.before h'
  · exact h

theorem same (h : Spread p q [e]) : Spread p q [.mk e.span [e]] := by
  intro hSorted
  obtain ⟨tokens, hPasses, hLaid⟩ := h hSorted
  exact ⟨tokens, hPasses, hLaid.same⟩

/-- The only part of a node. -/
theorem part (h : Spread p q [.mk s [e]]) : Spread p q [e] := by
  intro hSorted
  obtain ⟨tokens, hPasses, hLaid⟩ := h hSorted
  exact ⟨tokens, hPasses, hLaid.part⟩

/-- A node from the first token to the last. -/
theorem whole_of_passes {t : Token} {tokens : List Token} (hPasses : p.Passes (t :: tokens) q)
    (hSorted : Sorted p.left) (h : Laid (t :: tokens) es) :
    Laid (t :: tokens) [.mk (t.span.merge q.previous) es] := by
  rw [hPasses.left] at hSorted
  have hTokens := (Sorted.append_iff.mp hSorted).1
  obtain ⟨hEdged, hLast⟩ := stop_lastSpan p.previous hTokens (List.cons_ne_nil _ _)
  rw [hPasses.previous]
  exact h.merge (edged_of_mem hTokens List.mem_cons_self) hEdged
    (fun e he => hTokens.start_first (h.sound e he).edged)
    (fun e he => hLast _ (h.sound e he).edged)

/-- Nodes take tokens to spell. -/
theorem ne_nil_of_laid {tokens : List Token} (h : Laid tokens (e :: es)) : tokens ≠ [] := by
  rintro rfl
  obtain ⟨t, ht, -⟩ := (h.sound e List.mem_cons_self).edged.start
  cases ht

theorem whole {t : Token} (h : Spread p q (e :: es)) (hFirst : ∀ u ∈ p.left.head?, u = t) :
    Spread p q [.mk (t.span.merge q.previous) (e :: es)] := by
  intro hSorted
  obtain ⟨tokens, hPasses, hLaid⟩ := h hSorted
  obtain ⟨u, tokens, rfl⟩ := List.exists_cons_of_ne_nil (ne_nil_of_laid hLaid)
  obtain rfl : u = t := hFirst u (by rw [hPasses.left]; rfl)
  exact ⟨_, hPasses, whole_of_passes hPasses hSorted hLaid⟩

/-- A node from a keyword to the last token. -/
theorem keyword (h : p.Reads k m) (h' : Spread m q es) :
    Spread p q [.mk (m.previous.merge q.previous) es] := by
  intro hSorted
  have hRest : p.left = [⟨k, m.previous⟩] ++ m.left := h
  have hSplit := hRest ▸ hSorted
  obtain ⟨tokens, hPasses, hLaid⟩ := h' (Sorted.append_iff.mp hSplit).2.1
  have hAll : p.Passes (⟨k, m.previous⟩ :: tokens) q := Place.Passes.append ⟨hRest, rfl⟩ hPasses
  have hTokens := (Sorted.append_iff.mp (hAll.left ▸ hSorted)).1
  have hBehind : Laid (⟨k, m.previous⟩ :: tokens) es :=
    (Laid.nil [⟨k, m.previous⟩]).append hTokens hLaid
  exact ⟨_, hAll, whole_of_passes hAll hSorted hBehind⟩

/-- A node from its first part to the last token. -/
theorem toPrevious (h : Spread p q (e :: es)) :
    Spread p q [.mk (e.span.merge q.previous) (e :: es)] := by
  intro hSorted
  obtain ⟨tokens, hPasses, hLaid⟩ := h hSorted
  have hTokens := (Sorted.append_iff.mp (hPasses.left ▸ hSorted)).1
  obtain ⟨hEdged, hLast⟩ := stop_lastSpan p.previous hTokens (ne_nil_of_laid hLaid)
  refine ⟨tokens, hPasses, ?_⟩
  rw [hPasses.previous]
  exact hLaid.merge (hLaid.sound e List.mem_cons_self).edged hEdged hLaid.start_first
    fun x hx => hLast _ (hLaid.sound x hx).edged

/-- A node from an operator to its only part. -/
theorem operator (h : p.Reads k m) (h' : Spread m q [e]) :
    Spread p q [.mk (m.previous.merge e.span) [e]] := by
  intro hSorted
  obtain ⟨tokens, hPasses, hLaid⟩ := (leaf h).cons h' hSorted
  have hOperator := (hLaid.sound _ List.mem_cons_self).edged
  have hOperand := hLaid.tail.sound e List.mem_cons_self
  refine ⟨tokens, hPasses, hLaid.tail.merge hOperator hOperand.edged ?_ ?_⟩
  · have hFirst := hLaid.start_first e (List.mem_cons_of_mem _ List.mem_cons_self)
    exact List.forall_mem_singleton.mpr hFirst
  · exact List.forall_mem_singleton.mpr (Position.not_before_self _)

/-- A node from its first part to its last. -/
theorem joined (es : List Extent) (h : Spread p q (e :: es ++ [e'])) :
    Spread p q [.mk (e.span.merge e'.span) (e :: es ++ [e'])] := by
  intro hSorted
  obtain ⟨tokens, hPasses, hLaid⟩ := h hSorted
  refine ⟨tokens, hPasses, ?_⟩
  exact hLaid.merge (hLaid.sound e List.mem_cons_self).edged
    (hLaid.sound e' (List.mem_append_right _ (List.mem_singleton_self e'))).edged
    hLaid.start_first hLaid.stop_last

end Spread

/-- A name that is declared is one node. -/
theorem Place.Binds.spread {p q : Place} {name : Ident} (h : p.Binds name q) :
    Spread p q [name.extent] := by
  rw [Ident.extent, h.2.1]
  exact .leaf h.1

/-- Names with commas between them. -/
theorem Names.spread {names : List Ident} {p q : Place} (h : Names names p q) :
    Spread p q (names.map Ident.extent) := by
  induction h with
  | one h => exact h.spread
  | more h comma _ ih => exact h.spread.cons (.behind comma ih)

/-- The names in the parentheses of a function. -/
theorem Params.spread {names : List Ident} {p q : Place} (h : Params names p q) :
    Spread p q (names.map Ident.extent) := by
  cases h with
  | none => exact .nil p
  | some h distinct => exact h.spread

namespace Phrase

/-- The nodes that the phrase stands for, side by side. -/
def extents : Phrase → List Extent
  | expr _ e | condition e => [e.extent]
  | items es => Expr.extents es
  | function _ _ f => f.params.map Ident.extent ++ [f.body.extent]
  | body b | block _ b => [b.extent]
  | stmts _ ss => Stmt.extents ss
  | stmt _ s => [s.extent]
  | binding name e => [name.extent, e.extent]
  | branch _ b => [b.extent]
  | alternate _ a => a.extents
  | init i => LoopInit.optionExtents i
  | optional _ e => Expr.optionExtents e

/-- An expression of one token; a name in it is a node below. -/
theorem spread_atom {p q : Place} {k : Token.Kind} {e : Expr} (token : p.Reads k q)
    (value : atom? ⟨k, q.previous⟩ = some e) : Spread p q [e.extent] := by
  unfold atom? at value
  split at value <;> cases value <;> first | exact .leaf token | exact (Spread.leaf token).same

/-- A function is the node over its name, its parameters and its body. -/
theorem spread_function {lenient : Bool} {p m q r : Place} {k : Token.Kind} {f : Function}
    (name : Option Ident) (keyword : p.Reads k m) (hName : Spread m r (name.toList.map Ident.extent))
    (h : (function m.previous name f).Derives lenient r q)
    (ih : Spread r q (f.params.map Ident.extent ++ [f.body.extent])) :
    Spread p q [f.extent] := by
  cases h with
  | function opening params closing body =>
    have hParts := hName.append ih
    rw [← List.append_assoc, ← List.map_append] at hParts
    exact .keyword keyword hParts

/-- What a phrase stands for fits, if the tokens stand one behind the other. -/
theorem Derives.spread {lenient : Bool} {ph : Phrase} {p q : Place} (h : ph.Derives lenient p q) :
    Spread p q ph.extents := by
  -- a statement, an optional part or a body that is an expression has a node of its own around it
  have hExpr {p q : Place} {e : Expr} (he : Spread p q [e.extent]) :
      Spread p q [.mk e.span [e.extent]] := e.span_extent ▸ he.same
  have hFunction {p q : Place} {f : Function} (hf : Spread p q [f.extent]) :
      Spread p q [.mk f.span [f.extent]] := f.span_extent ▸ hf.same
  have hBlock {p q : Place} {b : Block} (hb : Spread p q [b.extent]) :
      Spread p q [.mk b.span [b.extent]] := b.span_extent ▸ hb.same
  have hUntil {p q : Place} {e : Expr} {es : List Extent} (h : Spread p q (e.extent :: es)) :
      Spread p q [.mk (e.span.merge q.previous) (e.extent :: es)] := e.span_extent ▸ h.toPrevious
  induction h with
  -- expressions without loose ends
  | atom token value => exact spread_atom token value
  | parens opening _ closing ih => exact .behind opening (ih.before closing)
  | array opening _ closing ih => exact .keyword opening (ih.before closing)
  | namedFunction keyword binds rest ih =>
    exact hFunction (spread_function (some _) keyword binds.spread rest ih)
  | anonymousFunction keyword rest ih =>
    exact hFunction (spread_function none keyword (.nil _) rest ih)
  -- the looser ranks
  | looser _ _ ih => exact ih
  | call _ opening _ closing ihCallee ihArgs =>
    exact hUntil ((ihCallee.before opening).cons (ihArgs.before closing))
  | index _ opening _ closing ihObject ihKey =>
    exact hUntil ((ihObject.before opening).cons (ihKey.before closing))
  | member _ dot property ih => exact hUntil ((ih.before dot).cons (.leaf property))
  | @unary _ _ _ _ _ e token _ _ ih => exact e.span_extent ▸ Spread.operator token ih
  | @joined _ _ _ _ _ _ op a b _ token _ _ ihLeft ihRight =>
    have hBoth := Spread.joined [] ((ihLeft.before token).cons ihRight)
    rw [a.span_extent, b.span_extent] at hBoth
    cases op <;> exact hBoth
  | @conditional _ _ _ _ _ _ t x y _ question _ colon _ ihTest ihConsequent ihAlternate =>
    have hAll := Spread.joined [x.extent]
      ((ihTest.before question).cons ((ihConsequent.before colon).cons ihAlternate))
    rw [t.span_extent, y.span_extent] at hAll
    exact hAll
  | @assign _ _ _ _ name e _ mark _ ihTarget ihValue =>
    have hBoth := Spread.joined [] ((ihTarget.part.before mark).cons ihValue)
    rw [e.span_extent] at hBoth
    exact hBoth
  -- arrow functions
  | bareArrow param arrow _ ih =>
    have hAll := (param.spread.cons (.behind arrow ih)).toPrevious
    rw [Ident.extent, Extent.span, param.2.1, ← param.2.1] at hAll
    exact hFunction (param.2.1 ▸ hAll)
  | arrow opening params closing arrow _ ih =>
    exact hFunction (.keyword opening
      ((params.spread.before closing).append (.behind arrow ih)))
  | blockBody _ ih => exact ih
  | exprBody _ ih => exact (hExpr ih).same
  -- lists and functions
  | noItems => exact .nil _
  | lastItem _ ih => exact ih
  | moreItems _ comma _ ihItem ihRest => exact (ihItem.before comma).cons ihRest
  | function opening params closing _ ih =>
    exact .behind opening ((params.spread.before closing).append ih)
  -- blocks
  | block opening _ closing ih => exact .keyword opening (ih.before closing)
  | noStmts => exact .nil _
  | straySemicolon stray _ ih => exact .behind stray ih
  | moreStmts _ _ ihFirst ihRest => exact ihFirst.cons ihRest
  -- statements
  | expr _ _ ends ih => exact (hExpr ih).ends ends
  | letDecl keyword _ ends ih | constDecl keyword _ ends ih =>
    exact (Spread.keyword keyword ih).ends ends
  | binding binds mark _ ih => exact (binds.spread.before mark).cons ih
  | functionDecl keyword binds rest ih =>
    exact hFunction (spread_function (some _) keyword binds.spread rest ih)
  | bareReturn _ keyword ends => exact (Spread.leaf keyword).toPrevious.ends ends
  | returns _ keyword _ _ ends ih => exact (Spread.keyword keyword ih).ends ends
  | branchStmt _ ih => exact ih
  | blockStmt _ ih => exact hBlock ih
  | whileLoop keyword _ _ ihTest ihBody => exact .keyword keyword (ihTest.cons ihBody)
  | forLoop keyword opening _ _ _ _ ihInit ihTest ihUpdate ihBody =>
    have hHeader := ihInit.append (ihTest.append (ihUpdate.append ihBody))
    exact .keyword keyword (.behind opening hHeader)
  | breakLoop _ keyword ends | continueLoop _ keyword ends | cut keyword ends =>
    exact (Spread.leaf keyword).ends ends
  -- branches
  | condition opening _ closing ih => exact .behind opening (ih.before closing)
  | branch keyword _ _ _ ihTest ihConsequent ihAlternate =>
    exact .keyword keyword (ihTest.cons (ihConsequent.cons ihAlternate))
  | noAlternate => exact .nil _
  | otherwise keyword _ ih => exact .behind keyword ih
  | elseIf keyword _ ih => exact .behind keyword ih
  -- the header of a `for` loop
  | noInit separator => exact .token separator
  | letInit keyword _ separator ih => exact (Spread.keyword keyword ih).before separator
  | brokenInit _ keyword _ _ _ ih => exact .keyword keyword ih
  | exprInit _ separator ih => exact (hExpr ih).before separator
  | absent closing => exact .token closing
  | present _ closing ih => exact ih.before closing

end Phrase

-- ---------------------------------------------------------------------------
-- Programs
-- ---------------------------------------------------------------------------

/-- A program stands from the first token to the last that was read. If there are no statements it
has the place of the first token. -/
theorem span_of_program {s : State} {p : Program} (h : (program s).1 = some p) :
    ∃ ss, p = ⟨.mk ss p.span, p.span⟩ ∧ p.span =
      if ss.isEmpty then s.current.span else s.current.span.merge (program s).2.previous := by
  let span (ss : List Stmt) (previous : Span) : Span :=
    if ss.isEmpty then s.current.span else s.current.span.merge previous
  let finish (ss : List Stmt) : Parser Program := do
    let previous ← previousSpan
    return ⟨.mk ss (span ss previous), span ss previous⟩
  have hProgram : program s = (programLoop s.rounds [] >>= finish) s := rfl
  rcases hLoop : programLoop s.rounds [] s with ⟨_ | ss, t⟩
  · rw [hProgram, bind_of_none hLoop] at h
    cases h
  · have hSome : program s = (some ⟨.mk ss (span ss t.previous), span ss t.previous⟩, t) :=
      hProgram.trans (bind_of_some hLoop)
    rw [hSome] at h ⊢
    obtain rfl := Option.some.inj h
    exact ⟨ss, rfl, rfl⟩

variable {source : Source} {tokens : List Token}

/-- A program without statements has the place of the first token. -/
theorem sound_of_empty (hSorted : Sorted tokens) (hSome : tokens ≠ []) :
    (Extent.mk (State.ofTokens source tokens).current.span
      [.mk (State.ofTokens source tokens).current.span []]).Sound tokens := by
  obtain ⟨t, tokens, rfl⟩ := List.exists_cons_of_ne_nil hSome
  have hLeaf := (Laid.leaf (hSorted.forward t List.mem_cons_self)).same
  exact (hLeaf.sound _ List.mem_cons_self).mono (List.cons_subset_cons t (List.nil_subset tokens))

/-- The first token that is left is the current one. -/
theorem State.head_left (s : State) : ∀ t ∈ s.left.head?, t = s.current := by
  intro t ht
  rw [left, List.takeWhile_cons] at ht
  split at ht
  · exact (Option.mem_some.mp ht).symm
  · cases ht

/-- The nodes of a program fit, if those of its statements are spread between its tokens. -/
theorem sound_of_spread {q : Place} {s : Extent} {ss : List Extent} {span : Span}
    (hSorted : Sorted tokens) (h : Spread (State.ofTokens source tokens).place q (s :: ss))
    (hSpan : span = (State.ofTokens source tokens).current.span.merge q.previous) :
    (Extent.mk span [.mk span (s :: ss)]).Sound tokens := by
  have hLeft : (State.ofTokens source tokens).left <+: tokens := by
    rw [State.left_ofTokens]
    exact List.takeWhile_prefix _
  obtain ⟨rest, hRest⟩ := hLeft
  have hSortedLeft := (Sorted.append_iff.mp (hRest ▸ hSorted)).1
  obtain ⟨passed, hPasses, hLaid⟩ :=
    (h.whole (State.ofTokens source tokens).head_left).same hSortedLeft
  have hAll : (State.ofTokens source tokens).left = passed ++ q.left := hPasses.left
  rw [hSpan]
  refine (hLaid.sound _ List.mem_cons_self).mono fun t ht => ?_
  rw [← hRest, hAll]
  exact List.mem_append_left _ (List.mem_append_left _ ht)

end Parser

/-- In the program of a text all parts of a node are within its region, one behind the other, and
this region starts where a token of the text starts and ends where one ends. -/
theorem parse_nests {source : Source} {p : Program} (h : (parse source).program = some p) :
    ∀ e, p.extent.Has e →
      (∀ part ∈ e.parts, part.span.Inside e.span) ∧
      (e.parts.Pairwise fun a b => a.span.Ahead b.span) ∧
      (∃ t ∈ (Lexer.run source).tokens, t.span.start = e.span.start) ∧
      (∃ t ∈ (Lexer.run source).tokens, t.span.stop = e.span.stop) ∧ e.span.Forward := by
  obtain ⟨hQuiet, hTokens⟩ : (Lexer.run source).log.hasErrors = false ∧
      (parseTokens source (Lexer.run source).tokens).program = some p := by
    unfold parse at h
    dsimp only at h
    split at h
    · cases h
    · next hNone => exact ⟨Bool.eq_false_iff.mpr hNone, h⟩
  have hSorted := Lexer.sorted_run hQuiet
  have hDerives := derives_of_program (show Parser.Separated true _ from fun _ _ _ => rfl) hTokens
  have hProgram : (Parser.program (.ofTokens source (Lexer.run source).tokens)).1 = some p :=
    (program_of_quiet (quiet_of_program hTokens)).symm.trans hTokens
  obtain ⟨ss, hp, hSpan⟩ := Parser.span_of_program hProgram
  rw [hp] at hDerives
  -- a program without statements has no token of its own, so it is treated apart
  have hSound : p.extent.Sound (Lexer.run source).tokens := by
    rw [hp, hSpan]
    cases ss with
    | nil =>
      obtain ⟨body, stop, hBody, -⟩ := (Lexer.run_splits source).2.1
      refine Parser.sound_of_empty hSorted fun hNone => ?_
      rw [hBody] at hNone
      exact List.append_ne_nil_of_right_ne_nil _ (List.cons_ne_nil _ _) hNone
    | cons s ss => exact Parser.sound_of_spread hSorted hDerives.spread rfl
  intro e he
  have hFits := hSound e he
  exact ⟨hFits.inside, hFits.ahead, hFits.edged.start, hFits.edged.stop, hFits.edged.forward⟩

/-- Parentheses, commas behind the last items, a bare `return`, an arrow function, no semicolons. -/
def loosely : Source where
  name := "loosely"
  text := "const f = (a, b) => (a + b) * 2\nfunction g() \x7b return \x7d\ng([1, (f)(2, 3,),])"

/-- The text is read as three statements, one behind the other. -/
theorem loosely_nests : ∃ p, (parse loosely).program = some p ∧ p.body.statements.length = 3 ∧
    (∀ part ∈ p.body.extent.parts, part.span.Inside p.body.extent.span) ∧
    p.body.extent.parts.Pairwise fun a b => a.span.Ahead b.span := by
  have hRead : (parse loosely).program.any (·.body.statements.length == 3) = true := by
    decide +kernel
  obtain ⟨p, hp, hLength⟩ := (Option.any_eq_true _ _).mp hRead
  have hBody : p.extent.Has p.body.extent := .part List.mem_cons_self (.self _)
  obtain ⟨hInside, hAhead, -⟩ := parse_nests hp _ hBody
  exact ⟨p, hp, beq_iff_eq.mp hLength, hInside, hAhead⟩

end AmbScript
