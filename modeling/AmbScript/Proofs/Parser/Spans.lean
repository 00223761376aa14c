import AmbScript.Proofs.Parser.Programs
import AmbScript.Proofs.Token.Gaps

/-!
# Where the nodes of a program stand

Every node of a program was read from tokens, and every token was cut from the text. So each of them
starts on a line of the text, and a diagnostic there has a line to quote.

* `Program.spans` — the regions of all nodes and names in a program.
* `Phrase.Derives.on` — they are made up of those of the tokens that spell it.
* `Lexer.starts_on_line` — a token starts on a line of the text.
* `line?_of_parse` — so does everything in a program that is read from the text.

What is shown of regions is a property `Q` that two regions keep when they are merged. The grammar
makes all spans of a program from those of tokens by merging, so `Q` passes from tokens to trees.
-/

namespace AmbScript

-- ---------------------------------------------------------------------------
-- The regions of a program
-- ---------------------------------------------------------------------------

mutual

/-- The regions of all nodes and names in the expression. -/
def Expr.spans : Expr → List Span
  | .number _ s | .string _ s | .bool _ s | .null s | .undefined s => [s]
  | .ident name => [name.span]
  | .array items s => s :: Expr.allSpans items
  | .assign target value s => s :: target.span :: value.spans
  | .unary _ operand s => s :: operand.spans
  | .binary _ left right s => s :: (left.spans ++ right.spans)
  | .logical _ left right s => s :: (left.spans ++ right.spans)
  | .conditional test consequent alternate s =>
    s :: (test.spans ++ (consequent.spans ++ alternate.spans))
  | .call callee args s => s :: (callee.spans ++ Expr.allSpans args)
  | .index object key s => s :: (object.spans ++ key.spans)
  | .member object property s => s :: property.span :: object.spans
  | .function f => f.spans

/-- The regions in each of the expressions. -/
def Expr.allSpans : List Expr → List Span
  | [] => []
  | e :: es => e.spans ++ Expr.allSpans es

/-- The region of the function, those of its names and those in its body. -/
def Function.spans : Function → List Span
  | .mk name params body s => s :: (name.toList.map Ident.span ++ params.map Ident.span ++ body.spans)

/-- The region of the block and those in its statements. -/
def Block.spans : Block → List Span
  | .mk statements s => s :: Stmt.allSpans statements

/-- The regions of all nodes and names in the statement. -/
def Stmt.spans : Stmt → List Span
  | .expr e => e.spans
  | .declare _ name init s => s :: name.span :: init.spans
  | .function f => f.spans
  | .returns value s => s :: value.spans
  | .branch b => b.spans
  | .block b => b.spans
  | .whileLoop test body s => s :: (test.spans ++ body.spans)
  | .forLoop init test update body s =>
    s :: (LoopInit.optionSpans init ++ (Expr.optionSpans test ++ (Expr.optionSpans update ++
      body.spans)))
  | .breakLoop s | .continueLoop s | .cut s => [s]

/-- The regions in each of the statements. -/
def Stmt.allSpans : List Stmt → List Span
  | [] => []
  | s :: ss => s.spans ++ Stmt.allSpans ss

/-- The region of the branch and those in its parts. -/
def Branch.spans : Branch → List Span
  | .mk test consequent alternate s => s :: (test.spans ++ (consequent.spans ++ alternate.spans))

/-- The regions in what follows `else`. -/
def Alternate.spans : Alternate → List Span
  | .absent => []
  | .block b => b.spans
  | .branch b => b.spans

/-- The regions in the first part of a header. -/
def LoopInit.spans : LoopInit → List Span
  | .declare name init s => s :: name.span :: init.spans
  | .expr e => e.spans

/-- The same, if there is one. -/
def LoopInit.optionSpans : Option LoopInit → List Span
  | none => []
  | some i => i.spans

/-- The regions in an expression of a header, if there is one. -/
def Expr.optionSpans : Option Expr → List Span
  | none => []
  | some e => e.spans

end

/-- The regions of all nodes and names in the program. -/
def Program.spans (p : Program) : List Span := Stmt.allSpans p.body.statements

/-- The region of the whole expression is one of them. -/
theorem Expr.span_mem_spans (e : Expr) : e.span ∈ e.spans := by
  cases e with
  | function f =>
    cases f
    exact List.mem_cons_self
  | _ => exact List.mem_cons_self

namespace Parser

-- ---------------------------------------------------------------------------
-- What is spelled by tokens
-- ---------------------------------------------------------------------------

variable {Q : Span → Prop}

namespace Place

/-- The token before the place and those behind it are in regions of which `Q` holds. -/
def On (Q : Span → Prop) (p : Place) : Prop := Q p.previous ∧ ∀ t ∈ p.left, Q t.span

/-- The token that is read becomes the one before the place. -/
theorem Reads.on {p q : Place} {k : Token.Kind} (h : p.Reads k q) (hp : p.On Q) : q.On Q := by
  have hAll := hp.2
  rw [show p.left = _ from h] at hAll
  exact List.forall_mem_cons.mp hAll

theorem Ends.on {p q : Place} (h : p.Ends q) (hp : p.On Q) : q.On Q := by
  rcases h with h | ⟨-, -, rfl⟩
  · exact h.on hp
  · exact hp

/-- A name is in the region of its token. -/
theorem Binds.on {p q : Place} {name : Ident} (h : p.Binds name q) (hp : p.On Q) :
    q.On Q ∧ Q name.span := by
  have hq := h.1.on hp
  exact ⟨hq, h.2.1 ▸ hq.1⟩

end Place

theorem Names.on {names : List Ident} {p q : Place} (h : Names names p q) (hp : p.On Q) :
    q.On Q ∧ ∀ s ∈ names.map Ident.span, Q s := by
  induction h with
  | one h =>
    obtain ⟨hq, hName⟩ := h.on hp
    exact ⟨hq, List.forall_mem_singleton.mpr hName⟩
  | more h comma _ ih =>
    obtain ⟨hm, hName⟩ := h.on hp
    obtain ⟨hq, hNames⟩ := ih (comma.on hm)
    exact ⟨hq, List.forall_mem_cons.mpr ⟨hName, hNames⟩⟩

theorem Params.on {names : List Ident} {p q : Place} (h : Params names p q) (hp : p.On Q) :
    q.On Q ∧ ∀ s ∈ names.map Ident.span, Q s := by
  cases h with
  | none => exact ⟨hp, fun _ hs => absurd hs List.not_mem_nil⟩
  | some h distinct => exact h.on hp

namespace Phrase

/-- `Q` holds of all regions in what the phrase stands for. -/
def On (Q : Span → Prop) : Phrase → Prop
  | expr _ e => ∀ s ∈ e.spans, Q s
  | items es => ∀ s ∈ Expr.allSpans es, Q s
  | function start name f => Q start → (∀ n ∈ name, Q n.span) → ∀ s ∈ f.spans, Q s
  | body b => ∀ s ∈ b.spans, Q s
  | block _ b => ∀ s ∈ b.spans, Q s
  | stmts _ ss => ∀ s ∈ Stmt.allSpans ss, Q s
  | stmt _ s => ∀ r ∈ s.spans, Q r
  | binding name e => Q name.span ∧ ∀ s ∈ e.spans, Q s
  | condition e => ∀ s ∈ e.spans, Q s
  | branch _ b => ∀ s ∈ b.spans, Q s
  | alternate _ a => ∀ s ∈ a.spans, Q s
  | init i => ∀ s ∈ LoopInit.optionSpans i, Q s
  | optional _ e => ∀ s ∈ Expr.optionSpans e, Q s

/-- An expression of one token is in the region of that token. -/
theorem on_atom {t : Token} {e : Expr} (h : atom? t = some e) (ht : Q t.span) :
    ∀ s ∈ e.spans, Q s := by
  unfold atom? at h
  split at h <;> cases h <;> exact List.forall_mem_singleton.mpr ht

/-- The region of an operation is merged from those of its operands. -/
theorem on_apply (hMerge : ∀ a b : Span, Q a → Q b → Q (a.merge b)) {op : InfixOp} {a b : Expr}
    (ha : ∀ s ∈ a.spans, Q s) (hb : ∀ s ∈ b.spans, Q s) : ∀ s ∈ (op.apply a b).spans, Q s := by
  have hWhole := hMerge _ _ (ha _ a.span_mem_spans) (hb _ b.span_mem_spans)
  cases op <;>
    exact List.forall_mem_cons.mpr ⟨hWhole, List.forall_mem_append.mpr ⟨ha, hb⟩⟩

/-- There is no region to look at. -/
theorem on_nil : ∀ s ∈ ([] : List Span), Q s := fun _ hs => absurd hs List.not_mem_nil

theorem on_cons {s : Span} {ss : List Span} (h : Q s) (hs : ∀ r ∈ ss, Q r) : ∀ r ∈ s :: ss, Q r :=
  List.forall_mem_cons.mpr ⟨h, hs⟩

/-- The regions of two parts. -/
theorem on_append {ss rs : List Span} (hs : ∀ r ∈ ss, Q r) (hr : ∀ r ∈ rs, Q r) :
    ∀ r ∈ ss ++ rs, Q r := List.forall_mem_append.mpr ⟨hs, hr⟩

/-- A phrase is in the regions of its tokens, if these can be merged. -/
theorem Derives.on (hMerge : ∀ a b : Span, Q a → Q b → Q (a.merge b)) {lenient : Bool} {ph : Phrase}
    {p q : Place} (h : ph.Derives lenient p q) (hp : p.On Q) : q.On Q ∧ ph.On Q := by
  have hSpan {e : Expr} (he : ∀ s ∈ e.spans, Q s) : Q e.span := he _ e.span_mem_spans
  have hBetween {p q : Place} (hp : p.On Q) (hq : q.On Q) : Q (p.previous.merge q.previous) :=
    hMerge _ _ hp.1 hq.1
  have hFrom {e : Expr} {q : Place} (he : ∀ s ∈ e.spans, Q s) (hq : q.On Q) :
      Q (e.span.merge q.previous) := hMerge _ _ (hSpan he) hq.1
  induction h with
  -- expressions without loose ends
  | atom token value =>
    have hq := token.on hp
    exact ⟨hq, on_atom value hq.1⟩
  | parens opening _ closing ih =>
    obtain ⟨hr, he⟩ := ih (opening.on hp)
    exact ⟨closing.on hr, he⟩
  | array opening _ closing ih =>
    have hm := opening.on hp
    obtain ⟨hr, hItems⟩ := ih hm
    have hq := closing.on hr
    exact ⟨hq, on_cons (hBetween hm hq) hItems⟩
  | namedFunction keyword binds _ ih =>
    have hm := keyword.on hp
    obtain ⟨hr, hName⟩ := binds.on hm
    obtain ⟨hq, hf⟩ := ih hr
    exact ⟨hq, hf hm.1 fun n hn => Option.mem_some.mp hn ▸ hName⟩
  | anonymousFunction keyword _ ih =>
    have hm := keyword.on hp
    obtain ⟨hq, hf⟩ := ih hm
    exact ⟨hq, hf hm.1 fun n hn => by cases hn⟩
  -- the looser ranks
  | looser _ _ ih => exact ih hp
  | call _ opening _ closing ihCallee ihArgs =>
    obtain ⟨hm, hCallee⟩ := ihCallee hp
    obtain ⟨hs, hArgs⟩ := ihArgs (opening.on hm)
    have hq := closing.on hs
    exact ⟨hq, on_cons (hFrom hCallee hq) (on_append hCallee hArgs)⟩
  | index _ opening _ closing ihObject ihKey =>
    obtain ⟨hm, hObject⟩ := ihObject hp
    obtain ⟨hs, hKey⟩ := ihKey (opening.on hm)
    have hq := closing.on hs
    exact ⟨hq, on_cons (hFrom hObject hq) (on_append hObject hKey)⟩
  | member _ dot property ih =>
    obtain ⟨hm, hObject⟩ := ih hp
    have hq := property.on (dot.on hm)
    exact ⟨hq, on_cons (hFrom hObject hq) (on_cons hq.1 hObject)⟩
  | unary token _ _ ih =>
    have hm := token.on hp
    obtain ⟨hq, hOperand⟩ := ih hm
    exact ⟨hq, on_cons (hMerge _ _ hm.1 (hSpan hOperand)) hOperand⟩
  | joined _ token _ _ ihLeft ihRight =>
    obtain ⟨hm, hLeft⟩ := ihLeft hp
    obtain ⟨hq, hRight⟩ := ihRight (token.on hm)
    exact ⟨hq, on_apply hMerge hLeft hRight⟩
  | conditional _ question _ colon _ ihTest ihConsequent ihAlternate =>
    obtain ⟨ha, hTest⟩ := ihTest hp
    obtain ⟨hc, hConsequent⟩ := ihConsequent (question.on ha)
    obtain ⟨hq, hAlternate⟩ := ihAlternate (colon.on hc)
    exact ⟨hq, on_cons (hMerge _ _ (hSpan hTest) (hSpan hAlternate))
      (on_append hTest (on_append hConsequent hAlternate))⟩
  | assign _ mark _ ihTarget ihValue =>
    obtain ⟨hm, hTarget⟩ := ihTarget hp
    obtain ⟨hq, hValue⟩ := ihValue (mark.on hm)
    have hName := hSpan hTarget
    exact ⟨hq, on_cons (hMerge _ _ hName (hSpan hValue)) (on_cons hName hValue)⟩
  -- arrow functions
  | bareArrow param arrow _ ih =>
    obtain ⟨hm, hName⟩ := param.on hp
    obtain ⟨hq, hBody⟩ := ih (arrow.on hm)
    exact ⟨hq, on_cons (hBetween hm hq) (on_cons hName hBody)⟩
  | arrow opening params closing arrow _ ih =>
    have hm := opening.on hp
    obtain ⟨hr, hNames⟩ := params.on hm
    obtain ⟨hq, hBody⟩ := ih (arrow.on (closing.on hr))
    exact ⟨hq, on_cons (hBetween hm hq) (on_append hNames hBody)⟩
  | blockBody _ ih => exact ih hp
  | exprBody _ ih =>
    obtain ⟨hq, he⟩ := ih hp
    exact ⟨hq, on_cons (hSpan he) (on_append (on_cons (hSpan he) he) on_nil)⟩
  -- lists and functions
  | noItems => exact ⟨hp, on_nil⟩
  | lastItem _ ih =>
    obtain ⟨hq, he⟩ := ih hp
    exact ⟨hq, on_append he on_nil⟩
  | moreItems _ comma _ ihItem ihRest =>
    obtain ⟨hm, he⟩ := ihItem hp
    obtain ⟨hq, hRest⟩ := ihRest (comma.on hm)
    exact ⟨hq, on_append he hRest⟩
  | @function _ _ _ _ _ _ name _ _ opening params closing _ ih =>
    obtain ⟨hr, hNames⟩ := params.on (opening.on hp)
    obtain ⟨hq, hBody⟩ := ih (closing.on hr)
    refine ⟨hq, fun hStart hName => on_cons (hMerge _ _ hStart hq.1) ?_⟩
    refine on_append (on_append ?_ hNames) hBody
    cases name with
    | none => exact on_nil
    | some name => exact on_cons (hName name rfl) on_nil
  -- blocks
  | block opening _ closing ih =>
    have hm := opening.on hp
    obtain ⟨hr, hStatements⟩ := ih hm
    have hq := closing.on hr
    exact ⟨hq, on_cons (hBetween hm hq) hStatements⟩
  | noStmts => exact ⟨hp, on_nil⟩
  | straySemicolon stray _ ih => exact ih (stray.on hp)
  | moreStmts _ _ ihFirst ihRest =>
    obtain ⟨hm, hFirst⟩ := ihFirst hp
    obtain ⟨hq, hRest⟩ := ihRest hm
    exact ⟨hq, on_append hFirst hRest⟩
  -- statements
  | expr _ _ ends ih =>
    obtain ⟨hm, he⟩ := ih hp
    exact ⟨ends.on hm, he⟩
  | letDecl keyword _ ends ih | constDecl keyword _ ends ih =>
    have hm := keyword.on hp
    obtain ⟨hr, hName, hInit⟩ := ih hm
    exact ⟨ends.on hr, on_cons (hBetween hm hr) (on_cons hName hInit)⟩
  | binding binds mark _ ih =>
    obtain ⟨hm, hName⟩ := binds.on hp
    obtain ⟨hq, hInit⟩ := ih (mark.on hm)
    exact ⟨hq, hName, hInit⟩
  | functionDecl keyword binds _ ih =>
    have hm := keyword.on hp
    obtain ⟨hr, hName⟩ := binds.on hm
    obtain ⟨hq, hf⟩ := ih hr
    exact ⟨hq, hf hm.1 fun n hn => Option.mem_some.mp hn ▸ hName⟩
  | bareReturn _ keyword ends =>
    have hm := keyword.on hp
    exact ⟨ends.on hm, on_cons (hBetween hm hm) (on_cons hm.1 on_nil)⟩
  | returns _ keyword _ _ ends ih =>
    have hm := keyword.on hp
    obtain ⟨hr, hValue⟩ := ih hm
    exact ⟨ends.on hr, on_cons (hBetween hm hr) hValue⟩
  | branchStmt _ ih => exact ih hp
  | blockStmt _ ih => exact ih hp
  | whileLoop keyword _ _ ihTest ihBody =>
    have hm := keyword.on hp
    obtain ⟨hr, hTest⟩ := ihTest hm
    obtain ⟨hq, hBody⟩ := ihBody hr
    exact ⟨hq, on_cons (hBetween hm hq) (on_append hTest hBody)⟩
  | forLoop keyword opening _ _ _ _ ihInit ihTest ihUpdate ihBody =>
    have hm := keyword.on hp
    obtain ⟨hs, hInit⟩ := ihInit (opening.on hm)
    obtain ⟨ht, hTest⟩ := ihTest hs
    obtain ⟨hu, hUpdate⟩ := ihUpdate ht
    obtain ⟨hq, hBody⟩ := ihBody hu
    exact ⟨hq, on_cons (hBetween hm hq)
      (on_append hInit (on_append hTest (on_append hUpdate hBody)))⟩
  | breakLoop _ keyword ends | continueLoop _ keyword ends | cut keyword ends =>
    have hm := keyword.on hp
    exact ⟨ends.on hm, on_cons hm.1 on_nil⟩
  -- branches
  | condition opening _ closing ih =>
    obtain ⟨hr, hTest⟩ := ih (opening.on hp)
    exact ⟨closing.on hr, hTest⟩
  | branch keyword _ _ _ ihTest ihConsequent ihAlternate =>
    have hm := keyword.on hp
    obtain ⟨hr, hTest⟩ := ihTest hm
    obtain ⟨hs, hConsequent⟩ := ihConsequent hr
    obtain ⟨hq, hAlternate⟩ := ihAlternate hs
    exact ⟨hq, on_cons (hBetween hm hq) (on_append hTest (on_append hConsequent hAlternate))⟩
  | noAlternate => exact ⟨hp, on_nil⟩
  | otherwise keyword _ ih => exact ih (keyword.on hp)
  | elseIf keyword _ ih => exact ih (keyword.on hp)
  -- the header of a `for` loop
  | noInit separator => exact ⟨separator.on hp, on_nil⟩
  | letInit keyword _ separator ih =>
    have hm := keyword.on hp
    obtain ⟨hr, hName, hInit⟩ := ih hm
    exact ⟨separator.on hr, on_cons (hBetween hm hr) (on_cons hName hInit)⟩
  | brokenInit _ keyword _ _ _ ih =>
    have hm := keyword.on hp
    obtain ⟨hq, hName, hInit⟩ := ih hm
    exact ⟨hq, on_cons (hBetween hm hq) (on_cons hName hInit)⟩
  | exprInit _ separator ih =>
    obtain ⟨hm, he⟩ := ih hp
    exact ⟨separator.on hm, he⟩
  | absent closing => exact ⟨closing.on hp, on_nil⟩
  | present _ closing ih =>
    obtain ⟨hm, he⟩ := ih hp
    exact ⟨closing.on hm, he⟩

end Phrase

end Parser

-- ---------------------------------------------------------------------------
-- Where tokens stand
-- ---------------------------------------------------------------------------

namespace Cursor

/-- The cursor stands in the text: what is not left of the text leads to its place. -/
def Within (text : List Char) (c : Cursor) : Prop :=
  ∃ front, text = front ++ c.rest ∧ c.place = Position.afterText ⟨1, 1⟩ front

variable {text : List Char} {c : Cursor}

/-- Past the next part of the text. -/
theorem Within.takes (h : c.Within text) {next : List Char} {d : Cursor} (hTakes : c.Takes next d) :
    d.Within text := by
  obtain ⟨front, hText, hPlace⟩ := h
  refine ⟨front ++ next, ?_, ?_⟩
  · rw [hText, hTakes.1, List.append_assoc]
  · rw [hTakes.2, hPlace, Position.afterText_append]

end Cursor

/-- A cursor in a text stands on one of its lines. -/
theorem Source.line?_of_within {source : Source} {c : Cursor} (h : c.Within source.text.toList) :
    (source.line? c.place.line).isSome := by
  obtain ⟨front, hText, hPlace⟩ := h
  have hLine : c.place.line = front.count '\n' + 1 := by
    rw [hPlace, Position.line_afterText, Nat.add_comm]
  have hCount : front.count '\n' ≤ source.text.toList.count '\n' := by
    rw [hText, List.count_append]
    exact Nat.le_add_right _ _
  rw [hLine, Source.line?, Option.isSome_map, Source.lineChars?, Option.isSome_map]
  exact afterLines_isSome_iff.mpr hCount

/-- A line that exists is the one that is quoted. -/
theorem Source.line?_eq_quote {s : Source} {n : Nat} (h : (s.line? n).isSome) :
    s.line? n = some (s.quote n) := by
  obtain ⟨line, hLine⟩ := Option.isSome_iff_exists.mp h
  rw [Source.quote, hLine]
  rfl

namespace Lexer

variable {source : Source} {c : Cursor}

/-- The end of the text stands where the cursor does. -/
theorem starts_finish {tokens : List Token} {log : DiagnosticLog}
    (h : c.Within source.text.toList)
    (hTokens : ∀ t ∈ tokens, (source.line? t.span.start.line).isSome) :
    ∀ t ∈ (finish c tokens log).tokens, (source.line? t.span.start.line).isSome := by
  intro t ht
  rcases List.mem_cons.mp (List.mem_reverse.mp ht) with rfl | ht
  · exact Source.line?_of_within h
  · exact hTokens t ht

/-- Each token starts where the cursor was before it was read. -/
theorem starts_loop {fuel : Nat} {tokens : List Token} {log : DiagnosticLog}
    (h : c.Within source.text.toList)
    (hTokens : ∀ t ∈ tokens, (source.line? t.span.start.line).isSome) :
    ∀ t ∈ (loop source fuel c tokens log).tokens, (source.line? t.span.start.line).isSome := by
  induction fuel generalizing c tokens log with
  | zero => exact starts_finish h hTokens
  | succ fuel ih =>
    unfold loop
    split
    · exact starts_finish h hTokens
    · split
      · exact starts_finish h hTokens
      · rename_i ch rest hRest
        obtain ⟨next, -, hTakes⟩ := takes_piece source hRest
        refine ih (h.takes hTakes) ?_
        split
        · exact List.forall_mem_cons.mpr ⟨Source.line?_of_within h, hTokens⟩
        · exact hTokens

/-- Every token of a text starts on one of its lines. -/
theorem starts_on_line (source : Source) :
    ∀ t ∈ (run source).tokens, (source.line? t.span.start.line).isSome := by
  refine starts_loop ⟨[], rfl, rfl⟩ fun _ ht => ?_
  exact absurd ht List.not_mem_nil

end Lexer

/-- Where one region starts that covers two others, one of them does. -/
theorem Span.line_merge (a b : Span) :
    (a.merge b).start.line = a.start.line ∨ (a.merge b).start.line = b.start.line := by
  show (a.start.first b.start).line = _ ∨ (a.start.first b.start).line = _
  unfold Position.first
  split
  · exact .inr rfl
  · exact .inl rfl

/-- Whatever stands in the program of a text starts on a line of the text. -/
theorem line?_of_parse {source : Source} {p : Program} (h : (parse source).program = some p) :
    ∀ s ∈ p.spans, (source.line? s.start.line).isSome := by
  have hTokens : (parseTokens source (Lexer.run source).tokens).program = some p := by
    unfold parse at h
    dsimp only at h
    split at h
    · cases h
    · exact h
  have hDerives := derives_of_program (show Parser.Separated true _ from fun _ _ _ => rfl) hTokens
  -- the place before the first token is the beginning of the first line
  have hFirst : (source.line? 1).isSome :=
    Source.line?_of_within (c := ⟨⟨1, 1⟩, source.text.toList⟩) ⟨[], rfl, rfl⟩
  have hMerge (a b : Span) (ha : (source.line? a.start.line).isSome)
      (hb : (source.line? b.start.line).isSome) : (source.line? (a.merge b).start.line).isSome := by
    rcases a.line_merge b with hLine | hLine <;> rw [hLine]
    · exact ha
    · exact hb
  refine (hDerives.on hMerge ⟨hFirst, fun t ht => ?_⟩).2
  have hLeft : t ∈ (Parser.State.ofTokens source (Lexer.run source).tokens).left := ht
  rw [Parser.State.left_ofTokens] at hLeft
  exact Lexer.starts_on_line source t ((List.takeWhile_prefix _).subset hLeft)

end AmbScript
