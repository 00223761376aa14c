import AmbScript.Proofs.Token.Splitting

/-!
# The order of tokens

The tokens of a text that nothing is reported of stand in it one behind the other: each of them ends
before the next one starts.

* `Span.Ahead`, `Span.Inside` — how regions lie to each other.
* `Sorted` — tokens one behind the other.
* `Lexer.sorted_run` — the tokens of a text are.

Regions have their last character as an end, and so a token on one line ends before the next one
starts. The mark of the end has no character; its region is the place behind all of them, which
comes last in any case.
-/

namespace AmbScript

-- ---------------------------------------------------------------------------
-- Places and regions
-- ---------------------------------------------------------------------------

/-- A place is not before another one if it is behind it or the same. -/
theorem Position.before_eq_false_iff {p q : Position} :
    p.before q = false ↔ q.line < p.line ∨ q.line = p.line ∧ q.column ≤ p.column := by
  rw [← Bool.not_eq_true, Position.before_iff]
  omega

/-- Columns are counted from one. -/
theorem Position.one_le_column_afterText {p : Position} (h : 1 ≤ p.column) (text : List Char) :
    1 ≤ (p.afterText text).column := by
  induction text generalizing p with
  | nil => exact h
  | cons c cs ih =>
    refine ih (p := p.after c) ?_
    unfold Position.after
    split
    · exact Nat.le_refl _
    · exact Nat.le_add_left _ _

/-- To pass a text does not go back. -/
theorem Position.afterText_not_before (p : Position) (text : List Char) :
    (p.afterText text).before p = false := by
  rw [Position.before_eq_false_iff]
  by_cases hNone : text = []
  · rw [hNone]
    exact .inr ⟨rfl, Nat.le_refl _⟩
  · have hBefore := Position.before_iff.mp (Position.before_afterText (p := p) hNone)
    omega

namespace Span

/-- The region does not end before it starts. -/
def Forward (s : Span) : Prop := s.stop.before s.start = false

/-- The one region ends before the other starts. -/
def Ahead (s t : Span) : Prop := s.stop.before t.start = true

/-- All of the one region is in the other. -/
def Inside (s t : Span) : Prop := s.start.before t.start = false ∧ t.stop.before s.stop = false

end Span

/-- The tokens stand one behind the other. -/
structure Sorted (tokens : List Token) : Prop where
  ahead : tokens.Pairwise fun t u => t.span.Ahead u.span
  forward : ∀ t ∈ tokens, t.span.Forward

namespace Sorted

variable {t : Token} {tokens more : List Token}

theorem nil : Sorted [] := by
  refine ⟨.nil, ?_⟩
  intro _ ht
  exact absurd ht List.not_mem_nil

/-- The first token is before the others. -/
theorem cons_iff : Sorted (t :: tokens) ↔
    ((∀ u ∈ tokens, t.span.Ahead u.span) ∧ t.span.Forward) ∧ Sorted tokens := by
  constructor
  · rintro ⟨hAhead, hForward⟩
    obtain ⟨hFirst, hRest⟩ := List.pairwise_cons.mp hAhead
    obtain ⟨ht, hTokens⟩ := List.forall_mem_cons.mp hForward
    exact ⟨⟨hFirst, ht⟩, hRest, hTokens⟩
  · rintro ⟨⟨hFirst, ht⟩, hRest, hTokens⟩
    exact ⟨List.pairwise_cons.mpr ⟨hFirst, hRest⟩, List.forall_mem_cons.mpr ⟨ht, hTokens⟩⟩

/-- Two rows of tokens, the first one before the second. -/
theorem append_iff : Sorted (tokens ++ more) ↔
    Sorted tokens ∧ Sorted more ∧ ∀ t ∈ tokens, ∀ u ∈ more, t.span.Ahead u.span := by
  constructor
  · rintro ⟨hAhead, hForward⟩
    obtain ⟨hFirst, hSecond, hBetween⟩ := List.pairwise_append.mp hAhead
    obtain ⟨hTokens, hMore⟩ := List.forall_mem_append.mp hForward
    exact ⟨⟨hFirst, hTokens⟩, ⟨hSecond, hMore⟩, hBetween⟩
  · rintro ⟨⟨hFirst, hTokens⟩, ⟨hSecond, hMore⟩, hBetween⟩
    exact ⟨List.pairwise_append.mpr ⟨hFirst, hSecond, hBetween⟩,
      List.forall_mem_append.mpr ⟨hTokens, hMore⟩⟩

end Sorted

-- ---------------------------------------------------------------------------
-- Tokens of a text
-- ---------------------------------------------------------------------------

namespace Lexer

variable {source : Source} {p : Position} {text : List Char} {tokens : List Token}

/-- What is cut off a text from a place on stands behind it, one token behind the other. -/
theorem Row.sorted (h : Row p text tokens) (hColumn : 1 ≤ p.column) :
    Sorted tokens ∧ ∀ t ∈ tokens, t.span.start.before p = false := by
  -- by induction on the row: the tokens behind all start where this one stops or later
  induction h with
  | @last p gap hGap =>
    have hEnd := p.afterText_not_before gap
    refine ⟨Sorted.cons_iff.mpr ⟨⟨fun _ hu => absurd hu List.not_mem_nil, ?_⟩, .nil⟩,
      List.forall_mem_singleton.mpr hEnd⟩
    exact Position.before_eq_false_iff.mpr (.inr ⟨rfl, Nat.le_refl _⟩)
  | @next p gap text rest k tokens hGap hHeads _ ih =>
    have hNext := Position.one_le_column_afterText hColumn
    obtain ⟨hSorted, hBehind⟩ := ih (hNext (gap ++ text))
    have hStart := Position.before_eq_false_iff.mp (p.afterText_not_before gap)
    have hLength := List.length_pos_iff.mpr hHeads.nonempty
    have hGapColumn := hNext gap
    have hStop : p.afterText (gap ++ text) =
        ⟨(p.afterText gap).line, (p.afterText gap).column + text.length⟩ := by
      rw [Position.afterText_append, Position.afterText_of_oneLine hHeads.oneLine]
    rw [hStop] at hBehind ⊢
    refine ⟨Sorted.cons_iff.mpr ⟨⟨fun u hu => ?_, ?_⟩, hSorted⟩,
      List.forall_mem_cons.mpr ⟨Position.before_eq_false_iff.mpr hStart, fun u hu => ?_⟩⟩
    · have hu := Position.before_eq_false_iff.mp (hBehind u hu)
      refine Position.before_iff.mpr ?_
      simp only [Cursor.spanFrom] at hu ⊢
      omega
    · refine Position.before_eq_false_iff.mpr (.inr ⟨rfl, ?_⟩)
      simp only [Cursor.spanFrom]
      omega
    · have hu := Position.before_eq_false_iff.mp (hBehind u hu)
      refine Position.before_eq_false_iff.mpr ?_
      simp only at hu
      omega

/-- The tokens of a text without reports stand one behind the other. -/
theorem sorted_run (h : (run source).log.hasErrors = false) : Sorted (run source).tokens :=
  ((row_run h).sorted (Nat.le_refl _)).1

end Lexer

end AmbScript
