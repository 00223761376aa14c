import AmbScript.Proofs.Token.Splitting
import AmbScript.Source.Text

/-!
# The line that a token stands on

Tokens are placed while the text is cut; lines are found by going through the text once more. The
two agree: on the line where a token starts, the columns that it is said to take hold its text.

* `Source.afterLines_append` — the line behind a part of a text, and how much of it has been passed.
* `Source.columns_line` — a part of a line is found in that line by its columns.
* `Lexer.Placed`, `Lexer.Row.placed` — a token with its text and its place, and that all tokens
  which are cut off a text without a report are placed so.

A column counts the characters since the last line feed, and the line that is quoted begins behind
that line feed. So both are known from the part of the text in front of the token.
-/

namespace AmbScript

namespace Source

/-- The characters in the columns `first` to `last` of a line, counted from 1. -/
def columns (line : String) (first last : Nat) : List Char :=
  (line.toList.take last).drop (first - 1)

/-- A part without a line feed is passed as a whole. -/
theorem bne_of_not_mem {part : List Char} (h : '\n' ∉ part) : ∀ c ∈ part, (c != '\n') = true := by
  intro c hc
  rw [bne_iff_ne]
  rintro rfl
  exact h hc

/-- The line that is reached behind `front`: `lead` is the part of it that has been passed
before. -/
theorem afterLines_append (lead front rest : List Char) {p : Position} (hLead : '\n' ∉ lead)
    (hColumn : p.column = lead.length + 1) :
    ∃ passed, '\n' ∉ passed ∧ (p.afterText front).column = passed.length + 1 ∧
      afterLines (front.count '\n') (lead ++ (front ++ rest)) = some (passed ++ rest) := by
  induction front generalizing p lead with
  | nil => exact ⟨lead, hLead, hColumn, rfl⟩
  | cons c cs ih =>
    have hNext : p.afterText (c :: cs) = (p.after c).afterText cs := rfl
    rw [hNext]
    by_cases hc : c = '\n'
    · subst hc
      have hEnd : (lead ++ ('\n' :: cs ++ rest)).dropWhile (· != '\n') = '\n' :: (cs ++ rest) := by
        rw [List.dropWhile_append_of_pos (bne_of_not_mem hLead)]
        rfl
      -- Behind the line feed nothing of the new line has been passed.
      obtain ⟨passed, hPassed, hPlace, hAfter⟩ := ih [] (p := p.after '\n') List.not_mem_nil rfl
      refine ⟨passed, hPassed, hPlace, ?_⟩
      rw [List.count_cons_self, afterLines, hEnd]
      exact hAfter
    · have hLonger : '\n' ∉ lead ++ [c] := by
        rw [List.mem_append, List.mem_singleton, not_or]
        exact ⟨hLead, Ne.symm hc⟩
      have hMoved : (p.after c).column = (lead ++ [c]).length + 1 := by
        rw [Position.after, if_neg hc, List.length_append, hColumn]
        rfl
      obtain ⟨passed, hPassed, hPlace, hAfter⟩ := ih (lead ++ [c]) hLonger hMoved
      refine ⟨passed, hPassed, hPlace, ?_⟩
      rw [List.count_cons_of_ne hc, ← hAfter]
      simp

variable {lead text : List Char}

/-- The end of a line takes nothing from a text in it that has no carriage return at its end. -/
theorem take_dropReturn (hText : text.getLast? ≠ some '\r') (rest : List Char) :
    (dropReturn (text ++ rest)).take text.length = text := by
  unfold dropReturn
  split
  · rename_i hReturn
    by_cases hRest : rest = []
    · rw [hRest, List.append_nil] at hReturn
      exact absurd hReturn hText
    · rw [List.dropLast_append_of_ne_nil hRest, List.take_left]
  · exact List.take_left

/-- A part of a line is found in that line by its columns. -/
theorem columns_line (hLead : '\n' ∉ lead) (hLine : '\n' ∉ text) (hSome : text ≠ [])
    (hLast : text.getLast? ≠ some '\r') (back : List Char) :
    columns (String.ofList (dropReturn ((lead ++ (text ++ back)).takeWhile (· != '\n'))))
      (lead.length + 1) (lead.length + text.length) = text := by
  have hWhole : (lead ++ (text ++ back)).takeWhile (· != '\n') =
      (lead ++ text) ++ back.takeWhile (· != '\n') := by
    rw [List.takeWhile_append_of_pos (bne_of_not_mem hLead),
      List.takeWhile_append_of_pos (bne_of_not_mem hLine), List.append_assoc]
  have hEnds : (lead ++ text).getLast? ≠ some '\r' := by
    rw [List.getLast?_append, List.getLast?_eq_some_getLast hSome, Option.some_or,
      ← List.getLast?_eq_some_getLast hSome]
    exact hLast
  have hTaken := take_dropReturn hEnds (back.takeWhile (· != '\n'))
  rw [List.length_append] at hTaken
  rw [columns, hWhole, String.toList_ofList, hTaken, Nat.add_sub_cancel, List.drop_left]

end Source

namespace Lexer

variable {source : Source} {p : Position} {text : List Char} {tokens : List Token}

/-- The token has a text in the source, which alone is that token, and starts where this text
starts. It ends on the same line, and its columns in that line hold its text. -/
def Placed (source : Source) (t : Token) : Prop :=
  ∃ front text back line, source.text.toList = front ++ (text ++ back) ∧ IsToken t.kind text ∧
    t.span.start = Position.afterText ⟨1, 1⟩ front ∧ t.span.stop.line = t.span.start.line ∧
    source.line? t.span.start.line = some line ∧ 1 ≤ t.span.start.column ∧
    Source.columns line t.span.start.column t.span.stop.column = text

/-- A token is placed where its text stands. -/
theorem Heads.placed {k : Token.Kind} {rest : List Char} (h : Heads k text rest) (front : List Char)
    (hText : source.text.toList = front ++ (text ++ rest))
    (hPlace : p = Position.afterText ⟨1, 1⟩ front) :
    Placed source ⟨k, Cursor.spanFrom ⟨p.afterText text, rest⟩ p⟩ := by
  obtain ⟨passed, hPassed, hColumn, hAfter⟩ := Source.afterLines_append [] front (text ++ rest)
    (p := ⟨1, 1⟩) List.not_mem_nil rfl
  rw [← hPlace] at hColumn
  -- the line is what stands between the break before the token and the one behind it
  have hLine : source.line? p.line =
      some (String.ofList (Source.dropReturn ((passed ++ (text ++ rest)).takeWhile (· != '\n')))) := by
    have hNumber : p.line = front.count '\n' + 1 := by
      rw [hPlace, Position.line_afterText, Nat.add_comm]
    rw [hNumber, Source.line?, Source.lineChars?, hText, show front ++ (text ++ rest) =
      [] ++ (front ++ (text ++ rest)) from rfl, hAfter]
    rfl
  -- a token has no break in it, so it stops on the line where it starts
  have hStop : (Cursor.spanFrom ⟨p.afterText text, rest⟩ p).stop =
      ⟨p.line, passed.length + text.length⟩ := by
    have hLength := List.length_pos_iff.mpr h.nonempty
    rw [Cursor.spanFrom, Position.afterText_of_oneLine h.oneLine, hColumn]
    simp only [Position.mk.injEq, true_and]
    omega
  refine ⟨front, text, rest, _, hText, h.isToken, hPlace, ?_, hLine, ?_, ?_⟩
  · rw [hStop]
    rfl
  · show 1 ≤ p.column
    omega
  · have hFound := Source.columns_line hPassed h.oneLine h.nonempty h.noReturn rest
    rw [← hColumn] at hFound
    rw [hStop]
    exact hFound

/-- Whatever is cut off behind a part of the text is placed so. -/
theorem Row.placed (h : Row p text tokens) (front : List Char)
    (hText : source.text.toList = front ++ text) (hPlace : p = Position.afterText ⟨1, 1⟩ front) :
    ∀ t ∈ tokens, t.kind ≠ .symbol .eof → Placed source t := by
  induction h generalizing front with
  | last hGap =>
    intro t ht hKind
    rw [List.mem_singleton.mp ht] at hKind
    exact absurd rfl hKind
  | @next p gap text rest k tokens hGap hHeads hRest ih =>
    intro t ht hKind
    rcases List.mem_cons.mp ht with rfl | ht
    · rw [Position.afterText_append]
      refine hHeads.placed (front ++ gap) ?_ ?_
      · rw [hText, List.append_assoc]
      · rw [hPlace, Position.afterText_append]
    · refine ih (front ++ (gap ++ text)) ?_ ?_ t ht hKind
      · rw [hText]
        simp only [List.append_assoc]
      · rw [hPlace, Position.afterText_append _ front]

end Lexer

end AmbScript
