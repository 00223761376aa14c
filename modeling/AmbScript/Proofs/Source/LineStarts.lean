import AmbScript.Proofs.Source.Encoding
import AmbScript.Source.Text
import Mathlib.Data.List.Basic

/-!
# Lines by byte offsets

Where the lines of a text start can be noted once, as the offsets of the bytes behind line feeds; a
line is then the bytes from where it starts up to the line feed before the next start. This gives
the lines that are found by going through the text: a line feed is one byte, and that byte stands in
no other character, so all these offsets lie between characters.

* `Source.lineStarts`, `Source.lineBytes?` — where lines start, and the bytes of a line.
* `Source.lineStarts_encode` — the text from such an offset on is what is left behind as many lines.
* `Source.lineBytes?_encode` — the bytes of a line are those of its characters.
* `Source.length_lineStarts` — there are as many lines as offsets.
-/

namespace AmbScript

namespace Source

/-- The offsets behind the line feeds of `bytes`, which start at the offset `offset`. -/
def lineEnds (offset : Nat) (bytes : List UInt8) : List Nat :=
  ((bytes.zipIdx offset).filter fun x => x.1 == 0x0A).map fun x => x.2 + 1

/-- The offset of the first byte of each line. -/
def lineStarts (bytes : List UInt8) : List Nat := 0 :: lineEnds 0 bytes

/-- The bytes without a carriage return at their end. -/
def dropReturnByte (bytes : List UInt8) : List UInt8 :=
  if bytes.getLast? = some 0x0D then bytes.dropLast else bytes

/-- The bytes of line `n`, counted from 1, without its end. -/
def lineBytes? (bytes : List UInt8) : Nat → Option (List UInt8)
  | 0 => none
  | index + 1 => (lineStarts bytes)[index]?.map fun start =>
    let stop := ((lineStarts bytes)[index + 1]?.map (· - 1)).getD bytes.length
    dropReturnByte ((bytes.take stop).drop start)

-- ---------------------------------------------------------------------------
-- Offsets behind line feeds
-- ---------------------------------------------------------------------------

/-- A byte that is no line feed ends no line. -/
theorem lineEnds_cons_of_ne {b : UInt8} (h : b ≠ 0x0A) (offset : Nat) (bytes : List UInt8) :
    lineEnds offset (b :: bytes) = lineEnds (offset + 1) bytes := by
  rw [lineEnds, List.zipIdx_cons, List.filter_cons_of_neg]
  · rfl
  · rw [beq_iff_eq]
    exact h

/-- The next line starts behind a line feed. -/
theorem lineEnds_cons (offset : Nat) (bytes : List UInt8) :
    lineEnds offset (0x0A :: bytes) = (offset + 1) :: lineEnds (offset + 1) bytes := rfl

/-- Bytes without a line feed are passed over. -/
theorem lineEnds_append {line : List UInt8} (h : ∀ b ∈ line, b ≠ 0x0A) (offset : Nat)
    (bytes : List UInt8) : lineEnds offset (line ++ bytes) = lineEnds (offset + line.length) bytes := by
  induction line generalizing offset with
  | nil => rfl
  | cons b line ih =>
    obtain ⟨hb, hLine⟩ := List.forall_mem_cons.mp h
    rw [List.cons_append, lineEnds_cons_of_ne hb, ih hLine, List.length_cons, Nat.add_right_comm,
      Nat.add_assoc]

-- ---------------------------------------------------------------------------
-- The lines of a text
-- ---------------------------------------------------------------------------

/-- The first line of a text, in bytes: up to a line feed, or up to the end. -/
theorem exists_line (cs : List Char) : ∃ line rest, cs = line ++ rest ∧ '\n' ∉ line ∧
    (∀ b ∈ encode line, b ≠ 0x0A) ∧ (rest = [] ∨ ∃ next, rest = '\n' :: next) ∧
      cs.takeWhile (· != '\n') = line ∧ cs.dropWhile (· != '\n') = rest := by
  have hTells : Tells (· != 0x0A) (· != '\n') := tells_bne (d := '\n') (by decide)
  refine ⟨cs.takeWhile (· != '\n'), cs.dropWhile (· != '\n'),
    List.takeWhile_append_dropWhile.symm, fun hMem => ?_, fun b hb => ?_, ?_, rfl, rfl⟩
  · have hNot := List.all_eq_true.mp List.all_takeWhile _ hMem
    exact absurd hNot (by decide)
  · rw [← takeWhile_encode hTells] at hb
    exact bne_iff_ne.mp (List.all_eq_true.mp List.all_takeWhile b hb)
  · cases hRest : cs.dropWhile (· != '\n') with
    | nil => exact .inl rfl
    | cons c next =>
      have hNot := List.head?_dropWhile_not (· != '\n') cs
      rw [hRest] at hNot
      have hc : c = '\n' := by simpa using hNot
      exact .inr ⟨next, by rw [hc]⟩

/-- What is left behind some lines is the end of the text. -/
theorem suffix_of_afterLines {n : Nat} {cs rest : List Char} (h : afterLines n cs = some rest) :
    rest <:+ cs := by
  induction n generalizing cs with
  | zero =>
    cases h
    exact List.suffix_rfl
  | succ n ih =>
    obtain ⟨line, tail, rfl, -, -, rfl | ⟨next, rfl⟩, -, hRest⟩ := exists_line cs
    · rw [afterLines, hRest] at h
      cases h
    · rw [afterLines, hRest] at h
      exact (ih h).trans ((List.suffix_cons '\n' next).trans (List.suffix_append line _))

/-- Behind `n + 1` lines is what is behind the next line, `n` lines on. -/
theorem afterLines_succ (n : Nat) (cs : List Char) :
    afterLines (n + 1) cs = (afterLines n cs).bind (afterLines 1) := by
  induction n generalizing cs with
  | zero => rfl
  | succ n ih =>
    rw [afterLines, afterLines]
    cases hRest : cs.dropWhile (· != '\n') with
    | nil => rfl
    | cons c next => exact ih next

/-- The bytes of the end of a text are the end of its bytes. -/
theorem length_encode_le {cs rest : List Char} (h : rest <:+ cs) :
    (encode rest).length ≤ (encode cs).length := by
  obtain ⟨front, rfl⟩ := h
  rw [encode_append, List.length_append]
  exact Nat.le_add_left _ _

/-- Line `n + 1` starts at the offset from which on the bytes are those of what is left of the text
behind its first `n` lines; there is no such offset if there is no such line. -/
theorem lineStarts_encode (n : Nat) (offset : Nat) (cs : List Char) :
    (offset :: lineEnds offset (encode cs))[n]? =
      (afterLines n cs).map fun rest => offset + ((encode cs).length - (encode rest).length) := by
  induction n generalizing offset cs with
  | zero => simp [afterLines]
  | succ n ih =>
    obtain ⟨line, rest, rfl, -, hLine, rfl | ⟨next, rfl⟩, -, hRest⟩ := exists_line cs
    · -- the text ends with this line
      rw [afterLines, hRest, List.append_nil, ← List.append_nil (encode line),
        List.getElem?_cons_succ, lineEnds_append hLine]
      rfl
    · have hEnd : encode ('\n' :: next) = 0x0A :: encode next := encode_narrow (by decide) next
      rw [afterLines, hRest, encode_append, hEnd, List.getElem?_cons_succ, lineEnds_append hLine,
        lineEnds_cons, ih]
      refine Option.map_congr fun last hLast => ?_
      have hShorter := length_encode_le (suffix_of_afterLines hLast)
      simp only [List.length_append, List.length_cons]
      omega

/-- A text has as many lines as there are offsets at which one starts. -/
theorem length_lineStarts (s : Source) : (lineStarts (encode s.text.toList)).length = s.lineCount := by
  -- an offset is there just if there is a line, and lines are counted by their line feeds
  have hSome (n : Nat) : n < (lineStarts (encode s.text.toList)).length ↔ n < s.lineCount := by
    have hThere : (lineStarts (encode s.text.toList))[n]?.isSome = true ↔
        n < (lineStarts (encode s.text.toList)).length := by
      simp
    rw [← hThere, lineStarts, lineStarts_encode, Option.isSome_map, afterLines_isSome_iff, lineCount,
      Nat.lt_succ_iff]
  refine Nat.le_antisymm ?_ ?_
  · exact Nat.le_of_not_lt fun h => Nat.lt_irrefl _ ((hSome _).mp h)
  · exact Nat.le_of_not_lt fun h => Nat.lt_irrefl _ ((hSome _).mpr h)

/-- A carriage return is one byte, and no other character ends with it. -/
theorem dropReturnByte_encode (line : List Char) :
    dropReturnByte (encode line) = encode (dropReturn line) := by
  rcases List.eq_nil_or_concat line with rfl | ⟨front, c, rfl⟩
  · rfl
  · rw [List.concat_eq_append]
    obtain ⟨b, tail, h⟩ := exists_encodes c
    have hBytes : encode (front ++ [c]) = encode front ++ b :: tail := by
      rw [encode_append, encode_cons, h.eq]
      exact congrArg _ (List.append_nil _)
    -- the byte of a carriage return ends the encoding of no other character
    have hLast : (encode (front ++ [c])).getLast? = some 0x0D ↔ c = '\r' := by
      rw [hBytes, List.getLast?_append_cons]
      by_cases hc : c = '\r'
      · subst hc
        have hOne := h.narrow (by decide)
        rw [hOne.1, hOne.2]
        exact iff_of_true rfl rfl
      · refine iff_of_false (fun hEq => ?_) hc
        have hMem : (0x0D : UInt8) ∈ b :: tail := List.mem_of_getLast? hEq
        rcases List.mem_cons.mp hMem with hFirst | hTail
        · exact hc ((h.first_eq_iff (d := '\r') (by decide)).mp hFirst.symm)
        · exact absurd (h.continues _ hTail) (by decide)
    by_cases hc : c = '\r'
    · rw [dropReturnByte, if_pos (hLast.mpr hc), dropReturn, if_pos (by rw [hc]; simp)]
      subst hc
      have hOne := (h.narrow (by decide)).1
      rw [hBytes, hOne, List.dropLast_concat, List.dropLast_concat]
    · rw [dropReturnByte, if_neg fun hEq => hc (hLast.mp hEq), dropReturn, if_neg (by simpa using hc)]

/-- The part between the offsets of its ends. -/
theorem slice_append (front part rest : List UInt8) :
    ((front ++ (part ++ rest)).take (front.length + part.length)).drop front.length = part := by
  rw [← List.append_assoc, ← List.length_append, List.take_left, List.drop_left]

/-- Cut out by byte offsets, a line has the bytes of its characters. -/
theorem lineBytes?_encode (s : Source) (n : Nat) :
    lineBytes? (encode s.text.toList) n = (s.lineChars? n).map encode := by
  cases n with
  | zero => rfl
  | succ n =>
    generalize hText : s.text.toList = cs
    rw [lineBytes?, lineChars?, hText, lineStarts, lineStarts_encode, lineStarts_encode,
      afterLines_succ, Option.map_map, Option.map_map, Option.map_map]
    refine Option.map_congr fun rest hRest => ?_
    obtain ⟨front, rfl⟩ := suffix_of_afterLines hRest
    obtain ⟨line, tail, rfl, -, -, hTail, hTake, hDrop⟩ := exists_line rest
    have hNext : afterLines 1 (line ++ tail) = tail.tail? := by
      rw [afterLines, hDrop]
      cases tail <;> rfl
    have hStart : 0 + ((encode (front ++ (line ++ tail))).length - (encode (line ++ tail)).length) =
        (encode front).length := by
      rw [encode_append front, List.length_append]
      omega
    simp only [Function.comp_apply, hRest, Option.bind_some, hNext, hTake, hStart,
      ← dropReturnByte_encode]
    refine congrArg dropReturnByte ?_
    -- the line goes up to the byte before the next start, or up to the end
    rcases hTail with rfl | ⟨next, rfl⟩
    · have hSlice := slice_append (encode front) (encode line) []
      rw [List.append_nil, ← List.length_append, ← encode_append] at hSlice
      rw [List.append_nil]
      exact hSlice
    · have hEnd : encode ('\n' :: next) = 0x0A :: encode next := encode_narrow (by decide) next
      have hStop : 0 + ((encode (front ++ (line ++ '\n' :: next))).length - (encode next).length) - 1 =
          (encode front).length + (encode line).length := by
        simp only [encode_append, hEnd, List.length_append, List.length_cons]
        omega
      show List.drop _ (List.take (0 + (_ - (encode next).length) - 1) _) = _
      rw [hStop, encode_append, encode_append]
      exact slice_append _ _ _

end Source

end AmbScript
