import AmbScript.Source.Span

/-!
# Program texts

A named text whose lines can be quoted. A line ends with a line feed; a carriage return just
before that (or at the very end of the text) belongs to the line end too.

* `Source.line?` answers exactly for the lines `1, …, lineCount`.
-/

namespace AmbScript

/-- A program text and the name that diagnostics give it. -/
structure Source where
  name : String
  text : String
deriving Inhabited

namespace Source

/-- What is left of the text after its first `n` lines. -/
def afterLines : Nat → List Char → Option (List Char)
  | 0, cs => some cs
  | n + 1, cs =>
    match cs.dropWhile (· != '\n') with
    | [] => none
    | _ :: rest => afterLines n rest

/-- The text without a carriage return at its end. -/
def dropReturn (cs : List Char) : List Char :=
  if cs.getLast? = some '\r' then cs.dropLast else cs

/-- The characters of line `n`, counted from 1, without its end. -/
def lineChars? (s : Source) : Nat → Option (List Char)
  | 0 => none
  | n + 1 => (afterLines n s.text.toList).map fun cs => dropReturn (cs.takeWhile (· != '\n'))

/-- Line `n`, counted from 1, without its end. -/
def line? (s : Source) (n : Nat) : Option String :=
  (s.lineChars? n).map String.ofList

/-- The line that a diagnostic at line `n` quotes: nothing if there is no such line. -/
def quote (s : Source) (n : Nat) : String :=
  (s.line? n).getD ""

/-- The empty text has one line. -/
def lineCount (s : Source) : Nat :=
  s.text.toList.count '\n' + 1

theorem afterLines_isSome_iff {n : Nat} {cs : List Char} :
    (afterLines n cs).isSome ↔ n ≤ cs.count '\n' := by
  induction n generalizing cs with
  | zero => simp [afterLines]
  | succ n ih =>
    -- all line feeds stand behind the first line
    have key : cs.count '\n' = (cs.dropWhile (· != '\n')).count '\n' := by
      conv => lhs; rw [← List.takeWhile_append_dropWhile (p := (· != '\n')) (l := cs)]
      rw [List.count_append, List.count_eq_zero.2, Nat.zero_add]
      intro h
      simpa using List.all_eq_true.1 (List.all_takeWhile (p := (· != '\n')) (l := cs)) _ h
    rw [afterLines]
    split
    · rename_i h
      rw [key, h]
      simp
    · rename_i c rest h
      have hc : c = '\n' := by
        have := List.head?_dropWhile_not (p := (· != '\n')) cs
        rw [h] at this
        simpa using this
      rw [ih, key, h, hc]
      simp

end Source

end AmbScript
