import AmbScript.Source.Span

/-!
# Cursors

A place in a text together with what is left of the text from there. A line feed ends a line;
every other character takes one column.
-/

namespace AmbScript

namespace Position

/-- The place after a character at `p`. -/
def after (p : Position) (c : Char) : Position :=
  if c = '\n' then ⟨p.line + 1, 1⟩ else ⟨p.line, p.column + 1⟩

/-- The place after a text that starts at `p`. -/
def afterText (p : Position) (cs : List Char) : Position := cs.foldl after p

theorem afterText_append (p : Position) (a b : List Char) :
    p.afterText (a ++ b) = (p.afterText a).afterText b :=
  List.foldl_append

end Position

/-- A place and the text from there on. -/
structure Cursor where
  place : Position
  rest : List Char
deriving Inhabited

namespace Cursor

def ofText (text : String) : Cursor := ⟨⟨1, 1⟩, text.toList⟩

/-- Past the next `n` characters. -/
def drop (c : Cursor) (n : Nat) : Cursor :=
  ⟨c.place.afterText (c.rest.take n), c.rest.drop n⟩

/-- Past the characters up to the first that fails `p`. -/
def dropWhile (c : Cursor) (p : Char → Bool) : Cursor :=
  ⟨c.place.afterText (c.rest.takeWhile p), c.rest.dropWhile p⟩

/-- The region from `start` to the character before the cursor. At the start of a line that is
the first column. -/
def spanFrom (c : Cursor) (start : Position) : Span :=
  ⟨start, ⟨c.place.line, max (c.place.column - 1) 1⟩⟩

theorem length_drop (c : Cursor) (n : Nat) : (c.drop n).rest.length = c.rest.length - n := by
  simp [drop]

end Cursor

end AmbScript
