/-!
# Spans

A span is a region of a program text, from its first to its last character. Lines and columns
count from 1; line 0 marks a place outside every text.
-/

namespace AmbScript

/-- A place in a text. -/
structure Position where
  line : Nat
  column : Nat
deriving DecidableEq, Inhabited

namespace Position

/-- The order in which a text is read. -/
def before (p q : Position) : Bool :=
  p.line < q.line || p.line == q.line && p.column < q.column

/-- The one that is read first. -/
def first (p q : Position) : Position :=
  if q.before p then q else p

/-- The one that is read last. -/
def last (p q : Position) : Position :=
  if p.before q then q else p

/-- Line and column, as diagnostics show them. -/
def render (p : Position) : String :=
  s!"{p.line}:{p.column}"

end Position

/-- A region of text; `stop` is the place of its last character. -/
structure Span where
  start : Position
  stop : Position
deriving DecidableEq, Inhabited

namespace Span

/-- The region without extent at `p`. -/
def point (p : Position) : Span := ⟨p, p⟩

/-- The region of what has no place in any text. -/
def synthetic : Span := point ⟨0, 0⟩

def isSynthetic (s : Span) : Bool := s.start.line == 0

/-- The smallest region that covers both. -/
def merge (a b : Span) : Span := ⟨a.start.first b.start, a.stop.last b.stop⟩

/-- A span is shown by where it starts. -/
def render (s : Span) : String := s.start.render

end Span

end AmbScript
