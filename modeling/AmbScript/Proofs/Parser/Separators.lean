import AmbScript.Proofs.Parser.Grammar
import Mathlib.Algebra.Ring.Int.Defs

/-!
# The separators of `for` headers

In the strict grammar every `for` is followed by the two semicolons of its header. They are counted
against each other: a `for` owes two, a semicolon pays one.

* `Place.owed` — what the tokens behind a place owe.
* `Phrase.Derives.owed_le` — a strict derivation leaves no debt: its tokens pay for all their
  `for`s, and those of a header part for one separator more.

So the count of semicolons alone tells that a text is not spelled strictly. It is what the
refutation of strictness rests on: no derivation has to be searched for.
-/

namespace AmbScript

namespace Token.Kind

/-- What a token adds to the semicolons that are owed. -/
def price (k : Kind) : Int :=
  if k.is .forLoop then 2 else if k.is .semicolon then -1 else 0

/-- A name is no separator. -/
@[grind =]
theorem price_name (text : String) : (name text).price = 0 := rfl

/-- Among the symbols only two count. -/
@[grind =]
theorem price_symbol (x : Symbol) :
    (symbol x).price = if x = .forLoop then 2 else if x = .semicolon then -1 else 0 := by
  simp [price, is_iff]

end Token.Kind

namespace Parser

/-- No expression of one token counts. -/
@[grind →]
theorem price_of_atom {t : Token} {e : Expr} (h : atom? t = some e) : t.kind.price = 0 := by
  unfold atom? at h
  split at h <;> simp_all [Token.Kind.price, Token.Kind.is]

@[grind →]
theorem price_of_unaryOp {k : Token.Kind} {op : UnaryOp} (h : unaryOp? k = some op) :
    k.price = 0 := by
  unfold unaryOp? at h
  split at h <;> simp_all [Token.Kind.price, Token.Kind.is]

@[grind →]
theorem price_of_infixOp {n : Nat} {k : Token.Kind} {op : InfixOp}
    (h : InfixOp.ofTier? n k = some op) : k.price = 0 := by
  unfold InfixOp.ofTier? InfixOp.ofKind? at h
  split at h
  · rename_i known
    split at known <;> simp_all [Token.Kind.price, Token.Kind.is]
  · cases h

namespace Place

/-- How many semicolons the `for` headers behind a place need beyond those that there are. -/
def owed (p : Place) : Int := (p.left.map (·.kind.price)).sum

/-- Reading a token settles its price. -/
@[grind →]
theorem Reads.owed {p q : Place} {k : Token.Kind} (h : p.Reads k q) :
    p.owed = k.price + q.owed := by
  simp [Place.owed, show p.left = _ from h]

/-- A name that is declared costs nothing. -/
@[grind →]
theorem Binds.owed {p q : Place} {name : Ident} (h : p.Binds name q) : p.owed = q.owed := by
  have := h.1.owed
  rw [Token.Kind.price_name] at this
  omega

/-- The end of a statement pays a semicolon or nothing. -/
@[grind →]
theorem Ends.owed_le {p q : Place} (h : p.Ends q) : p.owed ≤ q.owed := by
  rcases h with h | ⟨-, -, rfl⟩
  · have := h.owed
    rw [Token.Kind.price_symbol] at this
    grind
  · omega

end Place

@[grind →]
theorem Names.owed {names : List Ident} {p q : Place} (h : Names names p q) : p.owed = q.owed := by
  induction h with grind

@[grind →]
theorem Params.owed {names : List Ident} {p q : Place} (h : Params names p q) :
    p.owed = q.owed := by
  cases h with grind

namespace Phrase

/-- The semicolons of a phrase that pay for the `for` in front of it. -/
def separators : Phrase → Int
  | init _ => 1
  | optional close _ => -(Token.Kind.symbol close).price
  | _ => 0

/-- A strict derivation leaves no debt. -/
theorem Derives.owed_le {ph : Phrase} {p q : Place} (h : ph.Derives false p q) :
    p.owed + ph.separators ≤ q.owed := by
  induction h <;> simp only [separators] at * <;> grind

end Phrase

end Parser

end AmbScript
