import AmbScript.Proofs.Parser.Reading
import AmbScript.Proofs.Parser.Rendering

/-!
# Tokens that parsers accept

A parser that is sure to read some tokens, whatever follows them, as far as the next token allows.

* `State.Upcoming` — nothing was reported, and these are the tokens that come next, all on one line.
* `Accepts` — where the tokens come next, the parser reads just them and gives a result back.
* `Accepts.bind` and the rules behind it follow a sequence of parsers through its tokens, front to
  back.

The condition `F` is about what follows the tokens. It is needed because a loop stops only where it
sees that no more is to come: an expression in parentheses is over if no operator follows it. Each
rule asks of what follows just what its own loops look at.
-/

namespace AmbScript.Parser

open Token (Kind)

variable {α β : Type} {line : Nat}

/-- What the first of the tokens is. -/
def nextKind : List Kind → Kind
  | [] => .symbol .eof
  | k :: _ => k

/-- At the end of the text. -/
@[simp]
theorem nextKind_nil : nextKind [] = .symbol .eof := rfl

@[simp]
theorem nextKind_cons (k : Kind) (ks : List Kind) : nextKind (k :: ks) = k := rfl

-- ---------------------------------------------------------------------------
-- States
-- ---------------------------------------------------------------------------

namespace State

/-- Tokens `ks` come next up to the end of the text, all on one line and no arrow among them.
Nothing has been reported, and there are rounds enough. -/
structure Upcoming (line : Nat) (ks : List Kind) (s : State) : Prop where
  kinds : s.left.map (·.kind) = ks
  rounds : ks.length < s.rounds
  onLine : ∀ t ∈ s.left, t.span.start.line = line ∧ t.span.stop.line = line
  noArrow : ∀ t ∈ s.ahead, t.kind ≠ .symbol .arrow
  log : s.log = .empty

namespace Upcoming

variable {s : State} {k : Kind} {ks : List Kind}

/-- The current token is the first of those that come next. -/
theorem kind_eq (h : s.Upcoming line ks) : s.current.kind = nextKind ks := by
  by_cases he : s.current.kind = .symbol .eof
  · rw [← h.kinds, left_eq_nil he, he]
    rfl
  · rw [← h.kinds, left_eq_cons he]
    rfl

/-- If there is one, it is not the end of the text. -/
theorem ne_eof (h : s.Upcoming line (k :: ks)) : s.current.kind ≠ .symbol .eof := by
  intro he
  have := h.kinds
  rw [left_eq_nil he] at this
  cases this

/-- The current token stands on the line. -/
theorem current_onLine (h : s.Upcoming line (k :: ks)) :
    s.current.span.start.line = line ∧ s.current.span.stop.line = line :=
  h.onLine s.current (by simp [left_eq_cons h.ne_eof])

/-- The second token is the first one ahead. -/
theorem ahead_isName {k' : Kind} (h : s.Upcoming line (k :: k' :: ks)) :
    s.ahead.head?.any (·.kind.isName) = k'.isName := by
  have kinds := h.kinds
  rw [left_eq_cons h.ne_eof] at kinds
  have kinds := (List.cons.inj kinds).2
  cases ha : s.ahead with
  | nil => simp [ha] at kinds
  | cons t ts =>
    rw [ha, List.takeWhile_cons] at kinds
    split at kinds
    · rw [← (List.cons.inj kinds).1]
      rfl
    · cases kinds

/-- Reading uncovers no new tokens. -/
theorem ahead_subset (s : State) : ∀ t ∈ s.advanced.ahead, t ∈ s.ahead := by
  intro t ht
  by_cases he : s.current.kind = .symbol .eof
  · rwa [advanced_eq_self he] at ht
  · cases ha : s.ahead with
    | nil => simp [advanced_of_ahead_nil he ha, ha] at ht
    | cons u us =>
      rw [advanced_of_ahead_cons he ha] at ht
      exact List.mem_cons_of_mem u ht

/-- Behind the first token, the others come next. -/
theorem advanced (h : s.Upcoming line (k :: ks)) : s.advanced.Upcoming line ks where
  kinds := by rw [s.left_advanced, List.map_tail, h.kinds, List.tail_cons]
  rounds := by
    have := h.rounds
    rw [List.length_cons] at this
    rw [s.rounds_advanced]
    omega
  onLine t ht := h.onLine t (List.mem_of_mem_tail (s.left_advanced ▸ ht))
  noArrow t ht := h.noArrow t (ahead_subset s t ht)
  log := s.log_advanced.trans h.log

end Upcoming

end State

-- ---------------------------------------------------------------------------
-- Acceptance
-- ---------------------------------------------------------------------------

/-- Where `ks` come next and what follows them satisfies `F`, the parser reads `ks` and gives back
a result that satisfies `Q`. -/
def Accepts (line : Nat) (F : List Kind → Prop) (x : Parser α) (ks : List Kind) (Q : α → Prop) :
    Prop :=
  ∀ s rest, F rest → s.Upcoming line (ks ++ rest) →
    ∃ a t, x s = (some a, t) ∧ Q a ∧ t.Upcoming line rest

namespace Accepts

variable {F G : List Kind → Prop} {ks ks' : List Kind} {P Q : α → Prop} {T : β → Prop}

/-- Less may be asked of what follows, and less be known of the result. -/
theorem mono {x : Parser α} (hx : Accepts line F x ks P) (hF : ∀ rest, G rest → F rest)
    (h : ∀ a, P a → Q a) : Accepts line G x ks Q := by
  intro s rest hrest hs
  obtain ⟨a, t, run, ha, ht⟩ := hx s rest (hF rest hrest) hs
  exact ⟨a, t, run, h a ha, ht⟩

/-- Two conditions on what follows. -/
theorem or {x : Parser α} (hF : Accepts line F x ks P) (hG : Accepts line G x ks P) :
    Accepts line (fun rest => F rest ∨ G rest) x ks P := by
  intro s rest hrest hs
  exact hrest.elim (hF s rest · hs) (hG s rest · hs)

/-- The tokens of the first parser are followed by those of the second. -/
theorem bind {x : Parser α} {f : α → Parser β} (hx : Accepts line G x ks P)
    (hG : ∀ rest, F rest → G (ks' ++ rest)) (hf : ∀ a, P a → Accepts line F (f a) ks' T) :
    Accepts line F (x >>= f) (ks ++ ks') T := by
  intro s rest hrest hs
  rw [List.append_assoc] at hs
  obtain ⟨a, t, run, ha, ht⟩ := hx s (ks' ++ rest) (hG rest hrest) hs
  rw [bind_of_some run]
  exact hf a ha t rest hrest ht

/-- The second parser reads nothing more. -/
theorem last {x : Parser α} {f : α → Parser β} (hx : Accepts line G x ks P)
    (hG : ∀ rest, F rest → G rest) (hf : ∀ a, P a → Accepts line F (f a) [] T) :
    Accepts line F (x >>= f) ks T := by
  rw [← List.append_nil ks]
  exact .bind hx hG hf

/-- The first parser reads one token. -/
theorem one {x : Parser α} {f : α → Parser β} {k : Kind} (hx : Accepts line G x [k] P)
    (hG : ∀ rest, F rest → G (ks ++ rest)) (hf : ∀ a, P a → Accepts line F (f a) ks T) :
    Accepts line F (x >>= f) (k :: ks) T := by
  rw [← List.singleton_append]
  exact .bind hx hG hf

/-- To give a result reads nothing. -/
theorem pure {a : α} (h : Q a) : Accepts line F (pure a) [] Q :=
  fun s _ _ hs => ⟨a, s, rfl, h, hs⟩

/-- The result is changed; the tokens are the same. -/
theorem map {x : Parser α} {f : α → β} (hx : Accepts line F x ks P) :
    Accepts line F (f <$> x) ks fun b => ∃ a, b = f a ∧ P a := by
  refine .last hx ?_ ?_
  · intro _ h
    exact h
  · intro a ha
    exact .pure ⟨a, rfl, ha⟩

/-- A result that is known is put in. -/
theorem pure_bind {a : β} {f : β → Parser α} (hf : Accepts line F (f a) ks Q) :
    Accepts line F (Pure.pure a >>= f) ks Q := hf

/-- To look at the state reads nothing. -/
theorem look {g : State → β} {f : β → Parser α} (b : β)
    (hg : ∀ s rest, F rest → s.Upcoming line (ks ++ rest) → g s = b)
    (hf : Accepts line F (f b) ks Q) : Accepts line F (Parser.look g >>= f) ks Q := by
  intro s rest hrest hs
  have run : Parser.look g s = (some b, s) := by rw [← hg s rest hrest hs]; rfl
  rw [bind_of_some run]
  exact hf s rest hrest hs

/-- What is seen of the state does not matter. -/
theorem seen {g : State → β} {f : β → Parser α} (hf : ∀ b, Accepts line F (f b) ks Q) :
    Accepts line F (Parser.look g >>= f) ks Q := by
  intro s rest hrest hs
  exact hf (g s) s rest hrest hs

/-- There are more rounds than tokens to come. -/
theorem rounds {f : Nat → Parser α} (hf : ∀ n, ks.length < n → Accepts line F (f n) ks Q) :
    Accepts line F (Parser.rounds >>= f) ks Q := by
  intro s rest hrest hs
  have := hs.rounds
  rw [List.length_append] at this
  exact hf s.rounds (by omega) s rest hrest hs

/-- The next token, with its place on the line. -/
theorem current {k : Kind} {f : Token → Parser α}
    (hf : ∀ t, t.kind = k → t.span.start.line = line → t.span.stop.line = line →
      Accepts line F (f t) (k :: ks) Q) :
    Accepts line F (Parser.look (·.current) >>= f) (k :: ks) Q := by
  intro s rest hrest hs
  obtain ⟨start, stop⟩ := hs.current_onLine
  exact hf s.current hs.kind_eq start stop s rest hrest hs

/-- The place of the next token is on the line. -/
theorem currentSpan {k : Kind} {f : Span → Parser α}
    (hf : ∀ span : Span, span.start.line = line → Accepts line F (f span) (k :: ks) Q) :
    Accepts line F (Parser.currentSpan >>= f) (k :: ks) Q := by
  intro s rest hrest hs
  exact hf s.current.span hs.current_onLine.1 s rest hrest hs

/-- Whether a name stands behind the next token. -/
theorem nextIsName {k k' : Kind} {f : Bool → Parser α}
    (hf : Accepts line F (f k'.isName) (k :: k' :: ks) Q) :
    Accepts line F (Parser.nextIsName >>= f) (k :: k' :: ks) Q :=
  look k'.isName (fun _ _ _ hs => hs.ahead_isName) hf

/-- Nothing has been reported, so the log has room. -/
theorem logIsFull {f : Bool → Parser α} (hf : Accepts line F (f false) ks Q) :
    Accepts line F (Parser.logIsFull >>= f) ks Q := by
  refine look false ?_ hf
  intro s _ _ hs
  rw [hs.log]; rfl

/-- What is accepted does not fail. -/
theorem attempt {x : Parser α} (hx : Accepts line F x ks P) :
    Accepts line F (Parser.attempt x) ks fun o => ∃ a, o = some a ∧ P a := by
  intro s rest hrest hs
  obtain ⟨a, t, run, ha, ht⟩ := hx s rest hrest hs
  refine ⟨some a, t, ?_, ⟨a, rfl, ha⟩, ht⟩
  rw [Parser.attempt, run]

/-- A token is read, whatever it is. -/
theorem advance {k : Kind} {f : Token → Parser α}
    (hf : ∀ t, t.kind = k → t.span.start.line = line → t.span.stop.line = line →
      Accepts line F (f t) ks Q) :
    Accepts line F (Parser.advance >>= f) (k :: ks) Q := by
  intro s rest hrest hs
  obtain ⟨start, stop⟩ := hs.current_onLine
  exact hf s.current hs.kind_eq start stop s.advanced rest hrest hs.advanced

/-- The test is known to succeed. -/
theorem ite_pos {c : Prop} [Decidable c] {x y : Parser α} (h : c) (hx : Accepts line F x ks Q) :
    Accepts line F (if c then x else y) ks Q := by
  rwa [if_pos h]

/-- The test is known to fail. -/
theorem ite_neg {c : Prop} [Decidable c] {x y : Parser α} (h : ¬c) (hy : Accepts line F y ks Q) :
    Accepts line F (if c then x else y) ks Q := by
  rwa [if_neg h]

/-- The symbol comes next. -/
theorem check_is {x : Symbol} {f : Bool → Parser α}
    (hk : ∀ rest, F rest → nextKind (ks ++ rest) = .symbol x)
    (hf : Accepts line F (f true) ks Q) : Accepts line F (Parser.check x >>= f) ks Q := by
  refine look true ?_ hf
  intro _ rest hrest hs
  exact Kind.is_iff.mpr (hs.kind_eq.trans (hk rest hrest))

theorem check_ne {x : Symbol} {f : Bool → Parser α}
    (hk : ∀ rest, F rest → nextKind (ks ++ rest) ≠ .symbol x)
    (hf : Accepts line F (f false) ks Q) : Accepts line F (Parser.check x >>= f) ks Q := by
  refine look false ?_ hf
  intro _ rest hrest hs
  exact Kind.is_eq_false.mpr (hs.kind_eq ▸ hk rest hrest)

/-- The next kind is known. -/
theorem currentKind {f : Kind → Parser α} {k : Kind}
    (hk : ∀ rest, F rest → nextKind (ks ++ rest) = k) (hf : Accepts line F (f k) ks Q) :
    Accepts line F (Parser.currentKind >>= f) ks Q := by
  refine look k ?_ hf
  intro _ rest hrest hs
  exact hs.kind_eq.trans (hk rest hrest)

/-- Of the next token, only what is the same for all that may follow is known. -/
theorem currentKind_of {f : Kind → Parser α} (P : Kind → Prop)
    (hk : ∀ rest, F rest → P (nextKind (ks ++ rest))) (hf : ∀ k, P k → Accepts line F (f k) ks Q) :
    Accepts line F (Parser.currentKind >>= f) ks Q := by
  intro s rest hrest hs
  exact hf s.current.kind (hs.kind_eq ▸ hk rest hrest) s rest hrest hs

/-- To read a mark that comes next. -/
theorem eat_is {x : Symbol} {y z : Parser α} (hy : Accepts line F y ks Q) :
    Accepts line F (eat x >>= fun b => if b = true then y else z) (.symbol x :: ks) Q := by
  intro s rest hrest hs
  have run : eat x s = (some true, s.advanced) := by
    rw [eat_apply, if_pos (Kind.is_iff.mpr hs.kind_eq)]
  rw [bind_of_some run]
  exact hy _ rest hrest hs.advanced

/-- Not to read a mark where another token comes next. -/
theorem eat_ne {x : Symbol} {y z : Parser α}
    (hk : ∀ rest, F rest → nextKind (ks ++ rest) ≠ .symbol x) (hz : Accepts line F z ks Q) :
    Accepts line F (eat x >>= fun b => if b = true then y else z) ks Q := by
  intro s rest hrest hs
  have run : eat x s = (some false, s) := by
    rw [eat_apply, if_neg]
    exact mt Kind.is_iff.mp (hs.kind_eq ▸ hk rest hrest)
  rw [bind_of_some run]
  exact hz s rest hrest hs

/-- A symbol that is asked for and is there. -/
theorem expect {x : Symbol} {f : Unit → Parser α} (hf : Accepts line F (f ()) ks Q) :
    Accepts line F (Parser.expect x >>= f) (.symbol x :: ks) Q := by
  have read : Accepts line (fun _ => True) (Parser.expect x) [.symbol x] fun _ => True :=
    .eat_is (.pure trivial)
  exact .one read (fun _ _ => trivial) fun _ _ => hf

/-- A semicolon that is written. -/
theorem semicolon {f : Unit → Parser α} (hf : Accepts line F (f ()) ks Q) :
    Accepts line F (Parser.semicolon >>= f) (.symbol .semicolon :: ks) Q := by
  have read : Accepts line (fun _ => True) Parser.semicolon [.symbol .semicolon] fun _ => True :=
    .seen fun _ => .seen fun _ => .seen fun _ => .seen fun _ => .eat_is (.pure trivial)
  exact .one read (fun _ _ => trivial) fun _ _ => hf

/-- A name, with whatever place it has. -/
theorem identifier {name : String} {f : Ident → Parser α}
    (hf : ∀ n : Ident, n.name = name → Accepts line F (f n) ks Q) :
    Accepts line F (Parser.identifier >>= f) (.name name :: ks) Q := by
  have read : Accepts line (fun _ => True) Parser.identifier [.name name] fun n => n.name = name :=
    .currentKind (k := .name name) (fun _ _ => rfl) (.advance fun _ _ _ _ => .pure rfl)
  exact .one read (fun _ _ => trivial) hf

/-- A name that may be declared is not reported. -/
theorem bindingName {name : Ident} (declarable : name.Declarable) {f : Ident → Parser α}
    (hf : ∀ n : Ident, n.withoutSpan = name.withoutSpan → Accepts line F (f n) ks Q) :
    Accepts line F (Parser.bindingName >>= f) (.name name.name :: ks) Q := by
  have read : Accepts line (fun _ => True) Parser.bindingName [.name name.name]
      fun n => n.withoutSpan = name.withoutSpan := by
    refine .check_ne (by simp) (.ite_neg (by simp) (.identifier fun n hn => .ite_neg ?_ (.pure ?_)))
    · simpa [hn, Ident.Declarable] using declarable
    · rw [Ident.withoutSpan, hn]
      rfl
  exact .one read (fun _ _ => trivial) hf

end Accepts

end AmbScript.Parser
