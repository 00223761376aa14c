import AmbScript.Machine.Search

/-!
# Listings

All results of a computation with choices, in their order, each with the context that it leaves.
A listing has no state of its own: what is listed after a result does not depend on what is done
with the result. Between the results stand the lines that are displayed on the way to them, and a
fault ends the listing. A listing may also break off without an end, where it was not followed any
further.

* `Listing.bind` — everything that `k` makes of each result, one result after the other.
* `Listing.first` — completions up to the first one that goes on to the next statement.
* `Listing.fold` — how all of these are made: results are replaced one by one.
* `Listing.entry` — what stands in one place of a listing, and the lines before it.

A listing is finite. It speaks of computations with infinitely many results, or none and no end, by
breaking off: such a computation has a listing for every depth that it is followed to, and
`Listing.unknown` stands where the deeper ones go on.
-/

namespace AmbScript

variable {α β γ : Type}

/-- The results of a computation with choices, in their order. -/
inductive Listing (α : Type)
  /-- There are no more results. -/
  | done
  /-- It is not said what comes here. -/
  | unknown
  | fault (t : Fault)
  /-- A line is displayed. -/
  | line (text : String) (rest : Listing α)
  | result (a : α) (c : Context) (rest : Listing α)

namespace Listing

/-- A single result. -/
def one (a : α) (c : Context) : Listing α := .result a c .done

/-- Displays lines first. -/
def say (lines : List String) (L : Listing α) : Listing α := lines.foldr .line L

/-- Replaces every result, given what has become of the listing behind it; at the end stands
`M`. -/
def fold (L : Listing α) (f : α → Context → Listing β → Listing β) (M : Listing β) : Listing β :=
  match L with
  | .done => M
  | .unknown => .unknown
  | .fault t => .fault t
  | .line text L => .line text (L.fold f M)
  | .result a c L => f a c (L.fold f M)

/-- The results of `L`, then those of `M`. -/
def append (L M : Listing α) : Listing α := L.fold .result M

/-- The results that follow from the first result, then those that follow from the second, and so
on. -/
def bind (L : Listing α) (k : α → Context → Listing β) : Listing β :=
  L.fold (fun a c rest => (k a c).append rest) .done

/-- Goes on from the completions that lead to the next statement. -/
def andThen (L : Listing Completion) (k : Context → Listing Completion) : Listing Completion :=
  L.bind fun completion c =>
    match completion with
    | .value _ => k c
    | completion => one completion c

/-- Nothing behind the first completion that leads to the next statement. -/
def first (L : Listing Completion) : Listing Completion :=
  L.fold (fun completion c rest =>
    match completion with
    | .value _ => one completion c
    | completion => .result completion c rest) .done

/-- The action `x` as a computation without choices. -/
def perform (x : Eval α) (c : Context) : Listing α :=
  match x c with
  | .ok a d => say (d.output.toList.drop c.output.size) (one a d)
  | .error t d => say (d.output.toList.drop c.output.size) (.fault t)

/-- The results inside a frame. -/
def inside (frame : FrameId) (L : Context → Listing α) (c : Context) : Listing α :=
  (L (c.enter frame)).bind fun a d => one a d.leave

-- ---------------------------------------------------------------------------
-- Laws
-- ---------------------------------------------------------------------------

/-- At the end stands what was given for it. -/
@[simp] theorem fold_done (f : α → Context → Listing β → Listing β) (M : Listing β) :
    (done : Listing α).fold f M = M := rfl

/-- Where it is not said what comes, nothing can be replaced. -/
@[simp] theorem fold_unknown (f : α → Context → Listing β → Listing β) (M : Listing β) :
    (unknown : Listing α).fold f M = .unknown := rfl

/-- A fault ends the new listing as well. -/
@[simp] theorem fold_fault (f : α → Context → Listing β → Listing β) (M : Listing β) (t : Fault) :
    (fault t : Listing α).fold f M = .fault t := rfl

/-- Lines stay in their places. -/
@[simp] theorem fold_line (f : α → Context → Listing β → Listing β) (M : Listing β)
    (text : String) (L : Listing α) :
    (line text L).fold f M = .line text (L.fold f M) := rfl

/-- A result is replaced, given what has become of the rest. -/
@[simp] theorem fold_result (f : α → Context → Listing β → Listing β) (M : Listing β) (a : α)
    (c : Context) (L : Listing α) : (result a c L).fold f M = f a c (L.fold f M) := rfl

/-- A single result. -/
@[simp] theorem fold_one (f : α → Context → Listing β → Listing β) (M : Listing β) (a : α)
    (c : Context) : (one a c).fold f M = f a c M := rfl

/-- Lines that are displayed first. -/
@[simp] theorem fold_say (f : α → Context → Listing β → Listing β) (M : Listing β)
    (lines : List String) (L : Listing α) : (say lines L).fold f M = say lines (L.fold f M) := by
  induction lines with
  | nil => rfl
  | cons text lines ih => exact congrArg (line text) ih

/-- Two replacements after one another are one, if the second one can be moved into the first. -/
theorem fold_fold {f : α → Context → Listing β → Listing β} {g : β → Context → Listing γ → Listing γ}
    {h : α → Context → Listing γ → Listing γ} {M : Listing β} {N : Listing γ}
    (hf : ∀ a c X, (f a c X).fold g N = h a c (X.fold g N)) (L : Listing α) :
    (L.fold f M).fold g N = L.fold h (M.fold g N) := by
  induction L with
  | done => rfl
  | unknown => rfl
  | fault t => rfl
  | line text L ih => exact congrArg (line text) ih
  | result a c L ih => rw [fold_result, hf, ih, fold_result]

/-- Of two listings in a row the second one takes the place of the end of the first. -/
theorem fold_append (f : α → Context → Listing β → Listing β) (M : Listing β)
    (L L' : Listing α) : (L.append L').fold f M = L.fold f (L'.fold f M) :=
  fold_fold (fun _ _ _ => rfl) L

/-- Nothing comes behind. -/
@[simp] theorem append_done (L : Listing α) : L.append .done = L := by
  induction L with
  | done => rfl
  | unknown => rfl
  | fault t => rfl
  | line text L ih => exact congrArg (line text) ih
  | result a c L ih => exact congrArg (result a c) ih

/-- To replace what was made of results is to replace the results by more. -/
theorem fold_bind (f : β → Context → Listing γ → Listing γ) (N : Listing γ) (L : Listing α)
    (k : α → Context → Listing β) :
    (L.bind k).fold f N = L.fold (fun a c X => (k a c).fold f X) N := by
  refine fold_fold ?_ L
  intro a c X
  exact fold_append f N (k a c) X

/-- What follows the results of `bind` is one replacement of the results it is made from. -/
theorem bind_append (L : Listing α) (k : α → Context → Listing β) (M : Listing β) :
    (L.bind k).append M = L.fold (fun a c X => (k a c).append X) M :=
  fold_bind _ _ L k

/-- What is made of what is made of each result. -/
theorem bind_assoc (L : Listing α) (k : α → Context → Listing β) (k' : β → Context → Listing γ) :
    (L.bind k).bind k' = L.bind fun a c => (k a c).bind k' := by
  have hInner : ∀ a c X, (k a c).fold (fun b c rest => (k' b c).append rest) X =
      ((k a c).bind k').append X := fun a c X => (bind_append _ _ _).symm
  show (L.bind k).fold _ _ = _
  rw [fold_bind]
  simp only [hInner]
  rfl

/-- What is made of a single result. -/
@[simp] theorem one_bind (a : α) (c : Context) (k : α → Context → Listing β) :
    (one a c).bind k = k a c := append_done _

/-- Lines come first. -/
@[simp] theorem say_bind (lines : List String) (L : Listing α) (k : α → Context → Listing β) :
    (say lines L).bind k = say lines (L.bind k) := fold_say _ _ _ _

/-- Of a fault nothing is made. -/
@[simp] theorem fault_bind (t : Fault) (k : α → Context → Listing β) :
    (fault t : Listing α).bind k = .fault t := rfl

@[simp] theorem done_bind (k : α → Context → Listing β) : (done : Listing α).bind k = .done := rfl

/-- Each result is left as it is. -/
theorem bind_one (L : Listing α) : (L.bind fun a c => one a c) = L := append_done L

/-- An action with a result, which displays these lines. -/
theorem perform_of_ok {x : Eval α} {c d : Context} {a : α} {lines : List String}
    (h : x c = .ok a d) (hOutput : d.output.toList = c.output.toList ++ lines) :
    perform x c = say lines (one a d) := by
  unfold perform
  rw [h]
  dsimp only
  rw [hOutput, ← Array.length_toList, List.drop_left]

/-- An action that ends in a fault after it has displayed these lines. -/
theorem perform_of_error {x : Eval α} {c d : Context} {t : Fault} {lines : List String}
    (h : x c = .error t d) (hOutput : d.output.toList = c.output.toList ++ lines) :
    perform x c = say lines (.fault t) := by
  unfold perform
  rw [h]
  dsimp only
  rw [hOutput, ← Array.length_toList, List.drop_left]

-- ---------------------------------------------------------------------------
-- Entries
-- ---------------------------------------------------------------------------

/-- What stands in one place of a listing, and all lines displayed before it. -/
inductive Entry (α : Type)
  /-- The listing does not reach so far. -/
  | absent
  | done (lines : List String)
  | fault (lines : List String) (t : Fault)
  | result (lines : List String) (a : α) (c : Context)

/-- The entry with number `n`, after the lines `said` already. -/
def entryAfter (said : List String) : Listing α → Nat → Entry α
  | .unknown, _ => .absent
  | .done, 0 => .done said
  | .done, _ + 1 => .absent
  | .fault t, 0 => .fault said t
  | .fault _, _ + 1 => .absent
  | .line text L, n => L.entryAfter (said ++ [text]) n
  | .result a c _, 0 => .result said a c
  | .result _ _ L, n + 1 => L.entryAfter said n

/-- The entry with number `n`; the end of a listing and a fault count as entries. -/
def entry (L : Listing α) (n : Nat) : Entry α := L.entryAfter [] n

/-- The lines that come first belong to every entry. -/
theorem entry_say (lines : List String) (L : Listing α) (n : Nat) :
    (say lines L).entry n = L.entryAfter lines n := by
  have hAfter (said : List String) :
      (say lines L).entryAfter said n = L.entryAfter (said ++ lines) n := by
    induction lines generalizing said with
    | nil =>
      rw [List.append_nil]
      rfl
    | cons text lines ih =>
      show (say lines L).entryAfter (said ++ [text]) n = _
      rw [ih, List.append_assoc]
      rfl
  exact hAfter []

end Listing

end AmbScript
