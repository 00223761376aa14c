import AmbScript.Proofs.Machine.Surroundings
import AmbScript.Proofs.Scoping.Step

/-!
# Names that are still to be declared

A declaration gives a value to a name that its scope has had as a placeholder since it was entered.
Which names are to get their values before the program has a result is told by the searches under
way. As long as these go forwards, all of those names are placeholders. A search that has found
something has given its names their values; it finds something else only after a choice inside of it
has gone back to a moment when they were placeholders.

* `Store.Awaits` — these names are placeholders. `Store.Pledges` — going back makes them so again.
* `Search.promises`, `Stack.promises` — the names that are to get their values.
* `Search.GoesBack` — a search finds nothing more before a choice has gone back.
* `Machine.Promising` — the names of a machine are as they should be.

`GoesBack` has a parameter for what is known of a moment, as it is about moments of the past: the
store that there is now cannot tell what was so then. Lemmas by the name of `mono` replace one such
property by a weaker one, of which it is enough to know that for the choices that are open.
-/

namespace AmbScript

open Store

variable {outer : List FrameId} {f : FrameId} {ps : List Promise}

-- ---------------------------------------------------------------------------
-- Placeholders in a store
-- ---------------------------------------------------------------------------

/-- A name that is to get its value in a frame. -/
abbrev Promise := FrameId × String

namespace Store

variable {s t : Store} {start : Checkpoint} {name : String} {b b' : Binding}

/-- The names are placeholders, and no two of them are the same. -/
structure Awaits (s : Store) (ps : List Promise) : Prop where
  distinct : ps.Nodup
  placeholder : ∀ p ∈ ps, s.binding? p.1 p.2 = some .placeholder

namespace Awaits

/-- No name is awaited. -/
theorem nil (s : Store) : s.Awaits [] := by
  refine ⟨List.nodup_nil, ?_⟩
  intro _ h
  exact absurd h List.not_mem_nil

theorem sublist {qs : List Promise} (h : s.Awaits ps) (hFewer : qs.Sublist ps) : s.Awaits qs := by
  refine ⟨h.distinct.sublist hFewer, ?_⟩
  intro p hp
  exact h.placeholder p (hFewer.subset hp)

/-- The names that come last. -/
theorem of_append {qs : List Promise} (h : s.Awaits (qs ++ ps)) : s.Awaits ps :=
  h.sublist (List.sublist_append_right qs ps)

/-- The names are bound as before. -/
theorem congr (h : s.Awaits ps)
    (hSame : ∀ p ∈ ps, t.binding? p.1 p.2 = s.binding? p.1 p.2) : t.Awaits ps := by
  refine ⟨h.distinct, ?_⟩
  intro p hp
  exact (hSame p hp).trans (h.placeholder p hp)

/-- Such a name is in a frame that is there. -/
theorem lt_nextFrame (h : s.Awaits ps) {p : Promise} (hp : p ∈ ps) : p.1 < s.nextFrame :=
  lt_nextFrame_of_binding? (h.placeholder p hp)

/-- The first name gets its value, and the others are not touched. -/
theorem write_head (h : s.Awaits ((f, name) :: ps)) : (s.write f name b).Awaits ps := by
  obtain ⟨hOther, -⟩ := List.nodup_cons.mp h.distinct
  refine (h.sublist (List.sublist_cons_self _ _)).congr fun p hp => binding?_write_of_ne ?_ _
  rintro ⟨rfl, rfl⟩
  exact hOther hp

/-- A name that has a value gets another one. -/
theorem write_assigned (h : s.Awaits ps) (hOld : s.binding? f name = some b)
    (hAssigned : b.slot ≠ .placeholder) : (s.write f name b').Awaits ps := by
  refine h.congr fun p hp => binding?_write_of_ne ?_ _
  rintro ⟨rfl, rfl⟩
  rw [h.placeholder p hp] at hOld
  cases hOld
  exact hAssigned rfl

/-- Names of a frame of their own are added. -/
theorem add {names : List String} (h : s.Awaits ps) (hOther : ∀ p ∈ ps, p.1 ≠ f)
    (hDistinct : names.Nodup) (hNames : ∀ n ∈ names, s.binding? f n = some .placeholder) :
    s.Awaits (names.map (f, ·) ++ ps) := by
  have hPairs : (names.map (f, ·)).Nodup :=
    List.Pairwise.map _ (fun _ _ hNe hSame => hNe (congrArg Prod.snd hSame)) hDistinct
  refine ⟨List.nodup_append.mpr ⟨hPairs, h.distinct, ?_⟩,
    List.forall_mem_append.mpr ⟨List.forall_mem_map.mpr hNames, h.placeholder⟩⟩
  intro q hq p hp hSame
  obtain ⟨n, -, rfl⟩ := List.mem_map.mp hq
  exact hOther p hp (congrArg Prod.fst hSame).symm

end Awaits

/-- To go back to the moment makes the names placeholders again. -/
def Pledges (s : Store) (start : Checkpoint) (ps : List Promise) : Prop :=
  ∃ s₀ : Store, s₀.mark.Descends s ∧ s₀.trail.size = start.trailLength ∧ s₀.Awaits ps

/-- The present moment is noted. -/
theorem Awaits.pledges_mark (h : s.Awaits ps) (hNow : s.trail.size = start.trailLength) :
    s.mark.Pledges start ps := ⟨s, .refl _, hNow, h⟩

namespace Pledges

/-- Going back from a later store comes to the same bindings. -/
theorem descends (h : s.Pledges start ps) (hLater : s.Descends t) : t.Pledges start ps := by
  obtain ⟨s₀, hSince, hStart, hAwaits⟩ := h
  exact ⟨s₀, hSince.trans hLater, hStart, hAwaits⟩

/-- To go back to a later moment leaves the earlier one. -/
theorem unwindTo (h : s.Pledges start ps) {n : Nat} (hLater : start.trailLength ≤ n) :
    (s.unwindTo n).Pledges start ps := by
  obtain ⟨s₀, hSince, hStart, hAwaits⟩ := h
  exact ⟨s₀, hSince.unwindTo (hStart ▸ hLater), hStart, hAwaits⟩

/-- What is pledged comes true. -/
theorem awaits_unwindTo (h : s.Pledges start ps) :
    (s.unwindTo start.trailLength).Awaits ps := by
  obtain ⟨s₀, hSince, hStart, hAwaits⟩ := h
  refine hAwaits.congr fun p hp => ?_
  rw [← hStart, binding?_eq, binding?_eq, hSince.scope?_unwindTo_mark (hAwaits.lt_nextFrame hp)]

end Pledges

end Store

-- ---------------------------------------------------------------------------
-- What is to be declared
-- ---------------------------------------------------------------------------

/-- The name that gets its value when the statement is evaluated in the frame of its scope. -/
def Stmt.promised : Stmt → List String
  | .declare _ name _ _ => [name.name]
  | _ => []

/-- The names that get their values when the statements are evaluated in the frame `f`. -/
def promisedBy (f : FrameId) (statements : List Stmt) : List Promise :=
  (statements.flatMap Stmt.promised).map (f, ·)

/-- What a statement promises in the frame it is in. -/
def Stmt.promises (f : FrameId) (s : Stmt) : List Promise := s.promised.map (f, ·)

/-- The first statement, and then the others. -/
theorem promisedBy_cons (f : FrameId) (s : Stmt) (rest : List Stmt) :
    promisedBy f (s :: rest) = s.promises f ++ promisedBy f rest := by
  rw [promisedBy, List.flatMap_cons, List.map_append]
  rfl

/-- The variables of the loop, which are in its frame. -/
def Loop.promises : Loop → List Promise
  | .whileLoop .. => []
  | .forLoop init _ _ _ frame => ((Construct.loopVariables init).map Ident.name).map (frame, ·)

/-- Only a declaration gives a name its value. -/
def Mapping.promises (f : FrameId) {i o : Kind} : Mapping i o → List Promise
  | .declare _ name => [(f, name.name)]
  | _ => []

/-- The names that get their values, but for those in frames that are yet to be made, when a search
that was just started is asked in the frame `f`. -/
def Search.promises (f : FrameId) {k : Kind} : Search k → List Promise
  | .map g inner => inner.promises f ++ g.promises f
  | .bind _ outer => outer.promises f
  | .within frame inner => inner.promises frame
  | .sequence statements => promisedBy f statements
  | .loop header => header.promises
  | _ => []

/-- What the search of a part of a loop promises. -/
def Phase.promises (f : FrameId) (p : Phase) : List Promise := p.started.2.promises f

/-- What is promised by what waits for results. -/
def Pending.promises (f : FrameId) {i o : Kind} : Pending i o → List Promise
  | .map g => g.promises f
  | .statement _ rest _ _ => promisedBy f rest
  | _ => []

/-- The names that get their values once the part that is asked has found something. -/
def Stack.promises (outer : List FrameId) {k : Kind} : Stack k → List Promise
  | .nil => []
  | .push p below => p.promises (innermost outer below.frames) ++ below.promises outer

-- ---------------------------------------------------------------------------
-- Searches that have to go back
-- ---------------------------------------------------------------------------

/-- The search finds nothing more, asked in the frame, before a choice has gone back. The moments
that choices go back to are as `W` says: there, the names are placeholders that get their values
once the search has found something. -/
inductive Search.GoesBack (W : Checkpoint → List Promise → Prop) :
    FrameId → List Promise → {k : Kind} → Search k → Prop
  | failed (f : FrameId) (ps : List Promise) {k : Kind} :
      GoesBack W f ps (.once (none : Option k.Item))
  | map {f : FrameId} {ps : List Promise} {i o : Kind} {g : Mapping i o} {s : Search i}
      (h : GoesBack W f (g.promises f ++ ps) s) : GoesBack W f ps (.map g s)
  | bind {f : FrameId} {ps : List Promise} {i o : Kind} (g : Expansion i o) {s : Search i}
      (h : GoesBack W f ps s) : GoesBack W f ps (.bind g s)
  | binding {f : FrameId} {ps : List Promise} {i o : Kind} (g : Expansion i o) {s : Search i}
      {t : Search o} (hOuter : GoesBack W f ps s) (hInner : GoesBack W f ps t) :
      GoesBack W f ps (.binding g s t)
  | within (f : FrameId) {frame : FrameId} {ps : List Promise} {k : Kind} {s : Search k}
      (h : GoesBack W frame ps s) : GoesBack W f ps (.within frame s)
  | exhausted (f : FrameId) (ps : List Promise) (start : Checkpoint) :
      GoesBack W f ps (.choosing start none [])
  | choosing {f : FrameId} {ps : List Promise} {start : Checkpoint} (hStart : W start ps)
      {s : Search .value} (h : GoesBack W f ps s) (alternatives : List Expr) :
      GoesBack W f ps (.choosing start (some s) alternatives)
  | producing {f : FrameId} {ps : List Promise} {operands : List Operand}
      (h : ∀ rest s, .mk rest s ∈ operands → GoesBack W f ps s) (values : List Value) :
      GoesBack W f ps (.producing operands values)
  | sequenced {f : FrameId} {ps : List Promise} {reached : List Reached}
      (h : ∀ index rest s, .mk index rest s ∈ reached → GoesBack W f (promisedBy f rest ++ ps) s)
      (commit : Option Nat) : GoesBack W f ps (.sequenced reached commit)
  | looping {f : FrameId} {ps : List Promise} {header : Loop} {phases : List Phase}
      (h : ∀ p ∈ phases, GoesBack W (header.inside f) ps p.started.2) :
      GoesBack W f ps (.looping header phases)

/-- All of the operands have to go back. -/
def OperandsGoBack (W : Checkpoint → List Promise → Prop) (f : FrameId) (ps : List Promise)
    (operands : List Operand) : Prop :=
  ∀ rest s, .mk rest s ∈ operands → s.GoesBack W f ps

/-- So have the statements, after each of which the statements behind it are evaluated. -/
def ReachedGoBack (W : Checkpoint → List Promise → Prop) (f : FrameId) (ps : List Promise)
    (reached : List Reached) : Prop :=
  ∀ index rest s, .mk index rest s ∈ reached → s.GoesBack W f (promisedBy f rest ++ ps)

/-- The parts of a loop that were reached all go back. -/
def PhasesGoBack (W : Checkpoint → List Promise → Prop) (f : FrameId) (ps : List Promise)
    (phases : List Phase) : Prop :=
  ∀ p ∈ phases, p.started.2.GoesBack W f ps

/-- What waits finds nothing more without its part, which it has asked in the frame `f`, before a
choice has gone back. -/
def Pending.GoesBack (W : Checkpoint → List Promise → Prop) (f : FrameId) (ps : List Promise)
    {i o : Kind} : Pending i o → Prop
  | .inner _ s => s.GoesBack W f ps
  | .choosing start _ => W start ps
  | .operand _ below _ => OperandsGoBack W f ps below
  | .statement _ _ below _ => ReachedGoBack W f ps below
  | .init header below => PhasesGoBack W (header.inside f) ps below
  | .test header below => PhasesGoBack W (header.inside f) ps below
  | .body header below => PhasesGoBack W (header.inside f) ps below
  | .update header below => PhasesGoBack W (header.inside f) ps below
  | _ => True

/-- All searches that wait go back. -/
def Stack.GoesBack (W : Checkpoint → List Promise → Prop) (outer : List FrameId) {k : Kind} :
    Stack k → Prop
  | .nil => True
  | .push p below =>
    p.GoesBack W (innermost outer below.frames) (below.promises outer) ∧ below.GoesBack W outer

-- ---------------------------------------------------------------------------
-- Machines
-- ---------------------------------------------------------------------------

/-- A search that was just started goes forwards, and its names are placeholders; another one has to
go back. What was found is on its way to the names `ps`. -/
inductive Walk.Promising (W : Checkpoint → List Promise → Prop) (s : Store) (f : FrameId)
    (ps : List Promise) {k : Kind} : Walk k → Prop
  | fresh {t : Search k} (hFresh : t.Fresh) (h : s.Awaits (t.promises f ++ ps)) :
      Promising W s f ps (.pull t)
  | back {t : Search k} (h : t.GoesBack W f ps) : Promising W s f ps (.pull t)
  | found (item : k.Item) {rest : Search k} (h : s.Awaits ps) (hRest : rest.GoesBack W f ps) :
      Promising W s f ps (.found item rest)
  | drained (rest : Search k) : Promising W s f ps (.drained rest)

/-- The names of the machine are as they should be in the store. -/
structure Machine.Promising (W : Checkpoint → List Promise → Prop) (outer : List FrameId)
    (m : Machine) (s : Store) : Prop where
  walk : m.walk.Promising W s (innermost outer m.stack.frames) (m.stack.promises outer)
  stack : m.stack.GoesBack W outer

section

variable {W : Checkpoint → List Promise → Prop} {k : Kind} {item : k.Item} {rest : Search k}
  {stack : Stack k} {s : Store} (h : (Machine.found item rest stack).Promising W outer s)
include h

/-- What was found is on its way, -/
theorem Machine.Promising.awaits : s.Awaits (stack.promises outer) := by
  have hWalk : Walk.Promising W s (innermost outer stack.frames) (stack.promises outer)
    (.found item rest) := h.walk
  cases hWalk with
  | found _ hAwaits _ => exact hAwaits

/-- and what it was found by has to go back. -/
theorem Machine.Promising.goesBack :
    rest.GoesBack W (innermost outer stack.frames) (stack.promises outer) := by
  have hWalk : Walk.Promising W s (innermost outer stack.frames) (stack.promises outer)
    (.found item rest) := h.walk
  cases hWalk with
  | found _ _ hRest => exact hRest

end

-- ---------------------------------------------------------------------------
-- Other moments
-- ---------------------------------------------------------------------------

/-- The choices of one operand are among those of all. -/
theorem subset_operandChoices {rest : List Expr} {s : Search .value} {operands : List Operand}
    (h : .mk rest s ∈ operands) : s.choices ⊆ operandChoices operands := by
  induction operands with
  | nil => exact absurd h List.not_mem_nil
  | cons operand below ih =>
    obtain ⟨rest', s'⟩ := operand
    rw [operandChoices]
    rcases List.mem_cons.mp h with hSame | hBelow
    · cases hSame
      exact List.subset_append_right _ _
    · exact List.Subset.trans (ih hBelow) (List.subset_append_left _ _)

/-- The choices of one statement are among those of all. -/
theorem subset_reachedChoices {index : Nat} {rest : List Stmt} {s : Search .completion}
    {reached : List Reached} (h : .mk index rest s ∈ reached) :
    s.choices ⊆ reachedChoices reached := by
  induction reached with
  | nil => exact absurd h List.not_mem_nil
  | cons last below ih =>
    obtain ⟨index', rest', s'⟩ := last
    rw [reachedChoices]
    rcases List.mem_cons.mp h with hSame | hBelow
    · cases hSame
      exact List.subset_append_right _ _
    · exact List.Subset.trans (ih hBelow) (List.subset_append_left _ _)

/-- The choices of a part of a loop are those of its search. -/
theorem choices_started (p : Phase) : p.started.2.choices = p.choices := by
  cases p <;> (rw [Phase.choices]; rfl)

/-- They are among those of all parts. -/
theorem subset_phaseChoices {p : Phase} {phases : List Phase} (h : p ∈ phases) :
    p.started.2.choices ⊆ phaseChoices phases := by
  rw [choices_started]
  induction phases with
  | nil => exact absurd h List.not_mem_nil
  | cons last below ih =>
    rw [phaseChoices]
    rcases List.mem_cons.mp h with rfl | hBelow
    · exact List.subset_append_right _ _
    · exact List.Subset.trans (ih hBelow) (List.subset_append_left _ _)

section

variable {W W' : Checkpoint → List Promise → Prop}

/-- What is said of the moments of these choices still holds. -/
def Upholds (W W' : Checkpoint → List Promise → Prop) (choices : List OpenChoice) : Prop :=
  ∀ o ∈ choices, ∀ ps, W o.start ps → W' o.start ps

/-- Fewer choices have to be known. -/
theorem Upholds.subset {few many : List OpenChoice} (h : Upholds W W' many) (hFew : few ⊆ many) :
    Upholds W W' few := fun o ho => h o (hFew ho)

/-- It is enough that what is known of the open choices implies the other property. -/
theorem Search.GoesBack.mono {k : Kind} {s : Search k} (h : s.GoesBack W f ps)
    (hW : Upholds W W' s.choices) : s.GoesBack W' f ps := by
  -- every checkpoint that is gone back to is one of the choices, which the larger set upholds
  induction h with
  | failed f ps => exact .failed f ps
  | map _ ih =>
    rw [Search.choices] at hW
    exact .map (ih hW)
  | bind g _ ih =>
    rw [Search.choices] at hW
    exact .bind g (ih hW)
  | binding g _ _ ihOuter ihInner =>
    rw [Search.choices] at hW
    exact .binding g (ihOuter (hW.subset (List.subset_append_left _ _)))
      (ihInner (hW.subset (List.subset_append_right _ _)))
  | within f _ ih =>
    rw [Search.choices] at hW
    exact .within f (ih hW)
  | exhausted f ps start => exact .exhausted f ps start
  | choosing hStart _ alternatives ih =>
    rw [Search.choices] at hW
    obtain ⟨hFirst, hRest⟩ := List.forall_mem_cons.mp hW
    exact .choosing (hFirst _ hStart) (ih hRest) alternatives
  | producing _ values ih =>
    rw [Search.choices] at hW
    exact .producing (fun rest s hs => ih rest s hs (hW.subset (subset_operandChoices hs))) values
  | sequenced _ commit ih =>
    rw [Search.choices] at hW
    exact .sequenced (fun index rest s hs => ih index rest s hs
      (hW.subset (subset_reachedChoices hs))) commit
  | looping _ ih =>
    rw [Search.choices] at hW
    exact .looping fun p hp => ih p hp (hW.subset (subset_phaseChoices hp))

theorem PhasesGoBack.mono {phases : List Phase} (h : PhasesGoBack W f ps phases)
    (hW : Upholds W W' (phaseChoices phases)) : PhasesGoBack W' f ps phases := by
  intro p hp
  exact (h p hp).mono (hW.subset (subset_phaseChoices hp))

theorem Pending.GoesBack.mono {i o : Kind} {p : Pending i o} (h : p.GoesBack W f ps)
    (hW : Upholds W W' p.choices) : p.GoesBack W' f ps := by
  cases p with
  | inner g s => exact Search.GoesBack.mono h hW
  | choosing start alternatives => exact hW ⟨start, alternatives⟩ (List.mem_singleton_self _) _ h
  | operand rest below values =>
    exact fun rest s hs => (h rest s hs).mono (hW.subset (subset_operandChoices hs))
  | statement index rest below commit =>
    exact fun index rest s hs => (h index rest s hs).mono (hW.subset (subset_reachedChoices hs))
  | init header below => exact PhasesGoBack.mono h hW
  | test header below => exact PhasesGoBack.mono h hW
  | body header below => exact PhasesGoBack.mono h hW
  | update header below => exact PhasesGoBack.mono h hW
  | _ => trivial

theorem Stack.GoesBack.mono {k : Kind} {stack : Stack k} (h : stack.GoesBack W outer)
    (hW : Upholds W W' stack.choices) : stack.GoesBack W' outer := by
  induction stack with
  | nil => trivial
  | push p below ih =>
    exact ⟨h.1.mono (hW.subset (List.subset_append_right _ _)),
      ih h.2 (hW.subset (List.subset_append_left _ _))⟩

theorem Machine.Promising.mono {m : Machine} {s : Store} (h : m.Promising W outer s)
    (hW : Upholds W W' m.choices) : m.Promising W' outer s := by
  obtain ⟨k, walk, stack⟩ := m
  have hWalk : walk.Promising W s (innermost outer stack.frames) (stack.promises outer) := h.walk
  have hChoices : Upholds W W' walk.choices := hW.subset (List.subset_append_right _ _)
  refine ⟨?_, h.stack.mono (hW.subset (List.subset_append_left _ _))⟩
  cases hWalk with
  | fresh hFresh hAwaits => exact .fresh hFresh hAwaits
  | back hBack => exact .back (hBack.mono hChoices)
  | found item hAwaits hRest => exact .found item hAwaits (hRest.mono hChoices)
  | drained rest => exact .drained rest

end

end AmbScript
