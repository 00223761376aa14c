import AmbScript.Proofs.Machine.Values
import AmbScript.Proofs.Session.History

/-!
# Identity throughout a session

Strict equality of pairs and arrays is equality of their cells. All values that there are at a stage
of a session live in one memory, so two of them that have the same cell are the same value, and are
structurally equal unless a NaN is in them.

* `Stage.Has` — the values that there are at a stage.
* `Stage.LivesIn` — they all live in the memory; `Stage.LivesIn.next` keeps this.
* `Stage.Session.exists_memory` — so there is a memory for every stage of a session.
* `Value.equality_laws` — the laws of both equalities.

A memory says which value a cell belongs to. None is kept by the program: the values themselves
carry their cells, and it has to be shown that they agree on them. The memory is extended whenever a
cell is taken, and never changed, so one memory serves for all stages that have been.
-/

namespace AmbScript

variable {memory memory' : Value.Memory} {retire : {k : Kind} → Search k → Bool} {chapter : Nat}

open Value Eval Store

-- ---------------------------------------------------------------------------
-- Contexts
-- ---------------------------------------------------------------------------

/-- Several names are bound, one after the other. -/
theorem Store.AllBindings.writeAll {P : Binding → Prop} {α : Type} (name : α → String)
    {binding : α → Binding} (hBinding : ∀ x, P (binding x)) (f : FrameId) (xs : List α) {s : Store}
    (h : s.AllBindings P) :
    (xs.foldl (fun s x => s.write f (name x) (binding x)) s).AllBindings P := by
  induction xs generalizing s with
  | nil => exact h
  | cons x xs ih => exact ih (h.write f (name x) (hBinding x))

namespace Context

/-- In a new context no cell is in use. -/
theorem livesIn_new (chapter : Nat) : (new chapter).LivesIn fun _ => none where
  bindings := by
    have hEmpty : Store.empty.AllBindings (Binding.LivesIn fun _ => none) :=
      ⟨fun _ _ _ hb => absurd hb (Option.some_ne_none _).symm,
        fun _ hu => absurd hu List.not_mem_nil⟩
    refine .writeAll _ (fun _ => Binding.livesIn_ofValue (livesIn_plain rfl rfl) true) 0 _ ?_
    refine .writeAll _ (fun _ => Binding.livesIn_ofValue (livesIn_plain rfl rfl) true) 0 _ ?_
    exact hEmpty.newFrame _ _ _
  free _ _ := rfl

/-- To make a context ready adds no value. -/
theorem LivesIn.prepare {c : Context} (h : c.LivesIn memory) (limits : Limits) :
    (c.prepare limits).LivesIn memory := ⟨h.bindings.forget, h.free⟩

end Context

/-- The functions of a program get cells of their own. -/
theorem Program.yields_enter (p : Program) : Yields memory AnyYield p.enter := by
  refine yields_bind (yields_childFrame _) fun _ _ frame _ => ?_
  refine yields_bind (yields_hoist frame p.body) fun _ _ _ _ => ?_
  refine yields_modify fun _ hc => ?_
  exact hc.of_same rfl rfl

theorem Program.yields_start (p : Program) : Yields memory LiveSearch p.start := by
  refine yields_bind p.yields_enter fun _ _ _ _ => ?_
  exact yields_bare (by simp [Mapping.values])

/-- The functions of the library are made when it is loaded. -/
theorem Context.LivesIn.readied {c d : Context} {limits : Limits} (h : c.LivesIn memory)
    (hReadied : c.Readied limits d) : ∃ memory', memory.Within memory' ∧ d.LivesIn memory' := by
  cases hReadied with
  | @first p d hPending hLibrary hLoads =>
    obtain ⟨e, hEnter, rfl⟩ := hLoads.entered
    have hLoading : ({ c.prepare limits with
        preludePending := false, source := Prelude.source, limits := .unlimited } :
          Context).LivesIn memory := (h.prepare limits).of_same rfl rfl
    have hEntered := p.yields_enter _ hLoading
    rw [hEnter] at hEntered
    cases hEntered with
    | ok hle he => exact ⟨_, hle, he.of_same rfl rfl⟩
  | again => exact ⟨memory, .refl memory, h.prepare limits⟩

-- ---------------------------------------------------------------------------
-- Stages
-- ---------------------------------------------------------------------------

namespace Stage

/-- What was found and waits to be used, at work or for the next driver step, and the result. -/
def values : Stage → List Value
  | running r => r.machine.values
  | ended (.finished v _) => [v]
  | ended (.suspended s) => s.value :: s.rest.values
  | ended (.errored ..) => []

/-- There is such a value at the stage: it is held or bound, or it is a part of another one. -/
inductive Has (st : Stage) : Value → Prop
  | held {v : Value} (h : v ∈ st.values) : Has st v
  | bound {v : Value} (f : FrameId) (name : String) (b : Binding)
      (h : st.context.store.binding? f name = some b) (hv : b.value? = some v) : Has st v
  | part {v w : Value} (h : Has st v) (hPart : v.Reaches w) : Has st w

/-- All that there is at the stage lives in the memory. -/
structure LivesIn (memory : Memory) (st : Stage) : Prop where
  context : st.context.LivesIn memory
  values : Lively memory st.values

/-- Whatever value there is lives in the memory. -/
theorem LivesIn.has {st : Stage} (h : st.LivesIn memory) {v : Value} (hv : st.Has v) :
    v.LivesIn memory := by
  induction hv with
  | held hv => exact h.values _ hv
  | bound f name b hb hv => exact h.context.bindings.bound f name b hb _ hv
  | part _ hPart ih => exact ih.part hPart

/-- A fault adds no value. -/
theorem livesIn_errored {c : Context} (h : c.LivesIn memory) : (Stage.errored c).LivesIn memory :=
  ⟨h, lively_nil⟩

/-- A search that lives in the memory is begun. -/
theorem livesIn_begin {s : Search .value} (hs : LiveSearch memory s) {c : Context}
    (h : c.LivesIn memory) (scheduler : Scheduler) : (Stage.begin s c scheduler).LivesIn memory :=
  ⟨h.of_same rfl rfl, Machine.lively_pull hs lively_nil⟩

/-- A program is begun. -/
theorem exists_livesIn_begin (p : Program) {c : Context} (h : c.LivesIn memory)
    (scheduler : Scheduler) :
    ∃ memory', memory.Within memory' ∧ (p.begin c scheduler).LivesIn memory' := by
  rw [p.begin_eq]
  have hHeeded : (p.heeded c).LivesIn memory :=
    h.of_same (p.store_heeded c) (by rw [p.heeded_eq])
  have hStart := p.yields_start _ hHeeded
  cases hEq : p.start (p.heeded c) with
  | ok s d =>
    rw [hEq] at hStart
    cases hStart with
    | ok hle hd hs => exact ⟨_, hle, livesIn_begin hs hd scheduler⟩
  | error t d =>
    rw [hEq] at hStart
    cases hStart with
    | error hle hd => exact ⟨_, hle, livesIn_errored (hd.of_same rfl rfl)⟩

/-- The stage that a machine has got to. -/
theorem livesIn_stage (scheduler : Scheduler) {m : Machine} (hm : LiveMachine memory m)
    {c : Context} (h : c.LivesIn memory) :
    (Running.stage scheduler (.ok m c)).LivesIn memory := by
  unfold Running.stage
  dsimp only
  split
  · exact ⟨h, hm⟩
  · exact ⟨h, lively_cons.mpr ⟨livesIn_plain rfl rfl, lively_nil⟩⟩
  · next v rest hFinished =>
    obtain ⟨hv, hRest⟩ := Machine.lively_of_finished hm hFinished
    cases scheduler with
    | nonDet => exact ⟨h, lively_cons.mpr ⟨hv, hRest⟩⟩
    | preemptive => exact ⟨h, lively_cons.mpr ⟨hv, lively_nil⟩⟩

namespace LivesIn

variable {a b : Stage}

/-- What comes next in a run lives in a memory that has only grown. -/
theorem leads (h : a.LivesIn memory) (hLeads : Leads retire a b) :
    ∃ memory', memory.Within memory' ∧ b.LivesIn memory' := by
  cases hLeads with
  | step r =>
    -- a step may make cells, so the memory grows; nothing else does
    have hStep : Yielded memory LiveMachine (r.machine.step retire r.context) :=
      Machine.yields_step h.values r.context h.context
    unfold Running.stepBy
    cases hEq : r.machine.step retire r.context with
    | ok m d =>
      rw [hEq] at hStep
      cases hStep with
      | ok hle hd hm => exact ⟨_, hle, livesIn_stage r.scheduler hm hd⟩
    | error t d =>
      rw [hEq] at hStep
      cases hStep with
      | error hle hd => exact ⟨_, hle, livesIn_errored (hd.of_same rfl rfl)⟩
  | resume s =>
    refine ⟨memory, .refl memory, ?_⟩
    unfold Suspension.resume
    split
    · exact livesIn_errored h.context
    · exact livesIn_begin (lively_cons.mp h.values).2 h.context s.scheduler
  | signal r => exact ⟨memory, .refl memory, h.context.of_same rfl rfl, h.values⟩
  | expire r => exact ⟨memory, .refl memory, h.context.of_same rfl rfl, h.values⟩
  | takeOutput r => exact ⟨memory, .refl memory, h.context.of_same rfl rfl, h.values⟩

/-- What is done to a context from outside changes no binding. -/
theorem onContext {o : Outcome} (h : (Stage.ended o).LivesIn memory) {g : Context → Context}
    (hStore : (g o.context).store = o.context.store)
    (hCells : (g o.context).nextCell = o.context.nextCell) :
    (Stage.ended (o.onContext g)).LivesIn memory := by
  have hContext : (g o.context).LivesIn memory := h.context.of_same hStore hCells
  cases o <;> exact ⟨hContext, h.values⟩

/-- Whatever comes next lives in a memory that has only grown. -/
theorem next (h : a.LivesIn memory) (hNext : Next retire a b) :
    ∃ memory', memory.Within memory' ∧ b.LivesIn memory' := by
  cases hNext with
  | leads hLeads => exact h.leads hLeads
  | run code o options =>
    -- the library may be loaded first, then the program begins in a memory that has its cells
    obtain ⟨d, hReadied, hRun⟩ := runBy_cases retire code o.context options
    obtain ⟨memory', hle, hd⟩ := Context.LivesIn.readied h.context hReadied
    rcases hRun with ⟨errors, hRun⟩ | ⟨p, -, hRun⟩
    · rw [hRun]
      exact ⟨memory', hle, livesIn_errored (hd.of_same rfl rfl)⟩
    · rw [hRun]
      obtain ⟨memory'', hle', hBegun⟩ := exists_livesIn_begin p
        (hd.of_same (d := { d with source := ⟨programName, code⟩ }) rfl rfl) options.scheduler
      exact ⟨memory'', hle.trans hle', hBegun⟩
  | runProgram p o options =>
    obtain ⟨d, hReadied, hRun⟩ := runProgramBy_eq retire p o.context options
    obtain ⟨memory', hle, hd⟩ := Context.LivesIn.readied h.context hReadied
    rw [hRun]
    obtain ⟨memory'', hle', hBegun⟩ := exists_livesIn_begin p hd options.scheduler
    exact ⟨memory'', hle.trans hle', hBegun⟩
  | interrupt o => exact ⟨memory, .refl memory, h.onContext rfl rfl⟩
  | signal o => exact ⟨memory, .refl memory, h.onContext rfl rfl⟩
  | takeOutput o => exact ⟨memory, .refl memory, h.onContext rfl rfl⟩

end LivesIn

/-- At every stage of a session all values live in one memory. -/
theorem Session.exists_memory {st : Stage} (h : Session retire chapter st) :
    ∃ memory, st.LivesIn memory := by
  -- In the beginning no cell is in use, and whatever comes next only takes more of them.
  induction h with
  | refl =>
    exact ⟨_, Context.livesIn_new chapter, lively_cons.mpr ⟨livesIn_plain rfl rfl, lively_nil⟩⟩
  | tail _ hNext ih =>
    obtain ⟨memory, hLives⟩ := ih
    obtain ⟨memory', -, hLater⟩ := hLives.next hNext
    exact ⟨memory', hLater⟩

end Stage

namespace Value

-- ---------------------------------------------------------------------------
-- The laws
-- ---------------------------------------------------------------------------

/-- A NaN is not reached. -/
abbrev NaNFree := { v : Value // ¬ v.ReachesNaN }

/-- Among values without NaN structural equality is an equivalence. -/
theorem equivalence_structuralEquals :
    Equivalence fun v w : NaNFree => structuralEquals v.val w.val = true where
  refl v := (structuralEquals_self_iff v.val).mpr v.property
  symm := structuralEquals_symm
  trans := structuralEquals_trans

/-- Of values that there are at one time, those that are strictly equal are structurally equal. -/
theorem structuralEquals_of_session {st : Stage} (h : Stage.Session retire chapter st) {v w : Value}
    (hv : st.Has v) (hw : st.Has w) (hNaN : ¬ v.ReachesNaN) (hEqual : strictEquals v w = true) :
    structuralEquals v w = true := by
  obtain ⟨memory, hLives⟩ := h.exists_memory
  exact structuralEquals_of_strictEquals (hLives.has hv) (hLives.has hw) hNaN hEqual

/-- Structural equality is what the loop over the tails computes, and what the plain rules say. It
is symmetric and transitive, and reflexive exactly where no NaN is reached; so there it is an
equivalence, and follows from strict equality of values in one memory, as all values are that there
are at a stage of a session. Numbers are equal if none is a NaN and they have the same bits, or if
both are zeros. -/
theorem equality_laws :
    (∀ equal : Value → Value → Bool,
      (∀ v w, ∃ n, rounds equal n v w = some (equal v w)) ↔ equal = structuralEquals) ∧
    (∀ equal : Value → Value → Bool, Structural equal ↔ equal = structuralEquals) ∧
    (∀ v w, structuralEquals v w = structuralEquals w v) ∧
    (∀ u v w, structuralEquals u v = true → structuralEquals v w = true →
      structuralEquals u w = true) ∧
    (∀ v, structuralEquals v v = true ↔ ¬ v.ReachesNaN) ∧
    (Equivalence fun v w : NaNFree => structuralEquals v.val w.val = true) ∧
    (∀ (memory : Memory) (v w : Value), v.LivesIn memory → w.LivesIn memory →
      ¬ v.ReachesNaN → strictEquals v w = true → structuralEquals v w = true) ∧
    (∀ (retire : {k : Kind} → Search k → Bool) (chapter : Nat) (st : Stage),
      Stage.Session retire chapter st → ∀ v w, st.Has v → st.Has w → ¬ v.ReachesNaN →
        strictEquals v w = true → structuralEquals v w = true) ∧
    ∀ x y : Float,
      (strictEquals (number x) (number y) = true ↔
        x.isNaN = false ∧ y.isNaN = false ∧
          (x.toBits = y.toBits ∨ Binary64.IsZero x ∧ Binary64.IsZero y)) ∧
      (x.isNaN = true ↔ Binary64.exponentBits x = 2047 ∧ Binary64.fractionBits x ≠ 0) := by
  refine ⟨?_, ?_, structuralEquals_comm, ?_, structuralEquals_self_iff,
    equivalence_structuralEquals, ?_, ?_, ?_⟩
  · intro _
    exact rounds_iff
  · intro _
    exact structural_iff
  · intro _ _ _
    exact structuralEquals_trans
  · intro _ _ _
    exact structuralEquals_of_strictEquals
  · intro _ _ _ hSession _ _
    exact structuralEquals_of_session hSession
  · intro _ _
    exact ⟨Binary64.beq_iff, Binary64.isNaN_iff⟩

/-- An array that holds the same pair twice is equal to itself; one with a NaN is not, though
strictly it is. -/
theorem equality_shared :
    let shared := pair 0 (string "a") null
    let twice := array 1 [shared, shared]
    let odd := array 2 [number (Float.ofBits 0x7ff8000000000000)]
    structuralEquals twice twice = true ∧
      strictEquals odd odd = true ∧ ¬ structuralEquals odd odd = true := by
  intro shared twice odd
  obtain ⟨-, -, -, -, hSelf, -, hStrict, -⟩ := equality_laws
  have hPair (part : Value) (h : (pair 0 (string "a") null).Reaches part) :
      part = shared ∨ part = string "a" ∨ part = null := by
    cases h with
    | self => exact .inl rfl
    | head h => cases h; exact .inr (.inl rfl)
    | tail h => cases h; exact .inr (.inr rfl)
  -- the parts, and with them the memory, are few enough to list
  have hTwice (part : Value) (h : (array 1 [shared, shared]).Reaches part) :
      part = twice ∨ part = shared ∨ part = string "a" ∨ part = null := by
    cases h with
    | self => exact .inl rfl
    | item hItem h =>
      obtain rfl : _ = shared := by simpa using hItem
      exact .inr (hPair part h)
  have hLives : twice.LivesIn fun cell => if cell = 0 then some shared else some twice := by
    intro part cell hReaches hCell
    rcases hTwice part hReaches with rfl | rfl | rfl | rfl <;> cases hCell <;> rfl
  refine ⟨hStrict _ twice twice hLives hLives ?_ rfl, rfl, ?_⟩
  · rintro ⟨x, hReaches, -⟩
    rcases hTwice _ hReaches with h | h | h | h <;> exact absurd h Value.noConfusion
  · rw [hSelf odd]
    exact fun hFree => hFree ⟨_, .item (List.mem_singleton_self _) (.self _), by decide⟩

end Value

end AmbScript
