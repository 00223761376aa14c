import AmbScript.Proofs.Scoping.Resolved
import AmbScript.Proofs.Session.Constants

/-!
# Scopes throughout a session

One chart is right for all that ever comes of a context: with every frame that is made it says more,
and what it has said stays true. So it tells of every name in every program, at all times, how many
frames outwards it is found, and what the frame there was made for.

* `Stage.History` — the stages of a session, one after the other.
* `Stage.Charted` — a stage is as the chart says; `Stage.Charted.next` keeps this.
* `Stage.scoping_is_static` — frames keep their names, and names are found where the text tells.

The chart is not computed: a stage that is as some chart says leads to one that is as a larger chart
says, and since charts only grow, the chart of the last stage of a history serves for all earlier
ones.
-/

namespace AmbScript

variable {retire : {k : Kind} → Search k → Bool} {chapter : Nat} {ch ch' : Chart}

open Store Eval

-- ---------------------------------------------------------------------------
-- The first chart
-- ---------------------------------------------------------------------------

/-- Names that are written into a frame are added to its names. -/
theorem Store.exists_scope_writeAll {α : Type} (name : α → String) (value : α → Value)
    {f : FrameId} (xs : List α) {s : Store} {sc : Scope} (h : s.scope? f = some sc) :
    ∃ sc', (xs.foldl (fun s a => s.write f (name a) (.ofValue (value a) true)) s).scope? f =
        some sc' ∧
      sc'.name = sc.name ∧ sc'.parent = sc.parent ∧
      (∀ n, (sc'.binding? n).isSome ↔ (sc.binding? n).isSome ∨ n ∈ xs.map name) ∧
      ∀ n b, sc'.binding? n = some b → sc.binding? n = some b ∨ ∃ a, b = .ofValue (value a) true := by
  -- by induction on the entries: each adds its name, and a later one may bind it anew
  induction xs generalizing s sc with
  | nil => exact ⟨sc, h, rfl, rfl, fun n => by simp, fun n b hb => .inl hb⟩
  | cons x xs ih =>
    have hWritten : (s.write f (name x) (.ofValue (value x) true)).scope? f =
        some (sc.set (name x) (some (.ofValue (value x) true))) := by
      rw [scope?_write, if_pos rfl, h]
      rfl
    obtain ⟨sc', hsc', hName, hParent, hNames, hBound⟩ := ih hWritten
    refine ⟨sc', hsc', hName, hParent, fun n => ?_, fun n b hb => ?_⟩
    · rw [hNames n]
      by_cases hn : n = name x <;> simp [Scope.set, hn]
    · rcases hBound n b hb with hOld | hValue
      · by_cases hn : n = name x
        · refine .inr ⟨x, ?_⟩
          simp only [Scope.set, if_pos hn] at hOld
          exact (Option.some.inj hOld).symm
        · simp only [Scope.set, if_neg hn] at hOld
          exact .inl hOld
      · exact .inr hValue

/-- There is the global frame and no other. -/
def Chart.initial : Chart where
  code _ := none
  layout f := if f = 0 then some [⟨0, [], .globals⟩] else none

/-- A new context is as the first chart says. -/
theorem Chart.fits_new (chapter : Nat) : Chart.initial.Fits (Context.new chapter).store := by
  have hBare : (Store.empty.newFrame "global" none none).scope? 0 =
      some ⟨"global", none, none, fun _ => none⟩ := rfl
  obtain ⟨sc, hsc, hName, hParent, hNames, hBound⟩ :=
    exists_scope_writeAll Primitive.name Value.primitive Primitive.all hBare
  obtain ⟨sc', hsc', hName', hParent', hNames', hBound'⟩ :=
    exists_scope_writeAll Prod.fst (fun x => Value.number x.2) numericConstants hsc
  have hScope : (Context.new chapter).store.scope? 0 = some sc' := hsc'
  -- the global frame is the only one charted, and it holds exactly the globals
  have hOnly {f : FrameId} {layout : Layout} (h : Chart.initial.layout f = some layout) :
      f = 0 ∧ layout = [⟨0, [], .globals⟩] := by
    unfold Chart.initial at h
    dsimp only at h
    split at h
    · rename_i hf
      exact ⟨hf, (Option.some.inj h).symm⟩
    · cases h
  refine ⟨(constants_new chapter).regular, fun f layout h => ?_, fun f layout name b h hb => ?_,
    fun u hu => ?_, fun f statements h => by cases h⟩
  · obtain ⟨rfl, rfl⟩ := hOnly h
    refine .mk hScope (hName'.trans hName) (fun n => ?_) (.inl ⟨rfl, hParent'.trans hParent⟩)
    rw [hNames', hNames]
    simp [Construct.names]
  · obtain ⟨rfl, -⟩ := hOnly h
    rw [binding?_eq, hScope] at hb
    rcases hBound' name b hb with hb | ⟨x, rfl⟩
    · rcases hBound name b hb with hb | ⟨p, rfl⟩
      · cases hb
      · exact Binding.placed_ofValue (.primitive p) true
    · exact Binding.placed_ofValue (.number x.2) true
  · have hTrail := (constants_new chapter).trail
    rw [hTrail] at hu
    exact absurd hu List.not_mem_nil

-- ---------------------------------------------------------------------------
-- Contexts between runs
-- ---------------------------------------------------------------------------

/-- The context is as the chart says, and so is the outermost frame that names are looked up
from. -/
structure Context.Charted (ch : Chart) (c : Context) : Prop where
  fits : ch.Fits c.store
  known : ch.Knows (innermost c.outer [])

/-- A context is prepared for a run. -/
theorem Context.Charted.prepare {c : Context} (h : c.Charted ch) (limits : Limits) :
    (c.prepare limits).Charted ch := ⟨h.fits.forget, h.known⟩

/-- The frame of the library is in the chart when the library is loaded. -/
theorem Context.Charted.loads {p : Program} {c d : Context} (h : c.Charted ch)
    (hInner : c.inner = []) (hLoads : c.Loads p d) : ∃ ch', ch ≤ ch' ∧ d.Charted ch' := by
  obtain ⟨e, hEnter, hd⟩ := hLoads.entered
  obtain ⟨layout, hKnown⟩ := h.known
  have hStands : ({ c with preludePending := false, source := Prelude.source, limits := .unlimited }
      : Context).Stands ch c.outer [] := ⟨h.fits, hInner, rfl⟩
  obtain ⟨ch', g, hle, hEntered, -, hLayout, -⟩ :=
    (p.charts_enter hKnown hStands).1 e hEnter
  refine ⟨ch', hle, ?_⟩
  subst hd
  refine ⟨hEntered.fits, ?_⟩
  have hOuter : e.outer = g :: c.outer := hEntered.outer
  show ch'.Knows (innermost e.outer [])
  rw [hOuter]
  exact hLayout

/-- The library may have to be loaded, and adds its frame. -/
theorem Context.Charted.readied {c d : Context} {limits : Limits} (h : c.Charted ch)
    (hReadied : c.Readied limits d) : ∃ ch', ch ≤ ch' ∧ d.Charted ch' ∧ d.inner = [] := by
  cases hReadied with
  | @first p d hPending hLibrary hLoads =>
    obtain ⟨ch', hle, hd⟩ := (h.prepare limits).loads rfl hLoads
    refine ⟨ch', hle, hd, ?_⟩
    rw [hLoads.rest]
  | again => exact ⟨ch, le_rfl, h.prepare limits, rfl⟩

-- ---------------------------------------------------------------------------
-- Stages
-- ---------------------------------------------------------------------------

namespace Stage

/-- What is under way at the stage, or waits to be resumed, is in its place. -/
def Placed (ch : Chart) : Stage → Prop
  | running r => r.machine.Placed ch r.context.outer
  | ended (.suspended s) => s.rest.Placed ch (innermost s.context.outer [])
  | ended _ => True

/-- The stage is as the chart says. -/
structure Charted (ch : Chart) (st : Stage) : Prop where
  context : st.context.Charted ch
  placed : st.Placed ch
  settled : st.Settled

/-- A run that has failed leaves its context as it is. -/
theorem charted_errored {c : Context} (h : c.Charted ch) : (Stage.errored c).Charted ch :=
  ⟨h, trivial, settled_errored c⟩

/-- A driver step begins with a search in its place. -/
theorem Charted.begin {s : Search .value} {c : Context} (h : c.Charted ch)
    (hs : s.Placed ch (innermost c.outer [])) (scheduler : Scheduler)
    (hSettled : (Stage.begin s c scheduler).Settled) : (Stage.begin s c scheduler).Charted ch where
  context := ⟨h.fits, h.known⟩
  placed := ⟨.pull hs, .nil⟩
  settled := hSettled

/-- A program is begun. -/
theorem exists_charted_begin (p : Program) {c : Context} (h : c.Charted ch) (hInner : c.inner = [])
    (scheduler : Scheduler) : ∃ ch', ch ≤ ch' ∧ (p.begin c scheduler).Charted ch' := by
  have hSettled := settled_begin p c scheduler
  rw [p.begin_eq] at hSettled ⊢
  have hStands : (p.heeded c).Stands ch c.outer [] := by
    rw [p.heeded_eq]
    exact ⟨h.fits, hInner, rfl⟩
  obtain ⟨layout, hKnown⟩ := h.known
  obtain ⟨hEntered, hFault⟩ := p.charts_enter hKnown hStands
  cases hStart : p.start (p.heeded c) with
  | ok s d =>
    obtain ⟨u, e, hEnter, hSearch⟩ := bind_eq_ok.mp hStart
    cases hSearch
    obtain ⟨ch', g, hle, hd, hCode, hLayout, hPlaces⟩ := hEntered d hEnter
    rw [hStart] at hSettled
    have hCurrent : innermost d.outer [] = g := by
      rw [hd.outer]
      rfl
    refine ⟨ch', hle, .begin ⟨hd.fits, hCurrent.symm ▸ hLayout⟩ ?_ scheduler hSettled⟩
    rw [hCurrent]
    have hProgram : Mapping.program.Placed ch' g := ⟨hLayout, _, hCode⟩
    refine .map hProgram (.sequence ⟨hLayout, fun code h => ?_, hPlaces⟩)
    rw [hCode] at h
    exact (Option.some.inj h).symm
  | error t d =>
    rcases bind_eq_error hStart with hEnter | ⟨u, e, -, hSearch⟩
    -- a duplicate declaration: the program's frame may have been made, but was not entered
    · obtain ⟨ch', hle, hFits, hOuter⟩ := hFault t d hEnter
      refine ⟨ch', hle, charted_errored ⟨hFits, ?_⟩⟩
      show ch'.Knows (innermost d.outer [])
      rw [hOuter]
      exact h.known.mono hle
    · cases hSearch

/-- The stage that a machine in its place has got to. -/
theorem charted_stage {scheduler : Scheduler} {m : Machine} {d : Context} (h : d.Charted ch)
    (hPlaced : m.Placed ch d.outer) (hSettled : (Running.stage scheduler (.ok m d)).Settled) :
    (Running.stage scheduler (.ok m d)).Charted ch := by
  refine ⟨?_, ?_, hSettled⟩
  · unfold Running.stage
    dsimp only
    split
    · exact h
    · exact h
    · cases scheduler <;> exact h
  · unfold Running.stage
    dsimp only
    split
    · exact hPlaced
    · trivial
    -- what a stage keeps of the machine is the search to be asked again
    · rename_i v rest hFinished
      cases scheduler with
      | preemptive => trivial
      | nonDet =>
        unfold Machine.finished? at hFinished
        split at hFinished
        · cases hFinished
          have hWalk : (Walk.found (k := .value) v rest).Placed ch (innermost d.outer []) :=
            hPlaced.walk
          cases hWalk with
          | found _ h => exact h
        · cases hFinished
        · cases hFinished

/-- The next part of a run is as a chart says that says no less. -/
theorem Charted.leads {a b : Stage} (h : a.Charted ch) (hLeads : Leads retire a b) :
    ∃ ch', ch ≤ ch' ∧ b.Charted ch' := by
  have hSettled := h.settled.leads hLeads
  cases hLeads with
  | step r =>
    have hStands : r.context.Stands ch r.context.outer r.machine.stack.frames :=
      ⟨h.context.fits, h.settled.inForce, rfl⟩
    have hCharted := Machine.charts_step retire h.placed h.settled.level _ hStands
    unfold Running.stepBy at hSettled ⊢
    unfold ChartsFrom at hCharted
    cases hStep : r.machine.step retire r.context with
    | ok m d =>
      rw [hStep] at hCharted hSettled
      cases hCharted with
      | @ok ch' fs' _ _ hle hd hPlaced =>
        obtain ⟨-, hPlaced⟩ := hPlaced
        have hOuter : d.outer = r.context.outer := hd.outer
        refine ⟨ch', hle, charted_stage ⟨hd.fits, ?_⟩ (hOuter.symm ▸ hPlaced) hSettled⟩
        rw [hOuter]
        exact h.context.known.mono hle
    | error t d =>
      rw [hStep] at hCharted
      cases hCharted with
      | @error ch' _ _ hle hFits hOuter =>
        refine ⟨ch', hle, charted_errored ⟨hFits, ?_⟩⟩
        show ch'.Knows (innermost d.outer [])
        rw [hOuter]
        exact h.context.known.mono hle
  -- a suspension that is resumed has its search in its place from before
  | resume s =>
    refine ⟨ch, le_rfl, ?_⟩
    unfold Suspension.resume at hSettled ⊢
    split
    · exact charted_errored h.context
    · rename_i hGoesOn
      rw [if_neg hGoesOn] at hSettled
      exact .begin h.context h.placed _ hSettled
  | signal r => exact ⟨ch, le_rfl, ⟨h.context.fits, h.context.known⟩, h.placed, hSettled⟩
  | expire r => exact ⟨ch, le_rfl, ⟨h.context.fits, h.context.known⟩, h.placed, hSettled⟩
  | takeOutput r => exact ⟨ch, le_rfl, ⟨h.context.fits, h.context.known⟩, h.placed, hSettled⟩

/-- What is done to a context from outside leaves its bindings and frames alone. -/
theorem Charted.onContext {o : Outcome} (h : (Stage.ended o).Charted ch) {g : Context → Context}
    (hStore : (g o.context).store = o.context.store) (hOuter : (g o.context).outer = o.context.outer)
    (hInner : o.context.inner = [] → (g o.context).inner = []) :
    (Stage.ended (o.onContext g)).Charted ch := by
  have hContext : (g o.context).Charted ch := by
    refine ⟨?_, ?_⟩
    · rw [hStore]
      exact h.context.fits
    · rw [hOuter]
      exact h.context.known
  cases o with
  -- only a suspension has anything else than the context to be charted
  | suspended s =>
    have hPlaced : s.rest.Placed ch (innermost s.context.outer []) := h.placed
    have hOuter : (g s.context).outer = s.context.outer := hOuter
    refine ⟨hContext, ?_, hInner h.settled.inForce, h.settled.level⟩
    show s.rest.Placed ch (innermost (g s.context).outer [])
    rw [hOuter]
    exact hPlaced
  | finished v c => exact ⟨hContext, trivial, trivial, fun _ hx => absurd hx List.not_mem_nil⟩
  | errored errors c => exact ⟨hContext, trivial, trivial, fun _ hx => absurd hx List.not_mem_nil⟩

/-- Whatever comes next is as a chart says that says no less. -/
theorem Charted.next {a b : Stage} (h : a.Charted ch) (hNext : Next retire a b) :
    ∃ ch', ch ≤ ch' ∧ b.Charted ch' := by
  cases hNext with
  | leads hLeads => exact h.leads hLeads
  -- a text that cannot be read leaves the context readied, any other begins a program in it
  | run code o options =>
    obtain ⟨d, hReadied, ⟨errors, hRun⟩ | ⟨p, -, hRun⟩⟩ := runBy_cases retire code o.context options
    · obtain ⟨ch', hle, hd, -⟩ := Context.Charted.readied h.context hReadied
      rw [hRun]
      exact ⟨ch', hle, charted_errored ⟨hd.fits, hd.known⟩⟩
    · obtain ⟨ch', hle, hd, hInner⟩ := Context.Charted.readied h.context hReadied
      rw [hRun]
      obtain ⟨ch'', hle', hBegun⟩ := exists_charted_begin p
        (c := { d with source := ⟨programName, code⟩ }) ⟨hd.fits, hd.known⟩ hInner options.scheduler
      exact ⟨ch'', hle.trans hle', hBegun⟩
  | runProgram p o options =>
    obtain ⟨d, hReadied, hRun⟩ := runProgramBy_eq retire p o.context options
    obtain ⟨ch', hle, hd, hInner⟩ := Context.Charted.readied h.context hReadied
    rw [hRun]
    obtain ⟨ch'', hle', hBegun⟩ := exists_charted_begin p hd hInner options.scheduler
    exact ⟨ch'', hle.trans hle', hBegun⟩
  | interrupt o => exact ⟨ch, le_rfl, h.onContext rfl rfl fun _ => rfl⟩
  | signal o => exact ⟨ch, le_rfl, h.onContext rfl rfl id⟩
  | takeOutput o => exact ⟨ch, le_rfl, h.onContext rfl rfl id⟩

/-- A new context is as the first chart says. -/
theorem charted_fresh (chapter : Nat) : (fresh chapter).Charted .initial := by
  refine ⟨⟨Chart.fits_new chapter, _, rfl⟩, trivial, trivial, ?_⟩
  intro _ hx
  exact absurd hx List.not_mem_nil

-- ---------------------------------------------------------------------------
-- Histories
-- ---------------------------------------------------------------------------

/-- The stages of a context: the last one, and those before it, the latest of them first. -/
inductive History (retire : {k : Kind} → Search k → Bool) (chapter : Nat) :
    Stage → List Stage → Prop
  | fresh : History retire chapter (fresh chapter) []
  | next {a b : Stage} {earlier : List Stage} (h : History @retire chapter a earlier)
      (hNext : Next @retire a b) : History @retire chapter b (a :: earlier)

/-- The last stage of a history is one of a session. -/
theorem History.session {st : Stage} {earlier : List Stage} (h : History retire chapter st earlier) :
    Session retire chapter st := by
  induction h with
  | fresh => exact .refl
  | next _ hNext ih => exact .tail ih hNext

/-- The last stage has come of each of the earlier ones. -/
theorem History.leads_to {st : Stage} {earlier : List Stage}
    (h : History retire chapter st earlier) : ∀ a ∈ st :: earlier,
      Session retire chapter a ∧ Relation.ReflTransGen (Next retire) a st := by
  induction h with
  | fresh => exact List.forall_mem_singleton.mpr ⟨.refl, .refl⟩
  | next h hNext ih =>
    refine List.forall_mem_cons.mpr ⟨⟨(h.next hNext).session, .refl⟩, fun a ha => ?_⟩
    exact ⟨(ih a ha).1, .tail (ih a ha).2 hNext⟩

/-- Frames of each earlier stage are still there, with the same names. -/
theorem History.carries {st : Stage} {earlier : List Stage} (h : History retire chapter st earlier) :
    ∀ a ∈ st :: earlier, a.context.store.Carries st.context.store := by
  intro a ha
  obtain ⟨hSession, hLater⟩ := h.leads_to a ha
  exact carries_of_next hLater hSession.regular

/-- At this stage, what the chart says of programs and of names is right. -/
structure GoesBy (retire : {k : Kind} → Search k → Bool) (ch : Chart) (st : Stage) : Prop where
  /-- A program that begins is known to be that of its frame. -/
  begun : ∀ r statements, st = .running r →
    r.machine = .ofSearch (.map .program (.sequence statements)) →
      ∃ outside, ch.at? r.context.current [] = some (outside, .program statements)
  /-- A name that is read or assigned to is found where the text tells, or nowhere. -/
  resolves : ∀ r name, st = .running r → r.machine.consults? = some name →
    ∃ g path layout, ch.Resolves (r.machine.opening r.context) name g path layout
  /-- This is the name that the step cannot do without, and no other one is ever missed. -/
  sought : ∀ r, st = .running r → Sought r.machine.consults? (r.machine.opening r.context)
    (r.machine.step retire r.context)

/-- A larger chart is right about what it is asked, too. -/
theorem GoesBy.mono (hle : ch ≤ ch') {st : Stage} (h : st.GoesBy retire ch) :
    st.GoesBy retire ch' where
  begun r statements hRunning hMachine := by
    obtain ⟨outside, hAt⟩ := h.begun r statements hRunning hMachine
    exact ⟨outside, Chart.at?_mono hle hAt⟩
  resolves r name hRunning hName := by
    obtain ⟨g, path, layout, hResolves⟩ := h.resolves r name hRunning hName
    exact ⟨g, path, layout, hResolves.mono hle⟩
  sought := h.sought

variable (retire) in
/-- A stage that is as the chart says goes by it. -/
theorem Charted.goesBy {st : Stage} (h : st.Charted ch) : st.GoesBy retire ch where
  begun r statements hRunning hMachine := by
    subst hRunning
    have hInForce : r.context.inner = r.machine.stack.frames := h.settled.inForce
    have hPlaced : r.machine.Placed ch r.context.outer := h.placed
    have hCurrent : r.context.current = innermost r.context.outer [] := by
      rw [Context.current, hInForce, hMachine]
      rfl
    rw [hMachine] at hPlaced
    have hWalk : (Walk.pull (.map .program (.sequence statements))).Placed ch
        (innermost r.context.outer []) := hPlaced.walk
    rw [hCurrent]
    cases hWalk with
    | pull hs =>
      cases hs with
      | map hg hs =>
        cases hs with
        | sequence hOpens =>
          obtain ⟨-, code, hCode⟩ := hg
          -- the statements about to run are the code the chart has for the program's frame
          obtain ⟨outside, hLayout⟩ := h.context.fits.code _ _ hCode
          rw [hOpens.code code hCode] at hCode
          exact ⟨outside, Chart.at?_program hLayout hCode⟩
  resolves r name hRunning hName := by
    subst hRunning
    have hPlaced : r.machine.Placed ch r.context.outer := h.placed
    exact hPlaced.exists_resolves h.settled.level ⟨h.context.fits, h.settled.inForce, rfl⟩ hName
  sought r _ := r.machine.sought_step r.context

/-- One chart is right for the whole history. -/
theorem History.exists_chart {st : Stage} {earlier : List Stage}
    (h : History retire chapter st earlier) :
    ∃ ch, st.Charted ch ∧ ∀ a ∈ st :: earlier, a.GoesBy retire ch := by
  induction h with
  | fresh =>
    have hFresh := charted_fresh chapter
    exact ⟨.initial, hFresh, List.forall_mem_singleton.mpr (hFresh.goesBy retire)⟩
  | next _ hNext ih =>
    obtain ⟨ch, hCharted, hBefore⟩ := ih
    obtain ⟨ch', hle, hNow⟩ := hCharted.next hNext
    exact ⟨ch', hNow, List.forall_mem_cons.mpr
      ⟨hNow.goesBy retire, fun a ha => (hBefore a ha).mono hle⟩⟩

-- ---------------------------------------------------------------------------
-- Static scoping
-- ---------------------------------------------------------------------------

/-- Scopes throughout the stages of a context, the latest of which comes first. -/
structure StaticallyScoped (retire : {k : Kind} → Search k → Bool) (stages : List Stage) :
    Prop where
  /-- Whatever comes later, a frame keeps its names, and the frame around it. -/
  kept : stages.Pairwise fun later earlier => ∀ f sc, earlier.context.store.scope? f = some sc →
    ∃ sc', later.context.store.scope? f = some sc' ∧ sc.SameNames sc'
  /-- One chart says what each frame was made for, and is right about all frames, programs and names
  at all of the stages. -/
  charted : ∃ ch : Chart, ∀ st ∈ stages, st.GoesBy retire ch ∧
    ∀ f layout, ch.layout f = some layout → (st.context.store.scope? f).isSome →
      ch.Shaped st.context.store f layout

/-- The names of a frame never change. Each time that a name in a program is read or assigned to, it
is found as many frames outwards as its place in the text tells, in a frame that was made for the
scope that the text tells; or it is never found. -/
theorem scoping_is_static {st : Stage} {earlier : List Stage}
    (h : History retire chapter st earlier) : StaticallyScoped retire (st :: earlier) where
  kept := by
    induction h with
    | fresh => exact List.pairwise_singleton _ _
    | next h hNext ih =>
      exact List.pairwise_cons.mpr ⟨fun a ha f sc hsc =>
        ((h.next hNext).carries a (List.mem_cons_of_mem _ ha)).names f sc hsc, ih⟩
  charted := by
    obtain ⟨ch, hCharted, hAll⟩ := h.exists_chart
    refine ⟨ch, fun a ha => ⟨hAll a ha, fun f layout hLayout hMade => ?_⟩⟩
    obtain ⟨sc, hsc⟩ := Option.isSome_iff_exists.mp hMade
    obtain ⟨sc', hsc', hSame⟩ := (h.carries a ha).names f sc hsc
    exact (hCharted.context.fits.shaped f layout hLayout).sameNames hsc' hsc hSame.symm

/-- A program that reads the name of a primitive. -/
def readsPair : Program := ⟨.mk [.expr (.ident ⟨"pair", .synthetic⟩)] .synthetic, .synthetic⟩

/-- Run on a new context, it reads the name in its third stage. -/
theorem readsPair_scoped : ∃ (r : Running) (earlier : List Stage),
    History Search.isExhausted 4 (.running r) earlier ∧
      r.machine.consults? = some ⟨"pair", .synthetic⟩ ∧
      StaticallyScoped Search.isExhausted (.running r :: earlier) := by
  obtain ⟨d, -, hRun⟩ := runProgramBy_eq Search.isExhausted readsPair (.new 4) .default
  obtain ⟨e, hBegins⟩ : ∃ e, readsPair.begin d .nonDet =
      .running ⟨.ofSearch (.map .program (.sequence readsPair.body.statements)), e, .nonDet⟩ :=
    ⟨_, rfl⟩
  have hFirst : Next Search.isExhausted (fresh 4)
      (runProgramBy Search.isExhausted readsPair (.new 4) .default) := .runProgram _ _ _
  rw [hRun, show Options.default.scheduler = .nonDet from rfl, hBegins] at hFirst
  have hHistory := (History.fresh.next hFirst).next (.leads (.step _))
  exact ⟨_, _, hHistory, rfl, scoping_is_static hHistory⟩

end Stage

end AmbScript
