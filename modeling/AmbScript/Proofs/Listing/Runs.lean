import AmbScript.Proofs.Listing.Evaluation
import AmbScript.Proofs.Listing.Rest
import AmbScript.Proofs.Session.History

/-!
# Runs enumerate what is listed

The outcomes of a run, one driver step after the other, are the entries of the listing of its
program: a value suspends the run, the end of the listing finishes it, and a fault ends it with a
diagnostic. The lines displayed by then are those listed before.

* `Outcome.Realizes` — an outcome is an entry.
* `Stage.Enumerates` — the outcomes of a run are the entries of a listing, in their order.
* `Program.begin_enumerates` — so they are for every program, in every closed context.
* `Stage.run_enumerates` — so they are for every text that can be read, in every context at rest.

The machine here drops no search, since this is what delivery speaks of; that it makes no difference
to what can be seen is used at the very end, where the real scheduler is put in its place.
-/

namespace AmbScript

open Eval Machine

variable {retire : {k : Kind} → Search k → Bool}

-- ---------------------------------------------------------------------------
-- Outcomes and entries
-- ---------------------------------------------------------------------------

/-- The outcome of a run that began in `c` is the entry of a listing. A value and the bindings that
it comes with are compared up to the names of frames and cells. -/
inductive Outcome.Realizes (c : Context) : Outcome → Listing.Entry Value → Prop
  | finished {d : Context} {lines : List String}
      (hOutput : d.output.toList = c.output.toList ++ lines) :
      Realizes c (.finished .undefined d) (.done lines)
  | errored {d : Context} {t : Fault} {lines : List String}
      (hOutput : d.output.toList = c.output.toList ++ lines) :
      Realizes c (.errored [t.toDiagnostic c.source] d) (.fault lines t)
  | suspended {s : Suspension} {v : Value} {d : Context} {lines : List String} {w : Renaming}
      (hAgree : Agree w s.context d) (hValue : s.value.Alike w v)
      (hOutput : s.context.output.toList = c.output.toList ++ lines) :
      Realizes c (.suspended s) (.result lines v d)

/-- The outcomes of a run are the entries of a listing, each at its place: every outcome is the
entry if the listing is followed far enough, and every entry that is listed is the outcome. -/
def Stage.Enumerates (retire : {k : Kind} → Search k → Bool) (st : Stage) (c : Context)
    (L : Nat → Listing Value) : Prop :=
  (∀ n o, st.Yields retire n o → ∃ depth, o.Realizes c ((L depth).entry n)) ∧
    ∀ n depth, (L depth).entry n ≠ .absent →
      ∃ o, st.Yields retire n o ∧ o.Realizes c ((L depth).entry n)

-- ---------------------------------------------------------------------------
-- Walks without anything around
-- ---------------------------------------------------------------------------

namespace Stage

/-- A walk that ends after some steps ends its driver step. -/
theorem ends_of_after {j : Nat} {m : Machine} {c : Context} {r : Config} {o : Outcome}
    (hAfter : after j (.ok m c) = r) (hStage : Running.stage .nonDet r = .ended o) :
    (Stage.running ⟨m, c, .nonDet⟩).Ends Search.neverExhausted o := by
  refine ⟨j, ?_⟩
  show Running.stage .nonDet (after j (.ok m c)) = _
  rw [hAfter, hStage]

/-- A walk that has ended its driver step is no longer under way. -/
theorem not_underWay {scheduler : Scheduler} {r : Config} {o : Outcome}
    (h : Running.stage scheduler r = .ended o) : ¬ UnderWay r := by
  rintro ⟨m, c, rfl, hUnfinished⟩
  rw [stage_ok, hUnfinished] at h
  cases h

section

variable {c start : Context} {w : Renaming} {L : Listing Value} {clock : Nat} {said : List String}
  {m : Machine} {e : Context} (hReports : c.Reports start) (hErrors : c.errors = [])
  (hAborted : start.aborted = false)

/-- A line that is listed has been displayed. -/
theorem delivers_line {text : String}
    (h : Delivers (k := .value) start w (.line text L) clock (c.output.toList ++ said) .nil
      (.ok m e)) :
    Delivers (k := .value) start w L clock (c.output.toList ++ (said ++ [text])) .nil (.ok m e) := by
  rw [← List.append_assoc]
  exact h

/-- The end of the listing finishes the run. -/
theorem ends_of_done
    (h : Delivers (k := .value) start w .done clock (c.output.toList ++ said) .nil (.ok m e)) :
    ∃ o, (Stage.running ⟨m, e, .nonDet⟩).Ends Search.neverExhausted o ∧
      o.Realizes c (.done said) := by
  obtain ⟨j, s, d, hAfter, -, hShown⟩ := h
  exact ⟨.finished .undefined d, ends_of_after hAfter rfl, .finished hShown⟩

include hReports hErrors in
/-- A fault ends the run with its diagnostic. -/
theorem ends_of_fault {t : Fault}
    (h : Delivers (k := .value) start w (.fault t) clock (c.output.toList ++ said) .nil (.ok m e)) :
    ∃ o, (Stage.running ⟨m, e, .nonDet⟩).Ends Search.neverExhausted o ∧
      o.Realizes c (.fault said t) := by
  obtain ⟨j, d, hAfter, hFault, hShown⟩ := h
  have hAll := hReports.trans hFault
  have hDiagnostics : (d.abort t).errors = [t.toDiagnostic c.source] := by
    show d.errors ++ [t.toDiagnostic d.source] = _
    rw [hAll.1, hAll.2, hErrors]
    rfl
  refine ⟨.errored (d.abort t).errors (d.abort t), ends_of_after hAfter rfl, ?_⟩
  rw [hDiagnostics]
  exact .errored hShown

include hAborted in
/-- A result suspends the run, and to resume it is to ask for the next one. -/
theorem ends_of_result {a : Value} {d : Context}
    (h : Delivers (k := .value) start w (.result a d L) clock (c.output.toList ++ said) .nil
      (.ok m e)) :
    ∃ s j m' e', (Stage.running ⟨m, e, .nonDet⟩).Ends Search.neverExhausted (.suspended s) ∧
      (Outcome.suspended s).Realizes c (.result said a d) ∧
      s.resume = .running ⟨m', e', .nonDet⟩ ∧ (∀ i, i < j → UnderWay (after i (.ok m e))) ∧
      Delivers (k := .value) start w L (clock - j) (c.output.toList ++ said) .nil (.ok m' e') := by
  obtain ⟨j, v, rest, e', w', hArrives, hLater, hShown, hle, hAgree, hItem, hRest⟩ := h
  have hNotAborted : e'.aborted = false := hLater.aborted_eq.trans hAborted
  refine ⟨⟨v, e', rest, .nonDet⟩, j, pull rest .nil, e'.beginStep, ends_of_after hArrives.1 rfl,
    .suspended hAgree hItem hShown, ?_, hArrives.2, ?_⟩
  · unfold Suspension.resume
    dsimp only
    rw [hNotAborted]
    rfl
  · rw [← hShown]
    exact hRest e'.beginStep .nil (.beginStep e')

include hReports hErrors hAborted

/-- What is listed is found. -/
theorem yields_of_delivers {n : Nat}
    (h : Delivers (k := .value) start w L clock (c.output.toList ++ said) .nil (.ok m e))
    (hEntry : L.entryAfter said n ≠ .absent) :
    ∃ o, (Stage.running ⟨m, e, .nonDet⟩).Yields Search.neverExhausted n o ∧
      o.Realizes c (L.entryAfter said n) := by
  -- by induction on the listing: each result is one answer of the driver, after which the rest of
  -- the listing is what resuming delivers
  induction L generalizing clock said m e n with
  | unknown => exact absurd rfl hEntry
  | done =>
    cases n with
    | succ n => exact absurd rfl hEntry
    | zero =>
      obtain ⟨o, hEnds, hRealizes⟩ := ends_of_done h
      exact ⟨o, .first hEnds, hRealizes⟩
  | fault t =>
    cases n with
    | succ n => exact absurd rfl hEntry
    | zero =>
      obtain ⟨o, hEnds, hRealizes⟩ := ends_of_fault hReports hErrors h
      exact ⟨o, .first hEnds, hRealizes⟩
  | line text L ih => exact ih (delivers_line h) hEntry
  | result a d L ih =>
    obtain ⟨s, j, m', e', hEnds, hRealizes, hResume, -, hRest⟩ := ends_of_result hAborted h
    cases n with
    | zero => exact ⟨_, .first hEnds, hRealizes⟩
    | succ n =>
      obtain ⟨o, hYields, hLater⟩ := ih hRest hEntry
      exact ⟨o, .later hEnds (hResume ▸ hYields), hLater⟩

omit hReports hErrors hAborted in
/-- A driver step that ends after so many steps comes to something that is listed. -/
theorem listed_of_stage {j : Nat} {o : Outcome}
    (hStage : Running.stage .nonDet (after j (.ok m e)) = .ended o)
    (h : Delivers (k := .value) start w L clock (c.output.toList ++ said) .nil (.ok m e))
    (hClock : j < clock) : L.entryAfter said 0 ≠ .absent := by
  induction L generalizing said with
  | unknown => exact absurd (h j hClock) (not_underWay hStage)
  | done => exact nofun
  | fault t => exact nofun
  | line text L ih => exact ih (delivers_line h)
  | result a d L _ => exact nofun

/-- What is found is listed, where the listing is followed for as many steps as it took. -/
theorem listed_of_yields {st : Stage} {n : Nat} {o : Outcome}
    (hYields : st.Yields Search.neverExhausted n o) :
    ∃ bound, ∀ {L : Listing Value} {clock : Nat} {said : List String} {m : Machine} {e : Context},
      st = .running ⟨m, e, .nonDet⟩ → bound < clock →
      Delivers (k := .value) start w L clock (c.output.toList ++ said) .nil (.ok m e) →
      L.entryAfter said n ≠ .absent := by
  -- by induction on the outcomes asked for; the bound is the number of machine steps up to the
  -- outcome, so a listing computed that deep has its entry
  induction hYields with
  | @first st o hEnds =>
    cases st with
    | ended o' =>
      refine ⟨0, ?_⟩
      rintro _ _ _ _ _ ⟨⟩
    | running x =>
      obtain ⟨j, hStage⟩ := hEnds
      refine ⟨j, ?_⟩
      rintro _ _ _ _ _ ⟨⟩ hClock h
      exact listed_of_stage hStage h hClock
  | @later st s n o hFirst hRest ih =>
    obtain ⟨bound, hBound⟩ := ih
    cases st with
    | ended o' =>
      refine ⟨0, ?_⟩
      rintro _ _ _ _ _ ⟨⟩
    | running x =>
      obtain ⟨j, hStage⟩ := hFirst
      refine ⟨j + bound, ?_⟩
      intro L clock said m e hEq hClock h
      cases hEq
      -- the listing must have a result here, as every other ending contradicts the outcome reached
      induction L generalizing said with
      | unknown => exact absurd (h j (by omega)) (not_underWay hStage)
      | done =>
        obtain ⟨o', hEnds, hRealizes⟩ := ends_of_done h
        cases hEnds.unique ⟨j, hStage⟩
        cases hRealizes
      | fault t =>
        obtain ⟨o', hEnds, hRealizes⟩ := ends_of_fault hReports hErrors h
        cases hEnds.unique ⟨j, hStage⟩
        cases hRealizes
      | line text L ih => exact ih (delivers_line h)
      | result a d L _ =>
        obtain ⟨s', i, m', e', hEnds, -, hResume, hUnder, hNext⟩ := ends_of_result hAborted h
        cases hEnds.unique ⟨j, hStage⟩
        have hi : i ≤ j := by
          by_contra hLate
          exact not_underWay hStage (hUnder j (by omega))
        exact hBound hResume (by omega) hNext

end

end Stage

-- ---------------------------------------------------------------------------
-- Programs
-- ---------------------------------------------------------------------------

/-- Nothing stands in the way of a run, and no diagnostics are left from an earlier one. -/
structure Context.Ready (c : Context) : Prop where
  limits : c.limits = .unlimited
  interrupted : c.interrupted = false
  errors : c.errors = []
  aborted : c.aborted = false

namespace Context.Ready

variable {c d : Context}

/-- What matters for a run is the same. -/
theorem of_same (h : c.Ready) (hLimits : d.limits = c.limits)
    (hInterrupted : d.interrupted = c.interrupted) (hErrors : d.errors = c.errors)
    (hAborted : d.aborted = c.aborted) : d.Ready where
  limits := hLimits.trans h.limits
  interrupted := hInterrupted.trans h.interrupted
  errors := hErrors.trans h.errors
  aborted := hAborted.trans h.aborted

/-- Nothing comes in the way later. -/
theorem proceeds (h : c.Ready) (hLater : c.Proceeds d) : d.Ready := by
  rw [hLater.rest]
  exact h.of_same rfl rfl rfl rfl

end Context.Ready

namespace Program

theorem ready_enter {p : Program} {c d : Context} (hReady : c.Ready)
    (h : p.enter c = .ok () d) : d.Ready := by
  obtain ⟨frame, c₁, hFrame, hRest⟩ := bind_eq_ok.mp h
  obtain ⟨_, c₂, hHoist, hOuter⟩ := bind_eq_ok.mp hRest
  cases hOuter
  have hFirst := (opening_childFrame _).forward _ _ _ hFrame
  have hSecond := (filling_hoist _).forward _ _ _ hHoist
  exact (hReady.proceeds (hFirst.trans hSecond).toProceeds).of_same rfl rfl rfl rfl

end Program

/-- A context that is made ready for a run without limits, with the library in it. -/
theorem Context.Readied.ready {c d : Context} (h : c.Readied .unlimited d) : d.Ready :=
  ⟨h.limits_eq, h.interrupted, h.errors, h.aborted⟩

/-- Frames that correspond are entered for longer than the run. -/
theorem Agree.enterOuter {w : Renaming} {c d : Context} (h : Agree w c d) {f g : FrameId}
    (hPair : w.frames.Pairs f g) : Agree w (c.enterOuter f) (d.enterOuter g) :=
  ⟨h.scopes, h.cells, .nil, .cons hPair h.outer, List.cons_ne_nil _ _, h.logged⟩

namespace Program

/-- A program is entered alike in contexts that agree. -/
theorem matches_enter (p : Program) (w : Renaming) : Matches w NoResult p.enter p.enter := by
  refine matches_bind (matches_childFrame _) fun w₁ _ f g hPair => ?_
  refine matches_bind (matches_hoist hPair p.body) fun w₂ hle₂ _ _ _ => ?_
  exact matches_modify
    (fun w₃ hle₃ _ _ hAgree =>
      hAgree.enterOuter (Renaming.frames_of_le hle₃ (Renaming.frames_of_le hle₂ hPair)))
    (fun _ => ⟨rfl, rfl⟩) (fun _ => rfl) fun _ => rfl

/-- A program whose frame was entered delivers its values. -/
theorem lists (p : Program) (depth : Nat) (w : Renaming) :
    Lists w depth (pure (.map .program (.sequence p.body.statements))) fun d =>
      (statementsList (Activity.list depth) p.body.statements
        (Listing.one (.value .undefined) d)).bind fun completion d =>
          Listing.one completion.ofProgram d := by
  have hBody := (Activity.delivers (depth + 1)).bodies p.body.statements w
  refine lists_result (f := .program) (g := Completion.ofProgram) (fun _ => rfl) ?_
    (hBody.mono le_rfl (Nat.le_succ depth))
  intro w item a hItem
  cases (hItem : Completion.Alike w item a) with
  | value hv => exact hv
  | returns hv => exact hv
  | _ => exact Value.Alike.undefined

end Program

namespace Stage

/-- A run that begins with a fault. -/
theorem enumerates_fault {c d : Context} {t : Fault} {lines : List String}
    (hErrors : d.errors = [t.toDiagnostic c.source])
    (hOutput : d.output.toList = c.output.toList ++ lines) :
    (Stage.errored d).Enumerates retire c fun _ => Listing.say lines (.fault t) := by
  have hRealizes : (Outcome.errored d.errors d).Realizes c (.fault lines t) := by
    rw [hErrors]
    exact .errored hOutput
  constructor
  · intro n o hYields
    refine ⟨0, ?_⟩
    dsimp only
    rw [Listing.entry_say]
    -- an ended stage has one outcome and nothing after it
    cases hYields with
    | first hEnds =>
      cases hEnds
      exact hRealizes
    | later hFirst _ => cases hFirst
  · intro n depth hListed
    dsimp only at hListed ⊢
    rw [Listing.entry_say] at hListed ⊢
    cases n with
    | zero => exact ⟨_, .first rfl, hRealizes⟩
    | succ n => exact absurd rfl hListed

/-- A run whose search delivers what is listed, however deep it is followed. -/
theorem enumerates_running {c start : Context} {w : Renaming} {m : Machine}
    {L : Nat → Listing Value} {lines : List String} (hReports : c.Reports start)
    (hErrors : c.errors = []) (hAborted : start.aborted = false)
    (h : ∀ depth, Delivers (k := .value) start w (L depth) depth (c.output.toList ++ lines) .nil
      (.ok m start)) :
    (Stage.running ⟨m, start, .nonDet⟩).Enumerates Search.neverExhausted c fun depth =>
      Listing.say lines (L depth) := by
  have hListed (n depth : Nat) (hEntry : (L depth).entryAfter lines n ≠ .absent) :=
    yields_of_delivers hReports hErrors hAborted (h depth) hEntry
  constructor
  · intro n o hYields
    obtain ⟨bound, hBound⟩ := listed_of_yields hReports hErrors hAborted hYields
    obtain ⟨o', hYields', hRealizes⟩ :=
      hListed n (bound + 1) (hBound rfl (Nat.lt_succ_self bound) (h (bound + 1)))
    refine ⟨bound + 1, ?_⟩
    rw [hYields.unique hYields', Listing.entry_say]
    exact hRealizes
  · intro n depth hAbsent
    rw [Listing.entry_say] at hAbsent ⊢
    exact hListed n depth hAbsent

end Stage

namespace Program

/-- The outcomes of a program are the entries of its listing. -/
theorem begin_enumerates (p : Program) {c : Context} (hClosed : c.IsClosed) (hReady : c.Ready) :
    (p.begin c .nonDet).Enumerates Search.neverExhausted c fun depth => p.list depth c := by
  obtain ⟨r, hClosed⟩ := hClosed
  -- whether diagnostics are listed with elaborations is of no interest
  unfold Program.begin
  generalize hVerbose : (if p.directive? = some verboseDirective then { c with verbose := true }
    else c) = c'
  have hSame : Agree r.same c' c ∧ c'.Ready ∧ c.Reports c' ∧ c'.output = c.output := by
    rw [← hVerbose]
    split
    · exact ⟨Agree.left hClosed (fun _ _ => rfl) (Nat.le_refl _) rfl rfl rfl,
        hReady.of_same rfl rfl rfl rfl, ⟨rfl, rfl⟩, rfl⟩
    · exact ⟨hClosed, hReady, ⟨rfl, rfl⟩, rfl⟩
  obtain ⟨hAgree, hReady', hReports, hDisplayed⟩ := hSame
  have hMeets := p.matches_enter r.same r.same le_rfl c' c hAgree
  have hStart : p.start c' = EStateM.bind p.enter
      (fun _ => pure (.map .program (.sequence p.body.statements))) c' := rfl
  dsimp only
  rw [hStart]
  unfold EStateM.bind Program.list
  cases hEq : p.enter c' with
  | error t d =>
    rw [hEq] at hMeets
    cases hEq' : p.enter c with
    | ok _ d' =>
      rw [hEq'] at hMeets
      cases hMeets
    | error t' d' =>
      rw [hEq'] at hMeets
      cases hMeets with
      | error lines _ _ hReports' hOutput hOutput' =>
        simp only [Listing.perform_of_error hEq' hOutput', Listing.say_bind, Listing.fault_bind]
        rw [hDisplayed] at hOutput
        refine Stage.enumerates_fault ?_ hOutput
        have hAll := hReports.trans hReports'
        show d.errors ++ [t.toDiagnostic d.source] = _
        rw [hAll.1, hAll.2, hReady.errors, List.nil_append]
  | ok _ d =>
    rw [hEq] at hMeets
    cases hEq' : p.enter c with
    | error t' d' =>
      rw [hEq'] at hMeets
      cases hMeets
    | ok _ d' =>
      rw [hEq'] at hMeets
      cases hMeets with
      | @ok w₁ _ _ _ _ lines hle hAgree' _ hReports' hOutput hOutput' =>
        simp only [Listing.perform_of_ok hEq' hOutput', Listing.say_bind, Listing.one_bind]
        have hEntered := ready_enter hReady' hEq
        have hBegun : Agree w₁ d.beginStep d' :=
          hAgree'.left (fun _ _ => rfl) (Nat.le_refl _) rfl rfl rfl
        refine Stage.enumerates_running (w := w₁) (hReports.trans hReports') hReady.errors
          hEntered.aborted fun depth => ?_
        rw [← hDisplayed, ← hOutput]
        exact p.lists depth w₁ w₁ le_rfl d.beginStep d' hBegun
          ⟨hEntered.limits, hEntered.interrupted⟩ .nil

end Program

-- ---------------------------------------------------------------------------
-- Runs
-- ---------------------------------------------------------------------------

/-- What is left of the search has no part in what an outcome realizes. -/
theorem Outcome.Sheds.realizes_iff {o o' : Outcome} (h : o.Sheds o') {c : Context}
    {entry : Listing.Entry Value} : o.Realizes c entry ↔ o'.Realizes c entry := by
  cases h with
  | finished v d => exact Iff.rfl
  | errored ds d => exact Iff.rfl
  | suspended v d scheduler hRest =>
    constructor
    · rintro (_ | _ | ⟨hAgree, hValue, hOutput⟩)
      exact .suspended hAgree hValue hOutput
    · rintro (_ | _ | ⟨hAgree, hValue, hOutput⟩)
      exact .suspended hAgree hValue hOutput

namespace Stage

/-- It makes no difference to what a run enumerates whether searches are dropped. -/
theorem Sheds.enumerates {st st' : Stage} (h : st.Sheds st') {c : Context}
    {L : Nat → Listing Value} (hLater : st'.Enumerates Search.neverExhausted c L) :
    st.Enumerates Search.isExhausted c L := by
  obtain ⟨hFound, hListed⟩ := hLater
  constructor
  · intro n o hYields
    obtain ⟨o', hYields', ho⟩ := h.yields hYields
    obtain ⟨depth, hRealizes⟩ := hFound n o' hYields'
    exact ⟨depth, ho.realizes_iff.mpr hRealizes⟩
  · intro n depth hEntry
    obtain ⟨o', hYields', hRealizes⟩ := hListed n depth hEntry
    obtain ⟨o, hYields, ho⟩ := h.yields_inv hYields'
    exact ⟨o, hYields, ho.realizes_iff.mpr hRealizes⟩

/-- A run without limits on a context at rest has, one driver step after the other, the outcomes
that are listed for its program in the context that loading the library leaves. The library can
always be loaded, so the program is always begun. -/
theorem run_enumerates (code : String) {c : Context} (options : Options) {p : Program}
    (hRest : c.AtRest) (hScheduler : options.scheduler = .nonDet)
    (hLimits : options.limits = .unlimited)
    (hParsed : (parse ⟨programName, code⟩).program = some p) :
    ∃ d, (c.prepare options.limits).loadPrelude = .ok d ∧
      (run code c options).Enumerates Search.isExhausted { d with source := ⟨programName, code⟩ }
        fun depth => p.list depth { d with source := ⟨programName, code⟩ } := by
  obtain ⟨d, hLoaded, hReadied⟩ := c.exists_readied Search.isExhausted options.limits
  rw [hLimits] at hReadied
  -- the context the program starts in agrees with itself: the library has been loaded into it
  have hClosed : d.IsClosed := by
    have hLeft : (Context.leftBy
        ((c.prepare options.limits).loadLibrary Search.isExhausted Prelude.parsed)).IsClosed :=
      (hRest.isClosed.prepare _).loadLibrary
    unfold Context.loadPreludeBy at hLoaded
    rwa [hLoaded] at hLeft
  have hRun : run code c options =
      p.begin { d with source := ⟨programName, code⟩ } options.scheduler := by
    unfold run runBy
    rw [hLoaded]
    dsimp only
    rw [hParsed]
  refine ⟨d, hLoaded, ?_⟩
  rw [hRun, hScheduler]
  exact (sheds_begin p _ .nonDet).enumerates
    (p.begin_enumerates (hClosed.of_same rfl rfl rfl rfl) (hReadied.ready.of_same rfl rfl rfl rfl))

/-- Of two numbers, those below two. -/
def smallNumbers : String := "const x = amb(1, 2); require(x < 2); x;"

/-- The outcomes of this program on a new context are those listed for it. -/
theorem smallNumbers_enumerates : ∃ p, (parse ⟨programName, smallNumbers⟩).program = some p ∧
    ∃ d, ((Context.new 4).prepare .unlimited).loadPrelude = .ok d ∧
      (run smallNumbers (.new 4) .default).Enumerates Search.isExhausted
        { d with source := ⟨programName, smallNumbers⟩ }
        fun depth => p.list depth { d with source := ⟨programName, smallNumbers⟩ } := by
  have hParsed : (parse ⟨programName, smallNumbers⟩).program.isSome = true := by decide +kernel
  obtain ⟨p, hParsed⟩ := Option.isSome_iff_exists.mp hParsed
  exact ⟨p, hParsed, run_enumerates smallNumbers .default (.new 4) rfl rfl hParsed⟩

end Stage

end AmbScript
