import AmbScript.Proofs.Parser.Spans
import AmbScript.Proofs.Session.Constants

/-!
# The text that a fault is reported in

Places in a text are told by lines and columns alone, and a context knows one text only, the one
that was run last. So a fault is reported in that text, wherever the code has come from that ends in
it. The report is right if the code is part of this text. It is not for the functions of the
library, nor for those of a text that was run before, unless the texts have the same line there.

* `Stage.Ran` — what can come of a new context on which texts are run, one after the other.
* `Stage.Fails` — the fault that ends a driver step.
* `Stage.Ran.reporting` — throughout a run, its text is the one that faults are taken to be in.
* `Stage.faults_are_reported` — how a fault is reported, and when the report points into a text.

A fault carries a span and no text. Which text it is quoted from is decided when it is reported, so
all that has to be followed through a run is which text the context has then, and that no report is
there already.
-/

namespace AmbScript

variable {retire : {k : Kind} → Search k → Bool} {chapter : Nat}

open Eval

-- ---------------------------------------------------------------------------
-- Diagnostics that point into a text
-- ---------------------------------------------------------------------------

/-- The diagnostic names the text, and quotes the line of it on which its region starts. -/
structure Diagnostic.PointsInto (d : Diagnostic) (s : Source) : Prop where
  file : d.file = s.name
  line : s.line? d.span.start.line = some d.sourceLine

/-- Reported in one text, a fault points into another one just if both have the same name and the
same line there. -/
theorem Fault.pointsInto_iff {t : Fault} {current s : Source}
    (h : (s.line? t.span.start.line).isSome) :
    (t.toDiagnostic current).PointsInto s ↔
      s.name = current.name ∧ s.quote t.span.start.line = current.quote t.span.start.line := by
  have hLine := Source.line?_eq_quote h
  constructor
  · rintro ⟨hFile, hQuoted⟩
    have hQuoted : s.line? t.span.start.line = some (current.quote t.span.start.line) := hQuoted
    rw [hLine] at hQuoted
    exact ⟨hFile.symm, Option.some.inj hQuoted⟩
  · rintro ⟨hName, hQuote⟩
    exact ⟨hName.symm, hLine.trans (congrArg some hQuote)⟩

-- ---------------------------------------------------------------------------
-- Contexts in the run of a text
-- ---------------------------------------------------------------------------

/-- The context is one of the run of a text, and has nothing to report so far. -/
structure Context.Reporting (code : String) (c : Context) : Prop where
  source : c.source = programText code
  errors : c.errors = []

namespace Context

variable {code : String} {c d : Context}

/-- Evaluation does not change the text, and reports nothing itself. -/
theorem Reporting.sameSettings (h : c.Reporting code) (hSame : c.SameSettings d) :
    d.Reporting code := ⟨hSame.source.trans h.source, hSame.errors_eq_nil h.errors⟩

/-- The diagnostic of a fault is the only one. -/
theorem Reporting.abort (h : c.Reporting code) (t : Fault) :
    Stage.errored (c.abort t) =
      .ended (.errored [t.toDiagnostic (programText code)] (c.abort t)) := by
  rw [Stage.errored, errors_abort h.errors, h.source]

end Context

theorem Program.reporting_heeded (p : Program) {code : String} {c : Context}
    (h : c.Reporting code) : (p.heeded c).Reporting code := by
  rw [p.heeded_eq]
  exact ⟨h.source, h.errors⟩

namespace Stage

/-- Also at its beginning the run reports in its text. -/
theorem reporting_start (p : Program) {code : String} {c : Context} (h : c.Reporting code) :
    (p.start.after c).Reporting code := by
  have hReporting := h.sameSettings (sameSettings_start p c)
  exact ⟨hReporting.source, hReporting.errors⟩

-- ---------------------------------------------------------------------------
-- Sessions in which texts are run
-- ---------------------------------------------------------------------------

/-- The stage comes of a new context on which these texts were run, the last one first. -/
inductive Ran (retire : {k : Kind} → Search k → Bool) (chapter : Nat) : List String → Stage → Prop
  | fresh : Ran retire chapter [] (fresh chapter)
  | run {texts : List String} {o : Outcome} (h : Ran @retire chapter texts (.ended o))
      (code : String) (options : Options) :
      Ran @retire chapter (code :: texts) (runBy @retire code o.context options)
  | leads {texts : List String} {a b : Stage} (h : Ran @retire chapter texts a)
      (hLeads : Leads @retire a b) : Ran @retire chapter texts b
  | interrupt {texts : List String} {o : Outcome} (h : Ran @retire chapter texts (.ended o)) :
      Ran @retire chapter texts (.ended (o.onContext Context.interrupt))
  | signal {texts : List String} {o : Outcome} (h : Ran @retire chapter texts (.ended o)) :
      Ran @retire chapter texts (.ended (o.onContext Context.signal))
  | takeOutput {texts : List String} {o : Outcome} (h : Ran @retire chapter texts (.ended o)) :
      Ran @retire chapter texts (.ended (o.onContext fun c => c.takeOutput.2))

/-- It is a part of a session. -/
theorem Ran.session {texts : List String} {st : Stage} (h : Ran retire chapter texts st) :
    Session retire chapter st := by
  induction h with
  | fresh => exact .refl
  | run _ code options ih => exact .tail ih (.run code _ options)
  | leads _ hLeads ih => exact .tail ih (.leads hLeads)
  | interrupt _ ih => exact .tail ih (.interrupt _)
  | signal _ ih => exact .tail ih (.signal _)
  | takeOutput _ ih => exact .tail ih (.takeOutput _)

/-- The text that was run last is a program, and its run reports in it. -/
def ReportsLast (texts : List String) (c : Context) : Prop :=
  ∃ code earlier, texts = code :: earlier ∧ (parse (programText code)).program.isSome ∧
    c.Reporting code

/-- So it is at a stage, if the run is still to go on. -/
def Reporting (texts : List String) : Stage → Prop
  | running r => ReportsLast texts r.context
  | ended (.suspended s) => s.context.aborted = true ∨ ReportsLast texts s.context
  | ended _ => True

/-- Only the text in force and what was reported matter. -/
theorem ReportsLast.of_same {texts : List String} {c d : Context} (h : ReportsLast texts c)
    (hSource : d.source = c.source) (hErrors : d.errors <+: c.errors) : ReportsLast texts d := by
  obtain ⟨code, earlier, rfl, hParsed, hReporting⟩ := h
  have hNone : d.errors = [] := by
    rw [hReporting.errors] at hErrors
    exact List.prefix_nil.mp hErrors
  exact ⟨code, earlier, rfl, hParsed, hSource.trans hReporting.source, hNone⟩

/-- A suspended run to whose context something is done is reported in the same text. -/
theorem Reporting.onContext {texts : List String} {o : Outcome} (h : (ended o).Reporting texts)
    {g : Context → Context} (hSource : ∀ c, (g c).source = c.source)
    (hErrors : ∀ c, (g c).errors <+: c.errors) (hAborted : ∀ c, (g c).aborted = c.aborted) :
    (ended (o.onContext g)).Reporting texts := by
  cases o with
  | finished v c => trivial
  | errored ds c => trivial
  | suspended s =>
    rcases h with hOver | hLast
    · exact .inl ((hAborted _).trans hOver)
    · exact .inr (hLast.of_same (hSource _) (hErrors _))

/-- What a machine step ends in reports in the text that its context has. -/
theorem reporting_stage {texts : List String} (scheduler : Scheduler)
    {x : EStateM.Result Fault Context Machine} (h : ∀ m d, x = .ok m d → ReportsLast texts d) :
    (Running.stage scheduler x).Reporting texts := by
  cases x with
  | error t d => trivial
  | ok m d =>
    have hd := h m d rfl
    unfold Running.stage
    dsimp only
    split
    · exact hd
    · trivial
    · cases scheduler with
      | nonDet => exact .inr hd
      | preemptive => trivial

/-- Nothing that happens within a run changes the text. -/
theorem Reporting.leads {texts : List String} {a b : Stage} (h : a.Reporting texts)
    (hLeads : Leads retire a b) : b.Reporting texts := by
  cases hLeads with
  | step r =>
    have hr : ReportsLast texts r.context := h
    refine reporting_stage r.scheduler fun m d hStep => ?_
    have hSame := r.machine.sameSettings_step retire r.context
    rw [after_ok hStep] at hSame
    exact hr.of_same hSame.source hSame.errors
  | resume s =>
    unfold Suspension.resume
    split
    · trivial
    · rename_i hGoesOn
      -- a run that has not been given up goes on with its own text
      exact (h.resolve_left hGoesOn).of_same rfl List.prefix_rfl
  | signal r => exact ReportsLast.of_same h rfl List.prefix_rfl
  | expire r => exact ReportsLast.of_same h rfl List.prefix_rfl
  | takeOutput r => exact ReportsLast.of_same h rfl List.prefix_rfl

/-- The run of a text begins by putting it in force. -/
theorem reporting_runBy (texts : List String) (code : String) (c : Context) (options : Options) :
    (runBy retire code c options).Reporting (code :: texts) := by
  obtain ⟨d, hReadied, ⟨errors, hRun⟩ | ⟨p, hParsed, hRun⟩⟩ := runBy_cases retire code c options
  · rw [hRun]
    trivial
  -- the text can be read, so the run begins with its name and no reports
  · have hBegun := reporting_start p (p.reporting_heeded
      (show Context.Reporting code { d with source := programText code } from
        ⟨rfl, hReadied.errors⟩))
    rw [hRun, p.begin_eq]
    unfold after at hBegun
    cases hStart : p.start (p.heeded { d with source := programText code }) with
    | ok s e =>
      rw [hStart] at hBegun
      rw [show p.start (p.heeded { d with source := ⟨programName, code⟩ }) = _ from hStart]
      exact ⟨code, texts, rfl, Option.isSome_iff_exists.mpr ⟨p, hParsed⟩, hBegun.source,
        hBegun.errors⟩
    | error t e =>
      rw [show p.start (p.heeded { d with source := ⟨programName, code⟩ }) = _ from hStart]
      trivial

/-- Throughout a run, its text is the one that faults are taken to be in. -/
theorem Ran.reporting {texts : List String} {st : Stage} (h : Ran retire chapter texts st) :
    st.Reporting texts := by
  induction h with
  | fresh => trivial
  | run _ code options => exact reporting_runBy _ code _ options
  | leads _ hLeads ih => exact ih.leads hLeads
  | @interrupt texts o _ ih =>
    cases o with
    | suspended s => exact .inl rfl
    | _ => trivial
  | signal _ ih => exact ih.onContext (fun _ => rfl) (fun _ => List.prefix_rfl) fun _ => rfl
  | takeOutput _ ih => exact ih.onContext (fun _ => rfl) (fun _ => List.prefix_rfl) fun _ => rfl

-- ---------------------------------------------------------------------------
-- Faults
-- ---------------------------------------------------------------------------

/-- The driver step that comes to this stage ends in the fault, when these texts have been run. -/
inductive Fails (retire : {k : Kind} → Search k → Bool) (chapter : Nat) :
    List String → Fault → Stage → Prop
  /-- The names of the program cannot be declared. -/
  | start {texts : List String} {o : Outcome} (h : Ran @retire chapter texts (.ended o))
      {code : String} {options : Options} {c d : Context} {p : Program} {t : Fault}
      (hLoad : (o.context.prepare options.limits).loadPreludeBy @retire = .ok c)
      (hParsed : (parse (programText code)).program = some p)
      (hStart : p.start (p.heeded { c with source := programText code }) = .error t d) :
      Fails @retire chapter (code :: texts) t (runBy @retire code o.context options)
  /-- A step of the machine ends in it. -/
  | step {texts : List String} {r : Running} (h : Ran @retire chapter texts (.running r))
      {t : Fault} {d : Context} (hStep : r.machine.step @retire r.context = .error t d) :
      Fails @retire chapter texts t (r.stepBy @retire)

/-- A fault is the only one that is reported, and it is reported in the text that was run last. -/
theorem Fails.reported {texts : List String} {t : Fault} {st : Stage}
    (h : Fails retire chapter texts t st) : ∃ code earlier p c, texts = code :: earlier ∧
      (parse (programText code)).program = some p ∧
      st = .ended (.errored [t.toDiagnostic (programText code)] c) := by
  cases h with
  | @start texts o hRan code options c d p _ hLoad hParsed hStart =>
    obtain ⟨c', hLoad', hReadied⟩ := o.context.exists_readied retire options.limits
    cases hLoad.symm.trans hLoad'
    -- The library has been loaded and reported nothing, so this is the only report.
    have hBegun := reporting_start p (p.reporting_heeded
      (c := { c with source := programText code }) ⟨rfl, hReadied.errors⟩)
    rw [after_error hStart] at hBegun
    refine ⟨code, texts, p, d.abort t, rfl, hParsed, ?_⟩
    rw [← hBegun.abort, runBy_eq_begin retire options hLoad hParsed, p.begin_eq, hStart]
  | @step _ r hRan _ d hStep =>
    obtain ⟨code, earlier, rfl, hParsed, hReporting⟩ := hRan.reporting
    obtain ⟨p, hParsed⟩ := Option.isSome_iff_exists.mp hParsed
    have hSame := r.machine.sameSettings_step retire r.context
    rw [after_error hStep] at hSame
    refine ⟨code, earlier, p, d.abort t, rfl, hParsed, ?_⟩
    rw [← (hReporting.sameSettings hSame).abort]
    unfold Running.stepBy
    rw [hStep]
    rfl

/-- A fault is the only one that is reported, and it is reported in the text that was run last. If
it is a fault of code in this text, the diagnostic points into the text. If it is a fault of code in
any text, the diagnostic points into that text just if both texts have the same name, and the same
line there. -/
theorem faults_are_reported {texts : List String} {t : Fault} {st : Stage}
    (h : Fails retire chapter texts t st) : ∃ code earlier p d c, texts = code :: earlier ∧
      (parse (programText code)).program = some p ∧ st = .ended (.errored [d] c) ∧
      d = t.toDiagnostic (programText code) ∧
      (t.span ∈ p.spans → d.PointsInto (programText code)) ∧
      ∀ source q, (parse source).program = some q → t.span ∈ q.spans →
        (d.PointsInto source ↔ source.name = programName ∧
          source.quote t.span.start.line = (programText code).quote t.span.start.line) := by
  obtain ⟨code, earlier, p, c, hTexts, hParsed, hEnded⟩ := h.reported
  refine ⟨code, earlier, p, _, c, hTexts, hParsed, hEnded, rfl, fun hHere => ?_,
    fun source q hOther hThere => ?_⟩
  · exact (Fault.pointsInto_iff (line?_of_parse hParsed _ hHere)).mpr ⟨rfl, rfl⟩
  · exact Fault.pointsInto_iff (line?_of_parse hOther _ hThere)

/-- The program of the text `require();`. -/
def bareRequire : Program :=
  let call : Expr := .call (.ident ⟨"require", ⟨⟨1, 1⟩, ⟨1, 7⟩⟩⟩) [] ⟨⟨1, 1⟩, ⟨1, 9⟩⟩
  ⟨.mk [.expr call] ⟨⟨1, 1⟩, ⟨1, 10⟩⟩, ⟨⟨1, 1⟩, ⟨1, 10⟩⟩⟩

/-- This is how the text is read. -/
theorem parse_bareRequire : (parse (programText "require();")).program = some bareRequire := by
  rw [parse_of_toList (show (programText "require();").text.toList =
    ['r', 'e', 'q', 'u', 'i', 'r', 'e', '(', ')', ';'] from rfl)]
  rfl

/-- Its second machine step ends in a fault, at the whole of the call. -/
theorem bareRequire_reported : ∃ t d c,
    Fails Search.isExhausted 4 ["require();"] t (.ended (.errored [d] c)) ∧
      d.PointsInto (programText "require();") := by
  obtain ⟨d, hLoad, hReadied⟩ := (Context.new 4).exists_readied Search.isExhausted .unlimited
  have hBegins : ∃ r r₁ t e, bareRequire.begin { d with source := programText "require();" } .nonDet =
      .running r ∧ r.stepBy Search.isExhausted = .running r₁ ∧
      r₁.machine.step Search.isExhausted r₁.context = .error t e ∧ t.span ∈ bareRequire.spans := by
    cases hReadied with
    | again hLoaded => cases hLoaded
    | first _ _ hLoads =>
      -- the limits and the signs from outside are told; what else there is plays no role
      rw [hLoads.rest]
      refine ⟨_, _, .invalidNumberOfArguments "require" "1" 0 ⟨⟨1, 1⟩, ⟨1, 9⟩⟩, _, rfl, rfl, rfl, ?_⟩
      exact List.mem_cons_self
  obtain ⟨r, r₁, t, e, hBegun, hSecond, hStep, hSpan⟩ := hBegins
  have hRan : Ran Search.isExhausted 4 ["require();"] (.running r) := by
    rw [← hBegun]
    exact runBy_eq_begin Search.isExhausted .default hLoad parse_bareRequire ▸ Ran.fresh.run _ _
  have hFails : Fails Search.isExhausted 4 ["require();"] t (r₁.stepBy Search.isExhausted) :=
    .step (hSecond ▸ hRan.leads (.step r)) hStep
  obtain ⟨code, earlier, p, d', c, hTexts, hParsed, hEnded, -, hHere, -⟩ := faults_are_reported hFails
  cases hTexts
  cases parse_bareRequire.symm.trans hParsed
  exact ⟨t, d', c, hEnded ▸ hFails, hHere hSpan⟩

-- ---------------------------------------------------------------------------
-- A fault of a function of the library
-- ---------------------------------------------------------------------------

/-- A machine that comes to a fault does so in one of its steps. -/
theorem Ran.exists_fails {texts : List String} {n : Nat} {r : Running} {t : Fault} {d : Context}
    (h : Ran retire chapter texts (.running r)) (hRun : r.machine.run retire n r.context = .error t d) :
    ∃ st, Fails retire chapter texts t st := by
  induction n generalizing r with
  | zero => cases hRun
  | succ n ih =>
    cases hFinished : r.machine.finished? with
    | some x =>
      rw [Machine.run_of_finished hFinished] at hRun
      cases hRun
    | none =>
      rw [Machine.run_succ hFinished] at hRun
      cases hStep : r.machine.step retire r.context with
      | error t' d' =>
        rw [hStep] at hRun
        cases hRun
        exact ⟨_, .step h hStep⟩
      | ok m e =>
        rw [hStep] at hRun
        have hRun : m.run retire n e = .error t d := hRun
        -- A machine that is finished cannot fail any more, so the driver step is still under way.
        cases hRest : m.finished? with
        | some x =>
          rw [Machine.run_of_finished hRest] at hRun
          cases hRun
        | none =>
          have hNext : r.stepBy retire = .running ⟨m, e, r.scheduler⟩ := by
            unfold Running.stepBy
            rw [hStep, stage_ok, hRest]
          exact ih (hNext ▸ h.leads (.step r)) hRun

/-- The region of the fault in which the run of a text on a new context ends, within `n` steps. -/
def faultRegion? (n : Nat) (code : String) (p library : Program) : Option Span := do
  let c ← Context.newWith? 4 .unlimited library
  match p.begin { c with source := programText code } .nonDet with
  | .ended _ => none
  | .running r =>
    match r.machine.run Search.isExhausted n r.context with
    | .ok .. => none
    | .error t _ => some t.span

/-- The program of the text `length(true);`. -/
def lengthOfTrue : Program :=
  let call : Expr := .call (.ident ⟨"length", ⟨⟨1, 1⟩, ⟨1, 6⟩⟩⟩) [.bool true ⟨⟨1, 8⟩, ⟨1, 11⟩⟩]
    ⟨⟨1, 1⟩, ⟨1, 12⟩⟩
  ⟨.mk [.expr call] ⟨⟨1, 1⟩, ⟨1, 13⟩⟩, ⟨⟨1, 1⟩, ⟨1, 13⟩⟩⟩

/-- This is how the other one is read. -/
theorem parse_lengthOfTrue :
    (parse (programText "length(true);")).program = some lengthOfTrue := by
  rw [parse_of_toList (show (programText "length(true);").text.toList =
    ['l', 'e', 'n', 'g', 't', 'h', '(', 't', 'r', 'u', 'e', ')', ';'] from rfl)]
  rfl

set_option maxRecDepth 100000 in
/-- The run ends in a fault at a place in the library. -/
theorem faultRegion?_lengthOfTrue :
    (Prelude.parsed.program.any fun library =>
      (faultRegion? 60 "length(true);" lengthOfTrue library).any (· ∈ library.spans)) = true := by
  rw [Prelude.parsed, parse_of_toList Prelude.toList_text]
  simp only [Prelude.lines, List.map_cons, List.map_nil]
  repeat rw [String.toList_ofList]
  decide +kernel

/-- The library calls a primitive with what is no pair, and the diagnostic does not point into the
library. -/
theorem lengthOfTrue_misreported : ∃ t d c library,
    Fails Search.isExhausted 4 ["length(true);"] t (.ended (.errored [d] c)) ∧
      Prelude.parsed.program = some library ∧ t.span ∈ library.spans ∧
      ¬ d.PointsInto Prelude.source := by
  obtain ⟨library, hLibrary, hRegion⟩ := (Option.any_eq_true _ _).mp faultRegion?_lengthOfTrue
  obtain ⟨span, hFault, hSpan⟩ := (Option.any_eq_true _ _).mp hRegion
  have hSpan : span ∈ library.spans := of_decide_eq_true hSpan
  obtain ⟨d, hLoad, hReadied⟩ := (Context.new 4).exists_readied Search.isExhausted .unlimited
  obtain ⟨library', hLibrary', hContext⟩ := hReadied.newWith?_eq
  -- There is one library, so its tree is the one whose spans are looked at.
  cases hLibrary.symm.trans hLibrary'
  unfold faultRegion? at hFault
  obtain ⟨d', hd', hFault⟩ := Option.bind_eq_some_iff.mp hFault
  cases hContext.symm.trans hd'
  split at hFault
  · cases hFault
  rename_i r hBegun
  split at hFault
  · cases hFault
  rename_i t e hRun
  cases hFault
  have hRan : Ran Search.isExhausted 4 ["length(true);"] (.running r) := by
    rw [← hBegun]
    exact runBy_eq_begin Search.isExhausted .default hLoad parse_lengthOfTrue ▸ Ran.fresh.run _ _
  obtain ⟨st, hFails⟩ := hRan.exists_fails hRun
  obtain ⟨code, earlier, p, c, hTexts, -, hEnded⟩ := hFails.reported
  cases hTexts
  refine ⟨t, _, c, library, hEnded ▸ hFails, hLibrary, hSpan, fun hPoints => ?_⟩
  have hName : programName = Prelude.source.name := hPoints.file
  exact absurd hName (by decide)

end Stage

end AmbScript
