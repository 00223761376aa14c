import AmbScript.Proofs.Machine.Spent
import AmbScript.Proofs.Scoping.Filling
import AmbScript.Proofs.Listing.Delivery

/-!
# Loading the library

The library is a program of nothing but function declarations. Entering its frame gives all of its
names their values at once; running its statements then does nothing. So the library can always be
loaded, and its frame has nothing but constants.

* `Program.IsLibrary` — a program of function declarations with distinct names.
* `Program.IsLibrary.enter_eq_ok` — what its frame holds once it is entered.
* `Program.IsLibrary.drain_eq` — running it changes nothing but the count of steps.
* `Prelude.exists_program` — the library is such a program; `Context.loadPreludeBy_eq_ok` says what
  that comes to.

That it is such a program is the only fact about its text that is needed here, and it is found by
reading the text once, by evaluation.
-/

namespace AmbScript

variable {retire : {k : Kind} → Search k → Bool}

open Store

-- ---------------------------------------------------------------------------
-- Programs of function declarations
-- ---------------------------------------------------------------------------

/-- All statements declare functions, no two of them by the same name. -/
def Program.IsLibrary (p : Program) : Prop :=
  (∀ s ∈ p.body.statements, s.declaredFunction?.isSome) ∧
    (p.body.declarations.map Ident.name).Nodup

instance (p : Program) : Decidable p.IsLibrary := inferInstanceAs (Decidable (_ ∧ _))

/-- A statement that declares a function is a function with a name. -/
theorem Stmt.exists_of_declaredFunction? {s : Stmt} (h : s.declaredFunction?.isSome) :
    ∃ f name, s = .function f ∧ f.name? = some name :=
  have ⟨x, hx⟩ := Option.isSome_iff_exists.mp h
  ⟨x.2, x.1, of_declaredFunction? hx⟩

-- ---------------------------------------------------------------------------
-- Entering the frame
-- ---------------------------------------------------------------------------

namespace Eval

/-- The name is bound to a function that one of the statements declares by it. -/
def HoldsFunction (frame : FrameId) (stmts : List Stmt) (s : Store) (n : String) : Prop :=
  ∃ f cell, .function f ∈ stmts ∧ f.name?.map Ident.name = some n ∧
    s.binding? frame n = some (.ofValue (.closure cell f frame) true)

end Eval

open Eval

/-- What the frame of a library holds: a function for each name that is declared, nothing else. -/
structure Store.HoldsLibrary (s : Store) (p : Program) (frame : FrameId) : Prop where
  held : ∀ n ∈ p.body.declarations.map Ident.name, HoldsFunction frame p.body.statements s n
  others : ∀ n, n ∉ p.body.declarations.map Ident.name → s.binding? frame n = none

/-- All that the frame holds is constant. -/
theorem Store.HoldsLibrary.const {s : Store} {p : Program} {frame : FrameId}
    (h : s.HoldsLibrary p frame) {n : String} {b : Binding} (hBinding : s.binding? frame n = some b) :
    ∃ v, b = .ofValue v true := by
  by_cases hName : n ∈ p.body.declarations.map Ident.name
  · obtain ⟨f, cell, -, -, hHeld⟩ := h.held n hName
    rw [hBinding] at hHeld
    exact ⟨_, Option.some.inj hHeld⟩
  · rw [h.others n hName] at hBinding
    cases hBinding

namespace Program.IsLibrary

variable {p : Program} {c : Context}

/-- Entering the frame of a library succeeds. -/
theorem enter_eq_ok (h : p.IsLibrary) (hMarked : c.store.watermark ≤ c.store.nextFrame) :
    ∃ d, p.enter c = .ok () d ∧ d.store.HoldsLibrary p c.store.nextFrame ∧
      d.store.trail = c.store.trail ∧ d.store.watermark = c.store.watermark ∧
      d.store.nextFrame = c.store.nextFrame + 1 ∧
      d = { c with
        store := d.store, inner := [], outer := c.store.nextFrame :: c.outer, nextCell := d.nextCell,
        output := d.output, steps := d.steps } := by
  let frame := c.store.nextFrame
  let c₁ := c.newFrame "programEnvironment" c.current none
  have hMade : frame < c₁.store.nextFrame := by
    show c.store.nextFrame < (c.store.newFrame _ _ _).nextFrame
    rw [nextFrame_newFrame]
    exact Nat.lt_succ_self _
  -- the frame is new, so no declaration finds its name taken
  have hEmpty (n : String) : c₁.store.binding? frame n = none := by
    rw [binding?_eq]
    show (c.store.newFrame _ _ _).scope? c.store.nextFrame >>= _ = none
    rw [scope?_newFrame, if_pos rfl]
    rfl
  obtain ⟨d, hHoist, hBound, hOthers⟩ := hoist_eq_ok h.2 hMade fun name _ => hEmpty _
  have hFills := (@filling_hoist frame p.body).furnishes c₁
  rw [after_ok hHoist] at hFills
  have hFollows := (@filling_hoist frame p.body).forward _ _ _ hHoist
  refine ⟨d.enterOuter frame, ?_, ⟨fun n hn => ?_, fun n hn => (hOthers n hn).trans (hEmpty n)⟩,
    hFills.trail hMarked, hFills.watermark, hFills.nextFrame.trans (nextFrame_newFrame _ _ _ _), ?_⟩
  · exact bind_eq_ok.mpr ⟨frame, c₁, rfl, bind_eq_ok.mpr ⟨(), d, hHoist, rfl⟩⟩
  · -- whoever declares the name declares a function
    obtain ⟨name, hDeclared, rfl⟩ := List.mem_map.mp hn
    obtain ⟨s, hMem, hs⟩ := List.mem_filterMap.mp hDeclared
    obtain ⟨x, hx⟩ := Option.isSome_iff_exists.mp (h.1 s hMem)
    obtain ⟨cell, hBinding⟩ := hBound x (List.mem_filterMap.mpr ⟨s, hMem, hx⟩)
    obtain ⟨rfl, hName⟩ := Stmt.of_declaredFunction? hx
    cases hName.symm.trans hs
    exact ⟨x.2, cell, hMem, by rw [hName]; rfl, hBinding⟩
  · rw [hFollows.rest]
    rfl

end Program.IsLibrary

-- ---------------------------------------------------------------------------
-- Running the statements
-- ---------------------------------------------------------------------------

/-- Spent searches stay spent, whether one of them is dropped or not. -/
theorem ReachedSpent.keep {below : List Reached} (hBelow : ReachedSpent below) (dropped : Bool)
    (index : Nat) (rest : List Stmt) {s : Search .completion} (h : s.Spent) :
    ReachedSpent (Machine.keep dropped (.mk index rest s) below) := by
  unfold Machine.keep
  split
  · exact hBelow
  · exact .cons index rest h hBelow

namespace Machine

/-- A statement that declares a function has one ordinary completion. -/
theorem startStatement_function {c : Context} (hUnbounded : c.Unbounded) (index : Nat)
    (f : Function) (rest : List Stmt) (below : List Reached) (stack : Stack .completion) :
    startStatement index (.function f) rest below none stack c =
      .ok (pull (k := .completion) (.found (.value .undefined))
        (.push (.statement index rest below none) stack)) c.counted := by
  refine bind_eq_ok.mpr ⟨_, c.counted, ?_, rfl⟩
  exact bind_eq_ok.mpr ⟨(), c.counted, tick_unbounded hUnbounded _, rfl⟩

variable (retire) in
/-- All that is left of statements that declare functions is spent. -/
theorem reaches_declarations {stmt : Stmt} {rest : List Stmt}
    (hFunctions : ∀ s ∈ stmt :: rest, s.declaredFunction?.isSome) {c : Context}
    (hUnbounded : c.Unbounded) (index : Nat) {below : List Reached} (hBelow : ReachedSpent below)
    (stack : Stack .completion) :
    ∃ m d reached, startStatement index stmt rest below none stack c = .ok m d ∧
      m.Reaches retire d
        (found (k := .completion) (.value .undefined) (.sequenced reached none) stack)
        { c with steps := c.steps + (rest.length + 1) } ∧
      ReachedSpent reached := by
  -- by induction on the declarations: each is counted, has one result and is then spent
  induction rest generalizing stmt c index below with
  | nil =>
    obtain ⟨f, name, rfl, -⟩ := Stmt.exists_of_declaredFunction? (hFunctions _ List.mem_cons_self)
    exact ⟨_, _, _, startStatement_function hUnbounded index f [] below stack,
      (reaches_of_step rfl rfl).trans (reaches_of_step rfl rfl), hBelow.keep _ _ _ .once⟩
  | cons next rest ih =>
    obtain ⟨f, name, rfl, -⟩ := Stmt.exists_of_declaredFunction? (hFunctions _ List.mem_cons_self)
    obtain ⟨m, d, reached, hStart, hReaches, hSpent⟩ :=
      ih (fun s hs => hFunctions s (List.mem_cons_of_mem _ hs)) (c := c.counted) hUnbounded
        (index + 1)
        (hBelow.keep (retire (.failed : Search .completion)) index (next :: rest) .once)
    have hCompleted : (found (k := .completion) (.value .undefined) .failed
        (.push (.statement index (next :: rest) below none) stack)).Reaches retire c.counted m d :=
      reaches_of_step rfl hStart
    have hSteps : c.counted.steps + (rest.length + 1) = c.steps + ((next :: rest).length + 1) := by
      show c.steps + 1 + (rest.length + 1) = c.steps + (rest.length + 1 + 1)
      omega
    refine ⟨_, _, reached, startStatement_function hUnbounded index f (next :: rest) below stack,
      (reaches_of_step rfl rfl).trans (hCompleted.trans ?_), hSpent⟩
    rw [← hSteps]
    exact hReaches

end Machine

namespace Program.IsLibrary

open Machine

variable {p : Program} {c : Context}

variable (retire) in
/-- The first value of a library is there once each statement was counted; it has no other. -/
theorem drains (h : p.IsLibrary) (hUnbounded : c.Unbounded) :
    (ofSearch (.map .program (.sequence p.body.statements))).Drains retire c
      (.ok () { c with steps := c.steps + p.body.statements.length }) := by
  let done : Context := { c with steps := c.steps + p.body.statements.length }
  -- the declarations give one result, after which everything reached is spent
  have hFirst : ∃ v reached, (ofSearch (.map .program (.sequence p.body.statements))).Reaches
      retire c (found (k := .value) v (.map .program (.sequenced reached none)) .nil) done ∧
      ReachedSpent reached := by
    cases hStatements : p.body.statements with
    | nil =>
      dsimp only [done]
      rw [hStatements]
      exact ⟨_, [], (reaches_of_step rfl rfl).trans
        ((reaches_of_step rfl rfl).trans (reaches_of_step rfl rfl)), .nil⟩
    | cons stmt rest =>
      obtain ⟨m, d, reached, hStart, hReaches, hSpent⟩ :=
        reaches_declarations retire (hStatements ▸ h.1) hUnbounded 0 .nil
          (.push (.map .program) .nil)
      have hBegun : (pull (k := .completion) (.sequence (stmt :: rest))
          (.push (.map .program) .nil)).Reaches retire c m d := reaches_of_step rfl hStart
      dsimp only [done]
      rw [hStatements]
      exact ⟨_, reached, (reaches_of_step rfl rfl).trans
        (hBegun.trans (hReaches.trans (reaches_of_step rfl rfl))), hSpent⟩
  obtain ⟨v, reached, ⟨n, hRun⟩, hSpent⟩ := hFirst
  obtain ⟨rest, ⟨n', hRun'⟩, -⟩ := @drains_of_spent retire _ _
    (.map .program (.sequenced hSpent none)) .nil done
  obtain ⟨j, hAnswers⟩ := answers_of_run hRun (.finished rfl)
  obtain ⟨j', hAnswers'⟩ := answers_of_run hRun' (.finished rfl)
  exact .more hAnswers (.done hAnswers')

variable (retire) in
/-- Running a library to its end does nothing but enter its frame and count its statements. -/
theorem drain_eq (h : p.IsLibrary) {d : Context} (hEnter : p.enter c = .ok () d)
    (hUnbounded : d.Unbounded) :
    p.drain retire c = some (.ok () { d.beginStep with steps := p.body.statements.length }) := by
  have hStart : p.start c = .ok (.map .program (.sequence p.body.statements)) d :=
    bind_eq_ok.mpr ⟨(), d, hEnter, rfl⟩
  have hDrains := h.drains retire (c := d.beginStep) hUnbounded
  rw [show d.beginStep.steps + p.body.statements.length = _ from Nat.zero_add _] at hDrains
  unfold Program.drain
  rw [hStart]
  exact Machine.drain_eq_some_iff.mpr hDrains

end Program.IsLibrary

-- ---------------------------------------------------------------------------
-- Loading
-- ---------------------------------------------------------------------------

/-- `d` is `c` with the library `p` in a frame of its own. -/
structure Context.Loads (p : Program) (c d : Context) : Prop where
  /-- Nothing but entering that frame has been done to the store. -/
  entered : ∃ e, p.enter { c with
      preludePending := false, source := Prelude.source, limits := .unlimited } = .ok () e ∧
    d = { e.beginStep with steps := p.body.statements.length, limits := c.limits }
  holds : d.store.HoldsLibrary p c.store.nextFrame
  trail : d.store.trail = c.store.trail
  watermark : d.store.watermark = c.store.watermark
  nextFrame : d.store.nextFrame = c.store.nextFrame + 1
  rest : d = { c with
    store := d.store, inner := [], outer := c.store.nextFrame :: c.outer, nextCell := d.nextCell,
    output := d.output, steps := d.steps, preludePending := false, source := Prelude.source,
    expired := false }

variable (retire) in
/-- A library can always be loaded. -/
theorem Context.loadLibrary_eq_ok {p : Program} (hLibrary : p.IsLibrary) {parsed : Parsed}
    (hParsed : parsed.program = some p) {c : Context} (hPending : c.preludePending = true)
    (hInterrupted : c.interrupted = false) (hMarked : c.store.watermark ≤ c.store.nextFrame) :
    ∃ d, c.loadLibrary retire parsed = .ok d ∧ c.Loads p d := by
  let c₁ : Context :=
    { c with preludePending := false, source := Prelude.source, limits := .unlimited }
  obtain ⟨d, hEnter, hHolds, hTrail, hWatermark, hNext, hRest⟩ :=
    hLibrary.enter_eq_ok (c := c₁) hMarked
  have hUnbounded : d.Unbounded := by
    rw [hRest]
    exact ⟨rfl, hInterrupted⟩
  -- a library has no choices, so it is done when it has been gone through once
  have hDrain := hLibrary.drain_eq retire hEnter hUnbounded
  refine ⟨{ d.beginStep with steps := p.body.statements.length, limits := c.limits }, ?_,
    ⟨d, hEnter, rfl⟩, hHolds, hTrail, hWatermark, hNext, ?_⟩
  · unfold loadLibrary
    rw [hPending, hParsed, if_neg (show ¬ (!true) = true from Bool.false_ne_true)]
    dsimp only [c₁] at hDrain ⊢
    rw [hDrain]
  · rw [hRest]
    rfl

-- ---------------------------------------------------------------------------
-- The library
-- ---------------------------------------------------------------------------

/-- Reading starts from the characters of a text. -/
theorem parse_of_toList {source : Source} {cs : List Char} (h : source.text.toList = cs) :
    parse source =
      (let lexed := Lexer.loop source cs.length ⟨⟨1, 1⟩, cs⟩ [] .empty
      if lexed.log.hasErrors then ⟨none, lexed.log⟩ else parseTokens source lexed.tokens) := by
  subst h
  rfl

namespace Prelude

/-- The text is made up of its lines. -/
theorem toList_text : source.text.toList =
    ['\n'] ++ ['\n'].intercalate (lines.map String.toList) ++ ['\n'] := by
  show text.toList = _
  rw [text, String.toList_append, String.toList_append, String.toList_intercalate]
  rfl

set_option maxRecDepth 100000 in
/-- The text of the library is a program of function declarations. -/
theorem exists_program : ∃ p, parsed.program = some p ∧ p.IsLibrary := by
  have hAny : (parsed.program.any fun p => decide p.IsLibrary) = true := by
    -- the characters of each line are spelled out first, which keeps the evaluation fast
    rw [parsed, parse_of_toList toList_text]
    simp only [lines, List.map_cons, List.map_nil]
    repeat rw [String.toList_ofList]
    decide +kernel
  obtain ⟨p, hProgram, hLibrary⟩ := Option.any_eq_true _ _ |>.mp hAny
  exact ⟨p, hProgram, of_decide_eq_true hLibrary⟩

end Prelude

variable (retire) in
/-- The library that every context gets. -/
theorem Context.loadPreludeBy_eq_ok {c : Context} (hPending : c.preludePending = true)
    (hInterrupted : c.interrupted = false) (hMarked : c.store.watermark ≤ c.store.nextFrame) :
    ∃ p d, Prelude.parsed.program = some p ∧ c.loadPreludeBy retire = .ok d ∧ c.Loads p d := by
  obtain ⟨p, hProgram, hLibrary⟩ := Prelude.exists_program
  obtain ⟨d, hLoad, hLoads⟩ := Context.loadLibrary_eq_ok retire hLibrary hProgram
    hPending hInterrupted hMarked
  exact ⟨p, d, hProgram, hLoad, hLoads⟩

end AmbScript
