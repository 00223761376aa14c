import Mathlib.Data.List.Infix
import AmbScript.Proofs.Machine.InForce
import AmbScript.Proofs.Machine.Spent

/-!
# The frames around each search

A search does not remember the frames in force when it was started: it finds the ones that are in
force when it is asked. They are those around it, which the machine's stack and the searches around
it tell. Here all searches that a machine has under way are listed with the frames around them, the
earliest first, and it is shown what a step does to the list: the last ones are given up, and if the
step evaluates a node, the search that this comes to is added, with the frames in force at that.

* `Machine.surroundings` — the frames around each search under way.
* `Machine.evaluation?` — the node that a step evaluates, and `Machine.opening` where it does so.
* `Machine.renews_step` — what a step does to the searches under way.

The list is kept in the order in which the searches were started, so that whatever is given up
stands at its end: a step leaves a prefix of the list, and adds to it at most. For each function
that a step calls there is a lemma `renews_…` where the function may evaluate a node, and a lemma
`prefix_…` where it never does.
-/

namespace AmbScript

variable {retire : {k : Kind} → Search k → Bool}

open Eval

-- ---------------------------------------------------------------------------
-- Surroundings
-- ---------------------------------------------------------------------------

mutual

/-- The frames around a search that is asked inside the frames `around`, and around its parts. The
statements of a scope are not counted: they are what is inside the frame of the scope. -/
def Search.surroundings {k : Kind} (around : List FrameId) : Search k → List (List FrameId)
  | .once _ => [around]
  | .map _ inner => around :: inner.surroundings around
  | .bind _ outer => around :: outer.surroundings around
  | .binding _ outer inner => around :: outer.surroundings around ++ inner.surroundings around
  | .within frame inner => around :: inner.surroundings (frame :: around)
  | .choice _ => [around]
  | .choosing _ none _ => [around]
  | .choosing _ (some s) _ => around :: s.surroundings around
  | .product _ => [around]
  | .producing operands _ => around :: operandSurroundings around operands
  | .sequence _ => []
  | .sequenced reached _ => reachedSurroundings around reached
  | .loop _ => [around]
  | .looping header phases => around :: phaseSurroundings (header.frames ++ around) phases

/-- Operands are listed from the first to the last, though the last one is the head of the list. -/
def operandSurroundings (around : List FrameId) : List Operand → List (List FrameId)
  | [] => []
  | .mk _ s :: below => operandSurroundings around below ++ s.surroundings around

/-- So are the statements that a sequence has reached. -/
def reachedSurroundings (around : List FrameId) : List Reached → List (List FrameId)
  | [] => []
  | .mk _ _ s :: below => reachedSurroundings around below ++ s.surroundings around

/-- And the parts of a loop that are under way, all of them inside the frames of the loop. -/
def phaseSurroundings (around : List FrameId) : List Phase → List (List FrameId)
  | [] => []
  | p :: below => phaseSurroundings around below ++ p.surroundings around

/-- Which part of the loop it is makes no difference. -/
def Phase.surroundings (around : List FrameId) : Phase → List (List FrameId)
  | .init s => s.surroundings around
  | .test s => s.surroundings around
  | .body s => s.surroundings around
  | .update s => s.surroundings around

end

attribute [simp] Search.surroundings operandSurroundings reachedSurroundings phaseSurroundings
  Phase.surroundings

/-- What waits for a part counts itself and the parts besides the one that it waits for. -/
def Pending.surroundings {i o : Kind} (around : List FrameId) : Pending i o → List (List FrameId)
  | .map _ => [around]
  | .outer _ => [around]
  | .inner _ rest => around :: rest.surroundings around
  | .within _ => [around]
  | .choosing _ _ => [around]
  | .operand _ below _ => around :: operandSurroundings around below
  | .statement _ _ below _ => reachedSurroundings around below
  | .init header below => around :: phaseSurroundings (header.frames ++ around) below
  | .test header below => around :: phaseSurroundings (header.frames ++ around) below
  | .body header below => around :: phaseSurroundings (header.frames ++ around) below
  | .update header below => around :: phaseSurroundings (header.frames ++ around) below

/-- What was pushed later was started later. -/
def Stack.surroundings {k : Kind} : Stack k → List (List FrameId)
  | .nil => []
  | .push p below => below.surroundings ++ p.surroundings below.frames

/-- The search that the walk is at. One that is drained is no longer under way. -/
def Walk.surroundings {k : Kind} (around : List FrameId) : Walk k → List (List FrameId)
  | .pull s => s.surroundings around
  | .found _ rest => rest.surroundings around
  | .drained _ => []

/-- The frames around each search under way, the earliest first. -/
def Machine.surroundings (m : Machine) : List (List FrameId) :=
  m.stack.surroundings ++ m.walk.surroundings m.stack.frames

-- ---------------------------------------------------------------------------
-- Nodes that are evaluated
-- ---------------------------------------------------------------------------

/-- A search of whatever kind. -/
abbrev Started := Σ k : Kind, Search k

/-- The search that is a part of a loop. -/
def Phase.started : Phase → Started
  | .init s => ⟨_, s⟩
  | .test s => ⟨_, s⟩
  | .body s => ⟨_, s⟩
  | .update s => ⟨_, s⟩

namespace Eval

/-- A node whose evaluation gives a search. -/
def node {k : Kind} (x : Eval (Search k)) : Eval Started := do return ⟨k, ← x⟩

/-- A node whose evaluation gives a part of a loop. -/
def part (x : Eval Phase) : Eval Started := do return (← x).started

end Eval

/-- The node that is evaluated when the search is asked, if any. -/
def Search.evaluation? {k : Kind} : Search k → Option (Eval Started)
  | .choice (e :: _) => some (node e.start)
  | .choosing _ none (e :: _) => some (node e.start)
  | .product (e :: _) => some (node e.start)
  | .sequence (stmt :: _) => some (node stmt.start)
  | .loop header => some (part (Machine.startLoop header))
  | _ => none

/-- The node that is evaluated when the part has found `item`, if any. -/
def Pending.evaluation? {i o : Kind} (p : Pending i o) (item : i.Item) : Option (Eval Started) :=
  match i, o, p, item with
  | _, _, .outer f, item => some (node (f.apply item))
  | _, _, .operand (e :: _) _ _, _ => some (node e.start)
  | _, _, .statement _ (stmt :: _) _ _, .value _ => some (node stmt.start)
  | _, _, .init header _, _ => some (part (Machine.startTest header))
  | _, _, .test header _, .bool true => some (part (Machine.startBody header))
  | _, _, .body header _, .value _ => some (part (Machine.startUpdate header))
  | _, _, .body header _, .continueLoop => some (part (Machine.startUpdate header))
  | _, _, .update header _, _ => some (part (Machine.startTest header))
  | _, _, _, _ => none

/-- The node that is evaluated when the part has no more results, if any. -/
def Pending.alternative? {i o : Kind} : Pending i o → Option (Eval Started)
  | .choosing _ (e :: _) => some (node e.start)
  | _ => none

/-- The context that a node is evaluated in when the search is asked. -/
def Search.opening {k : Kind} (c : Context) : Search k → Context
  | .choice _ => c.checkpoint
  | .loop header => header.entered c
  | _ => c

namespace Machine

/-- The node that the next step evaluates, if any. -/
def evaluation? : Machine → Option (Eval Started)
  | ⟨_, .pull s, _⟩ => s.evaluation?
  | ⟨_, .found item _, .push p _⟩ => p.evaluation? item
  | ⟨_, .drained _, .push p _⟩ => p.alternative?
  | _ => none

/-- The context that the next step evaluates a node in, from the context that it is taken in. -/
def opening (m : Machine) (c : Context) : Context :=
  match m with
  | ⟨_, .pull s, _⟩ => s.opening c
  | m => m.origin c

end Machine

-- ---------------------------------------------------------------------------
-- Parts of a step
-- ---------------------------------------------------------------------------

/-- What becomes of the searches under way, of which `L` are the surroundings, when the node that
`x` evaluates, if any, is evaluated in the context `c` and inside the frames `fs`. -/
inductive Machine.Renews (L : List (List FrameId)) (fs : List FrameId) (x : Option (Eval Started))
    (c : Context) (m : Machine) : Prop
  /-- The last ones are given up, and no other one is asked. -/
  | keeps (hKept : m.surroundings <+: L)
      (hNone : ∀ y k s e stack, x = some y → y c = .ok ⟨k, s⟩ e → m ≠ pull s stack)
  /-- Beyond that, the search is asked that the node has come to. -/
  | starts {y : Eval Started} {k : Kind} {s : Search k} {e : Context} {stack : Stack k}
      (hNode : x = some y) (hStart : y c = .ok ⟨k, s⟩ e) (hNext : m = pull s stack)
      (hKept : stack.surroundings <+: L) (hFrames : stack.frames = fs)

namespace Machine

variable {c d : Context} {m : Machine} {L L' : List (List FrameId)} {fs : List FrameId}
  {x : Option (Eval Started)}

/-- More searches may be given up than are. -/
theorem Renews.mono (h : Renews L fs x c m) (hL : L <+: L') : Renews L' fs x c m := by
  cases h with
  | keeps hKept hNone => exact .keeps (hKept.trans hL) hNone
  | starts hNode hStart hNext hKept hFrames =>
    exact .starts hNode hStart hNext (hKept.trans hL) hFrames

/-- No node is evaluated. -/
theorem renews_of_prefix (h : m.surroundings <+: L) : Renews L fs none c m := by
  refine .keeps h fun _ _ _ _ _ hNode => ?_
  cases hNode

/-- The search that is asked is the last one under way. -/
theorem surroundings_pull {k : Kind} (s : Search k) (stack : Stack k) :
    (pull s stack).surroundings = stack.surroundings ++ s.surroundings stack.frames := rfl

/-- The search that has a result goes on being under way. -/
theorem surroundings_found {k : Kind} (item : k.Item) (rest : Search k) (stack : Stack k) :
    (found item rest stack).surroundings = stack.surroundings ++ rest.surroundings stack.frames :=
  rfl

/-- The search that is drained does not. -/
theorem surroundings_drained {k : Kind} (rest : Search k) (stack : Stack k) :
    (drained rest stack).surroundings = stack.surroundings := List.append_nil _

/-- The next alternative of a choice is a node, and is asked inside the frames around the choice. -/
theorem renews_alternative {start : Checkpoint} {e : Expr} {rest : List Expr} {stack : Stack .value}
    (h : nextAlternative start (e :: rest) stack c = .ok m d) :
    Renews (stack.surroundings ++ [stack.frames]) stack.frames (some (node e.start)) c m := by
  obtain ⟨s, _, hStart, hNext⟩ := bind_eq_ok.mp h
  cases hNext
  exact .starts rfl (bind_eq_ok.mpr ⟨s, _, hStart, rfl⟩) rfl List.prefix_rfl rfl

/-- A choice with no alternative left is given up. -/
theorem prefix_nextAlternative_nil {start : Checkpoint} {stack : Stack .value}
    (h : nextAlternative start [] stack c = .ok m d) : m.surroundings <+: stack.surroundings := by
  cases h
  rw [surroundings_drained]

/-- When the last operand is asked again, the operands before it stay under way. -/
theorem prefix_pullOperand (operands : List Operand) (values : List Value) (stack : Stack .tuple) :
    (pullOperand operands values stack).surroundings <+:
      stack.surroundings ++ stack.frames :: operandSurroundings stack.frames operands := by
  cases operands with
  | nil =>
    unfold pullOperand
    rw [surroundings_drained]
    exact List.prefix_append _ _
  | cons operand below =>
    obtain ⟨rest, s⟩ := operand
    unfold pullOperand
    rw [surroundings_pull, operandSurroundings]
    show (stack.surroundings ++ _ :: operandSurroundings stack.frames below) ++ _ <+: _
    rw [List.append_assoc]
    exact List.prefix_rfl

/-- The first operand is a node. -/
theorem renews_startProduct {exprs : List Expr} {stack : Stack .tuple}
    (h : startProduct exprs stack c = .ok m d) :
    Renews (stack.surroundings ++ [stack.frames]) stack.frames (Search.product exprs).evaluation? c
      m := by
  cases exprs with
  | nil =>
    cases h
    refine renews_of_prefix ?_
    rw [surroundings_found]
    simp
  | cons e rest =>
    obtain ⟨s, _, hStart, hNext⟩ := bind_eq_ok.mp h
    cases hNext
    exact .starts rfl (bind_eq_ok.mpr ⟨s, _, hStart, rfl⟩) rfl List.prefix_rfl rfl

/-- The operand that follows one with a result is a node; after the last one, nothing is
evaluated. -/
theorem renews_fillOperand {exprs : List Expr} {s : Search .value} {below : List Operand}
    {values : List Value} {v : Value} {stack : Stack .tuple}
    (h : fillOperand (.mk exprs s) below values v stack c = .ok m d) :
    Renews
      ((stack.surroundings ++ stack.frames :: operandSurroundings stack.frames below) ++
        s.surroundings stack.frames) stack.frames
      ((Pending.operand exprs below values).evaluation? v) c m := by
  cases exprs with
  | nil =>
    cases h
    refine renews_of_prefix ?_
    rw [surroundings_found]
    simp
  | cons e rest =>
    obtain ⟨s', _, hStart, hNext⟩ := bind_eq_ok.mp h
    cases hNext
    refine .starts rfl (bind_eq_ok.mpr ⟨s', _, hStart, rfl⟩) rfl ?_ rfl
    show stack.surroundings ++ stack.frames ::
      operandSurroundings stack.frames (.mk (e :: rest) s :: below) <+: _
    rw [operandSurroundings, List.append_assoc]
    exact List.prefix_rfl

/-- When the last statement that was reached is asked again, those before it stay under way. -/
theorem prefix_pullStatement (reached : List Reached) (commit : Option Nat)
    (stack : Stack .completion) :
    (pullStatement reached commit stack).surroundings <+:
      stack.surroundings ++ reachedSurroundings stack.frames reached := by
  unfold pullStatement
  split
  · rw [surroundings_drained]
    exact List.prefix_append _ _
  · split
    · rw [surroundings_drained]
      exact List.prefix_append _ _
    · rename_i index rest s below _
      show (stack.surroundings ++ reachedSurroundings stack.frames below) ++ _ <+: _
      rw [reachedSurroundings, List.append_assoc]
      exact List.prefix_rfl

/-- A statement that was just started is asked, after all those that were reached before it. -/
theorem renews_pullStatement {index : Nat} {stmt : Stmt} {rest : List Stmt} {below : List Reached}
    {stack : Stack .completion} {s : Search .completion} (hStart : stmt.start c = .ok s d)
    (commit : Option Nat) :
    Renews (stack.surroundings ++ reachedSurroundings stack.frames below) stack.frames
      (some (node stmt.start)) c (pullStatement (.mk index rest s :: below) commit stack) := by
  unfold pullStatement
  dsimp only
  split
  · -- given up at once, because a later statement has committed
    refine .keeps ?_ fun _ _ _ _ _ _ _ hPull => by cases hPull
    rw [surroundings_drained]
    exact List.prefix_append _ _
  · exact .starts rfl (bind_eq_ok.mpr ⟨s, d, hStart, rfl⟩) rfl List.prefix_rfl rfl

/-- The next statement is a node. -/
theorem renews_startStatement {index : Nat} {stmt : Stmt} {rest : List Stmt}
    {below : List Reached} {commit : Option Nat} {stack : Stack .completion}
    (h : startStatement index stmt rest below commit stack c = .ok m d) :
    Renews (stack.surroundings ++ reachedSurroundings stack.frames below) stack.frames
      (some (node stmt.start)) c m := by
  obtain ⟨s, e, hStart, hNext⟩ := bind_eq_ok.mp h
  cases hNext
  exact renews_pullStatement hStart _

theorem renews_startSequence {statements : List Stmt} {stack : Stack .completion}
    (h : startSequence statements stack c = .ok m d) :
    Renews stack.surroundings stack.frames (Search.sequence statements).evaluation? c m := by
  cases statements with
  | nil =>
    cases h
    refine renews_of_prefix ?_
    rw [surroundings_found]
    simp
  | cons stmt rest =>
    have h : startStatement 0 stmt rest [] none stack c = .ok m d := h
    have hRenews := renews_startStatement h
    rw [reachedSurroundings, List.append_nil] at hRenews
    exact hRenews

/-- After a value the next statement is evaluated; any other completion ends the sequence. -/
theorem renews_completeStatement (below : List Reached) {index : Nat} {rest : List Stmt}
    {completion : Completion} {reached : List Reached} {commit : Option Nat}
    {stack : Stack .completion}
    (h : completeStatement index rest completion reached commit stack c = .ok m d) :
    Renews (stack.surroundings ++ reachedSurroundings stack.frames reached) stack.frames
      ((Pending.statement index rest below commit).evaluation? completion) c m := by
  have hDone (hNext : (found (k := .completion) completion (.sequenced reached commit) stack) = m) :
      m.surroundings <+: stack.surroundings ++ reachedSurroundings stack.frames reached := by
    rw [← hNext, surroundings_found, Search.surroundings]
  cases rest with
  | nil =>
    cases completion <;> (cases h; exact renews_of_prefix (hDone rfl))
  | cons stmt rest =>
    cases completion with
    | value v => exact renews_startStatement h
    | _ =>
      cases h
      exact renews_of_prefix (hDone rfl)

section

variable {header : Loop} {phases : List Phase} {stack : Stack .completion}

/-- What is under way in a loop that was entered. -/
theorem prefix_pullPhase (h : pullPhase header phases stack c = .ok m d) :
    m.surroundings <+:
      stack.surroundings ++ stack.frames ::
        phaseSurroundings (header.frames ++ stack.frames) phases := by
  unfold pullPhase at h
  split at h
  · obtain ⟨u, e, -, hNext⟩ := bind_eq_ok.mp h
    cases hNext
    rw [surroundings_drained]
    exact List.prefix_append _ _
  all_goals
    cases h
    rw [surroundings_pull, phaseSurroundings, Phase.surroundings]
    simp only [Stack.surroundings, Stack.frames, Pending.surroundings, Pending.frames,
      List.append_assoc, List.cons_append]
    exact List.prefix_rfl

/-- A part that was just started is asked. -/
theorem renews_pullPhase {x : Eval Phase} {p : Phase} {e : Context} (hStart : x c = .ok p e)
    (h : pullPhase header (p :: phases) stack e = .ok m d) :
    Renews
      (stack.surroundings ++ stack.frames ::
        phaseSurroundings (header.frames ++ stack.frames) phases)
      (header.frames ++ stack.frames) (some (part x)) c m := by
  have hPart : part x c = .ok p.started e := bind_eq_ok.mpr ⟨p, e, hStart, rfl⟩
  cases p <;> (cases h; exact .starts rfl hPart rfl List.prefix_rfl rfl)

/-- A loop that completes evaluates nothing. -/
theorem prefix_completeLoop {completion : Completion}
    (h : completeLoop header phases completion stack c = .ok m d) :
    m.surroundings <+:
      stack.surroundings ++ stack.frames ::
        phaseSurroundings (header.frames ++ stack.frames) phases := by
  obtain ⟨u, e, -, hNext⟩ := bind_eq_ok.mp h
  cases hNext
  rw [surroundings_found, Search.surroundings]

/-- If the test holds the body is evaluated, and otherwise the loop completes. -/
theorem renews_afterTest (below : List Phase) {test : Value}
    (h : afterTest header phases test stack c = .ok m d) :
    Renews
      (stack.surroundings ++ stack.frames ::
        phaseSurroundings (header.frames ++ stack.frames) phases)
      (header.frames ++ stack.frames) ((Pending.test header below).evaluation? test) c m := by
  unfold afterTest at h
  split at h
  · obtain ⟨p, e, hStart, hNext⟩ := bind_eq_ok.mp h
    exact renews_pullPhase hStart hNext
  · exact renews_of_prefix (prefix_completeLoop h)
  · cases h

/-- After a body that completes, or continues, the update is evaluated. -/
theorem renews_afterBody (below : List Phase) {completion : Completion}
    (h : afterBody header phases completion stack c = .ok m d) :
    Renews
      (stack.surroundings ++ stack.frames ::
        phaseSurroundings (header.frames ++ stack.frames) phases)
      (header.frames ++ stack.frames) ((Pending.body header below).evaluation? completion) c m := by
  unfold afterBody at h
  split at h
  · obtain ⟨p, e, hStart, hNext⟩ := bind_eq_ok.mp h
    exact renews_pullPhase hStart hNext
  · obtain ⟨p, e, hStart, hNext⟩ := bind_eq_ok.mp h
    exact renews_pullPhase hStart hNext
  · exact renews_of_prefix (prefix_completeLoop h)
  · exact renews_of_prefix (prefix_completeLoop h)

end

-- ---------------------------------------------------------------------------
-- The step
-- ---------------------------------------------------------------------------

/-- What is dropped was last. -/
theorem prefix_keep_phase (around : List FrameId) (dropped : Bool) (p : Phase)
    (below : List Phase) :
    phaseSurroundings around (keep dropped p below) <+:
      phaseSurroundings around below ++ p.surroundings around := by
  cases dropped with
  | false =>
    show phaseSurroundings around (p :: below) <+: _
    rw [phaseSurroundings]
  | true => exact List.prefix_append _ _

/-- A statement that has found something is kept, or dropped if nothing more can come of it. -/
theorem prefix_keep_reached (around : List FrameId) (dropped : Bool) (index : Nat)
    (rest : List Stmt) (s : Search .completion) (below : List Reached) :
    reachedSurroundings around (keep dropped (.mk index rest s) below) <+:
      reachedSurroundings around below ++ s.surroundings around := by
  cases dropped with
  | false =>
    show reachedSurroundings around (.mk index rest s :: below) <+: _
    rw [reachedSurroundings]
  | true => exact List.prefix_append _ _

/-- A part of a loop that has found something. -/
theorem prefix_keep_loop (header : Loop) (dropped : Bool) (p : Phase) (below : List Phase)
    (stack : Stack .completion) :
    stack.surroundings ++ stack.frames ::
        phaseSurroundings (header.frames ++ stack.frames) (keep dropped p below) <+:
      (stack.surroundings ++ stack.frames ::
        phaseSurroundings (header.frames ++ stack.frames) below) ++
          p.surroundings (header.frames ++ stack.frames) := by
  rw [List.append_assoc, List.prefix_append_right_inj, List.cons_append, List.cons_prefix_cons]
  exact ⟨rfl, prefix_keep_phase _ _ _ _⟩

/-- A search that is asked for a result, one case for each form of search. -/
theorem renews_stepPull {k : Kind} {s : Search k} {stack : Stack k}
    (h : stepPull s stack c = .ok m d) (hInner : c.inner = stack.frames) :
    Renews (pull s stack).surroundings ((pull s stack).opening c).inner s.evaluation?
      ((pull s stack).opening c) m := by
  have hMore : stack.surroundings <+: (pull s stack).surroundings := List.prefix_append _ _
  -- a search that is taken apart into what waits and the part that is asked
  have hParts {i : Kind} (inner : Search i) (p : Pending i k) (hNext : m = pull inner (.push p stack))
      (hSame : p.surroundings stack.frames ++ inner.surroundings (p.frames ++ stack.frames) =
        s.surroundings stack.frames) : m.surroundings <+: (pull s stack).surroundings := by
    rw [hNext, surroundings_pull, surroundings_pull, ← hSame]
    show (stack.surroundings ++ _) ++ _ <+: _
    rw [List.append_assoc]
    exact List.prefix_rfl
  cases s with
  | once item =>
    cases item with
    | none =>
      cases h
      refine renews_of_prefix ?_
      rw [surroundings_drained]
      exact hMore
    | some item =>
      cases h
      refine renews_of_prefix ?_
      rw [surroundings_found, surroundings_pull, Search.failed, Search.surroundings,
        Search.surroundings]
  | map f inner | bind f outer | binding f outer inner | within frame inner =>
    cases h
    exact renews_of_prefix (hParts _ _ rfl (by rw [Search.surroundings]; rfl))
  | choice alternatives =>
    obtain ⟨start, e, hNote, hNext⟩ := bind_eq_ok.mp h
    cases hNote
    cases alternatives with
    | nil => exact renews_of_prefix ((prefix_nextAlternative_nil hNext).trans hMore)
    | cons e left =>
      -- where the choice is asked, the frames in force are those that the stack tells
      have hRenews := renews_alternative hNext
      rw [← hInner] at hRenews
      rw [surroundings_pull, Search.surroundings, ← hInner]
      exact hRenews
  | choosing start current alternatives =>
    cases current with
    | none =>
      cases alternatives with
      | nil => exact renews_of_prefix ((prefix_nextAlternative_nil h).trans hMore)
      | cons e left =>
        have hRenews := renews_alternative h
        rw [surroundings_pull, Search.surroundings]
        rw [← hInner] at hRenews ⊢
        exact hRenews
    | some s =>
      cases h
      exact renews_of_prefix (hParts _ _ rfl (by rw [Search.surroundings]; rfl))
  | product exprs =>
    have hRenews := renews_startProduct h
    rw [surroundings_pull, Search.surroundings]
    rw [← hInner] at hRenews ⊢
    exact hRenews
  | producing operands values =>
    cases h
    refine renews_of_prefix ?_
    rw [surroundings_pull, Search.surroundings]
    exact prefix_pullOperand _ _ _
  | sequence statements =>
    have hRenews := renews_startSequence h
    rw [← hInner] at hRenews
    exact hRenews.mono hMore
  | sequenced reached commit =>
    cases h
    refine renews_of_prefix ?_
    rw [surroundings_pull, Search.surroundings]
    exact prefix_pullStatement _ _ _
  | loop header =>
    obtain ⟨u, e, hEnter, hRest⟩ := bind_eq_ok.mp h
    rw [enterLoop_apply] at hEnter
    cases hEnter
    obtain ⟨p, e, hStart, hNext⟩ := bind_eq_ok.mp hRest
    have hRenews := renews_pullPhase hStart hNext
    -- a loop with variables enters their frame before its first part is evaluated
    have hEntered : (header.entered c).inner = header.frames ++ stack.frames := by
      rw [← hInner]
      cases header <;> rfl
    rw [← hEntered, phaseSurroundings] at hRenews
    rw [surroundings_pull, Search.surroundings]
    exact hRenews
  | looping header phases =>
    obtain ⟨u, e, hEnter, hNext⟩ := bind_eq_ok.mp h
    refine renews_of_prefix ?_
    rw [surroundings_pull, Search.surroundings]
    exact prefix_pullPhase hNext

/-- What waits has got a result, one case for each way to wait. -/
theorem renews_stepFound {i o : Kind} {item : i.Item} {rest : Search i} {p : Pending i o}
    {stack : Stack o} (h : stepFound retire item rest p stack c = .ok m d) :
    Renews (found item rest (.push p stack)).surroundings (p.frames ++ stack.frames)
      (p.evaluation? item) c m := by
  have hAll : (found item rest (.push p stack)).surroundings =
      (stack.surroundings ++ p.surroundings stack.frames) ++
        rest.surroundings (p.frames ++ stack.frames) := rfl
  -- what waits is put together again with what is left of its part
  have hWhole {s : Search o} {y : o.Item} (hNext : m = found y s stack)
      (hSame : s.surroundings stack.frames <+:
        p.surroundings stack.frames ++ rest.surroundings (p.frames ++ stack.frames)) :
      m.surroundings <+: (found item rest (.push p stack)).surroundings := by
    rw [hNext, hAll, surroundings_found, List.append_assoc, List.prefix_append_right_inj]
    exact hSame
  cases p with
  | map f =>
    obtain ⟨y, e, -, hNext⟩ := bind_eq_ok.mp h
    cases hNext
    refine renews_of_prefix (hWhole rfl ?_)
    rw [Search.surroundings]
    exact List.prefix_rfl
  | outer f =>
    obtain ⟨s, e, hStart, hNext⟩ := bind_eq_ok.mp h
    cases hNext
    refine .starts rfl (bind_eq_ok.mpr ⟨s, _, hStart, rfl⟩) rfl ?_ rfl
    rw [hAll, List.append_assoc]
    exact List.prefix_rfl
  | inner f outer =>
    cases h
    refine renews_of_prefix (hWhole rfl ?_)
    split
    · rw [Search.surroundings]
      exact List.prefix_append _ _
    · rw [Search.surroundings]
      exact List.prefix_rfl
  | within frame =>
    obtain ⟨u, e, -, hNext⟩ := bind_eq_ok.mp h
    cases hNext
    refine renews_of_prefix (hWhole rfl ?_)
    rw [Search.surroundings]
    exact List.prefix_rfl
  | choosing start alternatives =>
    cases h
    refine renews_of_prefix (hWhole rfl ?_)
    rw [Search.surroundings]
    exact List.prefix_rfl
  | operand exprs below values => exact renews_fillOperand h
  | statement index stmts below commit =>
    refine (renews_completeStatement below h).mono ?_
    rw [hAll, List.append_assoc, List.prefix_append_right_inj]
    exact prefix_keep_reached _ _ _ _ _ _
  | init header below =>
    obtain ⟨p, e, hStart, hNext⟩ := bind_eq_ok.mp h
    exact (renews_pullPhase hStart hNext).mono (prefix_keep_loop header _ (.init rest) below stack)
  | test header below =>
    exact (renews_afterTest below h).mono
      (prefix_keep_loop header _ (.test rest) below stack)
  | body header below =>
    exact (renews_afterBody below h).mono
      (prefix_keep_loop header _ (.body rest) below stack)
  | update header below =>
    obtain ⟨p, e, hStart, hNext⟩ := bind_eq_ok.mp h
    exact (renews_pullPhase hStart hNext).mono (prefix_keep_loop header _ (.update rest) below stack)

/-- What waits has got no result. Only a choice evaluates a node then, and does so in the context
that it has gone back to. -/
theorem renews_stepDrained {i o : Kind} {rest : Search i} {p : Pending i o} {stack : Stack o}
    (h : stepDrained rest p stack c = .ok m d) (hInner : c.inner = p.frames ++ stack.frames)
    (hRestore : ∀ start, p.restores? = some start → (c.restore start).inner = c.inner) :
    Renews (drained rest (.push p stack)).surroundings
      ((drained rest (.push p stack)).opening c).inner (drained rest (.push p stack)).evaluation?
      ((drained rest (.push p stack)).opening c) m := by
  have hAll : (drained rest (.push p stack)).surroundings =
      stack.surroundings ++ p.surroundings stack.frames := surroundings_drained _ _
  have hDrained {s : Search o} (hNext : m = drained s stack) :
      m.surroundings <+: (drained rest (.push p stack)).surroundings := by
    rw [hNext, hAll, surroundings_drained]
    exact List.prefix_append _ _
  rw [hAll] at hDrained ⊢
  cases p with
  | map f =>
    cases h
    exact renews_of_prefix (hDrained rfl)
  | outer f =>
    cases h
    exact renews_of_prefix (hDrained rfl)
  | inner f outer =>
    cases h
    refine renews_of_prefix ?_
    rw [surroundings_pull]
    show (stack.surroundings ++ [stack.frames]) ++ _ <+: _
    rw [List.append_assoc]
    exact List.prefix_rfl
  | within frame =>
    obtain ⟨u, e, -, hNext⟩ := bind_eq_ok.mp h
    cases hNext
    exact renews_of_prefix (hDrained rfl)
  | choosing start alternatives =>
    obtain ⟨u, e, hBack, hNext⟩ := bind_eq_ok.mp h
    cases hBack
    cases alternatives with
    | nil => exact renews_of_prefix ((prefix_nextAlternative_nil hNext).trans (List.prefix_append _ _))
    | cons e left =>
      have hRenews := renews_alternative hNext
      -- going back does not change which frames are in force, so that `hInner` carries over
      have hSame : (c.restore start).inner = stack.frames := (hRestore start rfl).trans hInner
      rw [← hSame] at hRenews ⊢
      exact hRenews
  | operand exprs below values =>
    cases h
    exact renews_of_prefix (prefix_pullOperand _ _ _)
  | statement index stmts below commit =>
    cases h
    exact renews_of_prefix (prefix_pullStatement _ _ _)
  | init header below | test header below | body header below | update header below =>
    exact renews_of_prefix (prefix_pullPhase h)

/-- A step gives up the last searches under way, or none; and if it evaluates a node, the search
that this comes to is asked inside the frames that were in force at that. -/
theorem renews_step {m' : Machine} (h : m.step retire c = .ok m' d)
    (hInner : c.inner = m.stack.frames)
    (hRestore : ∀ start, m.restores? = some start → (c.restore start).inner = c.inner) :
    Renews m.surroundings (m.opening c).inner m.evaluation? (m.opening c) m' := by
  obtain ⟨k, walk, stack⟩ := m
  cases walk with
  | pull s => exact renews_stepPull h hInner
  | found item rest =>
    cases stack with
    | nil =>
      cases h
      exact renews_of_prefix List.prefix_rfl
    | push p below =>
      have hRenews := renews_stepFound h
      -- what is started takes over the frames in force, which are the stack's
      rw [show p.frames ++ below.frames = c.inner from hInner.symm] at hRenews
      exact hRenews
  | drained rest =>
    cases stack with
    | nil =>
      cases h
      exact renews_of_prefix List.prefix_rfl
    | push p below => exact renews_stepDrained h hInner hRestore

end Machine

end AmbScript
