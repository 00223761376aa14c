import AmbScript.Proofs.Scoping.Consulted

/-!
# Where names are found

If the machine is in its place, the name that a step consults stands in a program in just the scopes
that the current frame was made for. So the text tells where it is found.

* `Machine.Placed.exists_node` — the piece of a program that a step goes on with is in its place.
* `Chart.Occurs` — a name stands at a place of a program.
* `Chart.Resolves` — a name that is consulted is found where the text tells.
* `Machine.Placed.exists_resolves` — so is every name that is consulted.
-/

namespace AmbScript

variable {ch : Chart} {outer : List FrameId} {f : FrameId}

open Eval

-- ---------------------------------------------------------------------------
-- The place of a name
-- ---------------------------------------------------------------------------

/-- The name that an expression begins with stands in it. -/
theorem Chart.Places.exists_leading_expr : ∀ {e : Expr} {name : Ident}, ch.Places f (.expr e) →
    e.leading? = some name → ∃ n, ch.Places f n ∧ n.ident? = some name
  | .ident _, _, h, hName => ⟨_, h, hName⟩
  | .assign _ value _, _, h, hName => exists_leading_expr
      (h.part (.expr value) (List.mem_cons_of_mem _ List.mem_cons_self)) hName
  | .unary _ operand _, _, h, hName =>
    exists_leading_expr (h.part (.expr operand) List.mem_cons_self) hName
  | .binary _ left _ _, _, h, hName =>
    exists_leading_expr (h.part (.expr left) List.mem_cons_self) hName
  | .logical _ left _ _, _, h, hName =>
    exists_leading_expr (h.part (.expr left) List.mem_cons_self) hName
  | .conditional test _ _ _, _, h, hName =>
    exists_leading_expr (h.part (.expr test) List.mem_cons_self) hName
  | .call callee args _, name, h, hName => by
    -- amb starts with none of its alternatives, require with its predicate, any other call with its
    -- callee
    unfold Expr.leading? at hName
    dsimp only at hName
    split at hName
    · cases hName
    split at hName
    · unfold leadingRequire? at hName
      split at hName
      · rename_i predicate
        exact exists_leading_expr (h.part (.expr predicate)
          (List.mem_map_of_mem (List.mem_cons_of_mem _ List.mem_cons_self))) hName
      · cases hName
    · exact exists_leading_expr (h.part (.expr callee) (List.mem_map_of_mem List.mem_cons_self)) hName
  | .index object _ _, _, h, hName =>
    exists_leading_expr (h.part (.expr object) List.mem_cons_self) hName
  | .member object _ _, _, h, hName =>
    exists_leading_expr (h.part (.expr object) List.mem_cons_self) hName

theorem Chart.Places.exists_leading {n : Node} {name : Ident} (h : ch.Places f n)
    (hName : n.leading? = some name) : ∃ n', ch.Places f n' ∧ n'.ident? = some name := by
  -- the first thing consulted is inside the first part that is started
  have hBranch {b : Branch} (h : ch.Places f (.branch b)) (hName : b.leading? = some name) :
      ∃ n', ch.Places f n' ∧ n'.ident? = some name := by
    cases b with
    | mk test consequent otherwise span =>
      exact exists_leading_expr (h.part (.expr test) List.mem_cons_self) hName
  cases n with
  | target target => exact ⟨_, h, hName⟩
  | expr e => exact h.exists_leading_expr hName
  | stmt s =>
    cases s with
    | expr e => exact exists_leading_expr (h.part (.expr e) List.mem_cons_self) hName
    | declare isConst declared init span =>
      exact exists_leading_expr (h.part (.expr init) List.mem_cons_self) hName
    | returns value span =>
      exact exists_leading_expr (h.part (.expr value) List.mem_cons_self) hName
    | branch b => exact hBranch (h.part (.branch b) List.mem_cons_self) hName
    | _ => cases hName
  | branch b => exact hBranch h hName
  | alternate a =>
    cases a with
    | branch b => exact hBranch (h.part (.branch b) List.mem_cons_self) hName
    | _ => cases hName
  | _ => cases hName

/-- What a result is gone on with is in its place. -/
theorem Expansion.Placed.places_node {i o : Kind} {g : Expansion i o} (h : g.Placed ch f)
    {item : i.Item} {n : Node} (hn : g.node? item = some n) : ch.Places f n := by
  unfold Expansion.node? at hn
  split at hn <;> cases hn
  · exact h
  · exact h
  · exact h
  · exact h.1
  · exact h.2
  · exact h
  · exact h.1
  · exact h.2

/-- What is gone on with after a result is in its place, in the frame that the part was asked in. -/
theorem Pending.Placed.places_node {i o : Kind} {p : Pending i o} {fs : List FrameId}
    (h : p.Placed ch (innermost outer fs)) {item : i.Item} {n : Node} (hn : p.node? item = some n) :
    ch.Places (innermost outer (p.frames ++ fs)) n := by
  cases h with
  | @map i o g hg =>
    cases g with
    | assign target =>
      cases hn
      exact hg
    | _ => cases hn
  | outer hg => exact hg.places_node hn
  | @operand rest hRest below hBelow values hValues =>
    cases rest with
    | nil => cases hn
    | cons e rest =>
      cases hn
      exact hRest e List.mem_cons_self
  | @statement index rest hRest below hBelow commit =>
    cases rest with
    | nil => cases item <;> cases hn
    | cons stmt rest =>
      cases item with
      | value v =>
        cases hn
        exact hRest stmt List.mem_cons_self
      | _ => cases hn
  -- a loop's parts are started in the frame of its variables
  | @init header hHeader =>
    show ch.Places (innermost outer (header.frames ++ fs)) n
    rw [innermost_loop]
    exact hHeader.places_test hn
  | @body header hHeader =>
    show ch.Places (innermost outer (header.frames ++ fs)) n
    rw [innermost_loop]
    cases item with
    | value v => exact hHeader.places_next hn
    | continueLoop => exact hHeader.places_next hn
    | _ => cases hn
  | @update header hHeader =>
    show ch.Places (innermost outer (header.frames ++ fs)) n
    rw [innermost_loop]
    exact hHeader.places_test hn
  | _ => cases hn

namespace Machine

/-- The piece that a step goes on with is in its place in the frame that it is evaluated in. -/
theorem Placed.exists_node {m : Machine} (h : m.Placed ch outer) (hLevel : ∀ x ∈ m.holdings, Level x)
    {c : Context} (hStands : c.Stands ch outer m.stack.frames) {n : Node} (hn : m.node? = some n) :
    ∃ fs, (m.opening c).Stands ch outer fs ∧ ch.Places (innermost outer fs) n := by
  obtain ⟨k, walk, stack⟩ := m
  have hStack : stack.Placed ch outer := h.stack
  have hWalk : walk.Placed ch (innermost outer stack.frames) := h.walk
  cases hWalk with
  | @pull s hs =>
    have hn : s.node? = some n := hn
    -- most pulls start their node in the frames of the stack
    have hHere (hc : s.opening c = c) (hPlaces : ch.Places (innermost outer stack.frames) n) :
        ∃ fs, (s.opening c).Stands ch outer fs ∧ ch.Places (innermost outer fs) n :=
      ⟨stack.frames, hc.symm ▸ hStands, hPlaces⟩
    show ∃ fs, (s.opening c).Stands ch outer fs ∧ ch.Places (innermost outer fs) n
    generalize hf : innermost outer stack.frames = f at hs hHere
    cases hs with
    | @choice _ alternatives hAll =>
      cases alternatives with
      | nil => cases hn
      | cons e rest =>
        cases hn
        exact ⟨stack.frames, ⟨hStands.fits.mark, hStands.inner, hStands.outer⟩,
          hf ▸ hAll e List.mem_cons_self⟩
    | @between _ start alternatives hAll =>
      cases alternatives with
      | nil => cases hn
      | cons e rest =>
        cases hn
        exact hHere rfl (hAll e List.mem_cons_self)
    | @product _ exprs hAll =>
      cases exprs with
      | nil => cases hn
      | cons e rest =>
        cases hn
        exact hHere rfl (hAll e List.mem_cons_self)
    | @sequence _ statements hOpens =>
      cases statements with
      | nil => cases hn
      | cons stmt rest =>
        cases hn
        exact hHere rfl (hOpens.places stmt List.mem_cons_self)
    | @loop _ header hHeader =>
      -- a loop enters its own frame first
      refine ⟨header.frames ++ stack.frames, ?_, ?_⟩
      · cases header with
        | whileLoop test body => exact hStands
        | forLoop init test update body frame =>
          exact ⟨hStands.fits, congrArg (frame :: ·) hStands.inner, hStands.outer⟩
      · rw [innermost_loop, hf]
        exact hHeader.places_first hn
    | _ => cases hn
  | @found item hItem s hs =>
    cases hStack with
    | nil => cases hn
    | @push _ _ p below hp hBelow =>
      have hn : p.node? item = some n := hn
      refine ⟨p.frames ++ below.frames, hStands, ?_⟩
      exact hp.places_node hn
  | @drained s hs =>
    cases hStack with
    | nil => cases hn
    | @push _ _ p below hp hBelow =>
      have hn : p.otherwise? = some n := hn
      cases hp with
      | @choosing start alternatives hAll =>
        -- the next alternative starts in the frames that were in force at the choice
        have hDepth := innerDepth_of_restores hLevel rfl
        cases alternatives with
        | nil => cases hn
        | cons e rest =>
          cases hn
          exact ⟨below.frames, hStands.restore hDepth, hAll e List.mem_cons_self⟩
      | _ => cases hn

end Machine

-- ---------------------------------------------------------------------------
-- Where the name is found
-- ---------------------------------------------------------------------------

namespace Chart

/-- In the program that has the frame `g` the name stands at this place, in these scopes. -/
def Occurs (ch : Chart) (g : FrameId) (path : List Nat) (name : Ident) (layout : Layout) : Prop :=
  ∃ n, ch.at? g path = some (layout, n) ∧ n.ident? = some name

/-- The innermost scope around any place of a program is one of that program. -/
theorem head_of_at? {g : FrameId} {path : List Nat} {layout : Layout} {n : Node}
    (h : ch.at? g path = some (layout, n)) :
    (path = [] ∧ ∃ statements, n = .program statements) ∨
      layout.head?.map Site.program = some g := by
  -- by induction on the path: each step of it stays in a scope of the program or opens one
  induction path generalizing layout n with
  | nil =>
    obtain ⟨_, -, h⟩ := Option.bind_eq_some_iff.mp h
    obtain ⟨statements, -, h⟩ := Option.bind_eq_some_iff.mp h
    cases h
    exact .inl ⟨rfl, statements, rfl⟩
  | cons i path ih =>
    obtain ⟨⟨outside, whole⟩, hWhole, h⟩ := Option.bind_eq_some_iff.mp h
    obtain ⟨⟨constructs, part⟩, hPart, h⟩ := Option.bind_eq_some_iff.mp h
    cases h
    cases constructs with
    | cons construct constructs => exact .inr rfl
    | nil =>
      rcases ih hWhole with ⟨-, statements, rfl⟩ | hHead
      · -- the statements of a program are in the scope of the program
        obtain ⟨s, -, hs⟩ := List.mem_map.mp (List.mem_of_getElem? hPart)
        cases hs
      · exact .inr hHead

/-- A name that is consulted, from the current frame of `c`: it stands in the innermost program
around that frame, and what the text tells of this place is where the name is found, or that it is
nowhere to be found. -/
structure Resolves (ch : Chart) (c : Context) (name : Ident) (g : FrameId) (path : List Nat)
    (layout : Layout) : Prop where
  occurs : ch.Occurs g path name layout
  program : layout.head?.map Site.program = some g
  current : ch.layout c.current = some layout
  found : ∀ n, layout.hops? name.name = some n → ∃ f b,
    c.store.resolve? c.current name.name = some (f, b) ∧ (c.store.chain c.current)[n]? = some f ∧
      ch.layout f = some (layout.drop n)
  never : layout.hops? name.name = none → c.store.resolve? c.current name.name = none

/-- What a chart says of a name, a larger one says too. -/
theorem Resolves.mono {ch' : Chart} (hle : ch ≤ ch') {c : Context} {name : Ident} {g : FrameId}
    {path : List Nat} {layout : Layout} (h : ch.Resolves c name g path layout) :
    ch'.Resolves c name g path layout where
  occurs := by
    obtain ⟨n, hAt, hIdent⟩ := h.occurs
    exact ⟨n, at?_mono hle hAt, hIdent⟩
  program := h.program
  current := layout_mono hle h.current
  found n hn := by
    obtain ⟨f, b, hResolved, hChain, hLayout⟩ := h.found n hn
    exact ⟨f, b, hResolved, hChain, layout_mono hle hLayout⟩
  never := h.never

end Chart

/-- What a step consults is found where the text tells. -/
theorem Machine.Placed.exists_resolves {m : Machine} (h : m.Placed ch outer)
    (hLevel : ∀ x ∈ m.holdings, Level x) {c : Context} (hStands : c.Stands ch outer m.stack.frames)
    {name : Ident} (hName : m.consults? = some name) :
    ∃ g path layout, ch.Resolves (m.opening c) name g path layout := by
  obtain ⟨n, hn, hLeading⟩ := Option.bind_eq_some_iff.mp hName
  obtain ⟨fs, hOpening, hPlaces⟩ := h.exists_node hLevel hStands hn
  obtain ⟨n', ⟨layout, g, path, hLayout, hAt⟩, hIdent⟩ := hPlaces.exists_leading hLeading
  rw [← hOpening.current] at hLayout
  obtain ⟨hFound, hNever⟩ := hOpening.fits.resolve? name.name hLayout
  refine ⟨g, path, layout, ⟨n', hAt, hIdent⟩, ?_, hLayout, hFound, hNever⟩
  rcases Chart.head_of_at? hAt with ⟨-, statements, rfl⟩ | hHead
  · cases hIdent
  · exact hHead

end AmbScript
