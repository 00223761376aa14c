import AmbScript.Proofs.Parser.Heights
import AmbScript.Proofs.Parser.RenderedStatements
import AmbScript.Proofs.Token.Splitting

/-!
# Programs of any height

The branch behind an `else if` stands at the level of the one before it, so a program may have any
number of them. This is followed from the text of such a program to its tokens, and from these to a
tree that is as high.

* `elseIfs`, `elseIfText` — the branches and their text.
* `Lexer.CutsInto` — a part of a line that is cut into tokens of known kinds.
* `exists_links` — texts of programs with chains of any length.
* `heights_unbounded` — no bound holds for the heights of all programs.
-/

namespace AmbScript

open AmbScript.Parser

-- ---------------------------------------------------------------------------
-- The branches
-- ---------------------------------------------------------------------------

/-- `if (true) { } else if (true) { } …`, with `n` branches behind the first one. -/
def elseIfs : Nat → Branch
  | 0 => .mk (.bool true .synthetic) (.mk [] .synthetic) .absent .synthetic
  | n + 1 => .mk (.bool true .synthetic) (.mk [] .synthetic) (.branch (elseIfs n)) .synthetic

/-- The program of that branch alone. -/
def elseIfProgram (n : Nat) : Program := ⟨.mk [.branch (elseIfs n)] .synthetic, .synthetic⟩

/-- There is nothing in the branches that has to be in a loop or a function. -/
theorem elseIfs_valid (n : Nat) (pl : Placement) : (elseIfs n).Valid pl := by
  induction n with
  | zero => simp [elseIfs, Branch.Valid, Alternate.Valid, Block.Valid, Stmt.AllValid, Expr.Valid]
  | succ n ih =>
    simpa [elseIfs, Branch.Valid, Alternate.Valid, Block.Valid, Stmt.AllValid, Expr.Valid] using ih

/-- No more than one expression and its parentheses are open at once. -/
theorem elseIfs_nesting (n : Nat) : (elseIfs n).nesting = 2 := by
  induction n with
  | zero => rfl
  | succ n ih => simp [elseIfs, Branch.nesting, Alternate.nesting, Block.nesting, Stmt.allNesting,
      Expr.nesting, ih]

/-- Each further branch is one link on the way down, wherever the tokens stood. -/
theorem links_of_elseIfs {n : Nat} {b : Branch} (h : b.withoutSpans = (elseIfs n).withoutSpans) :
    n ≤ b.weigh 1 0 := by
  induction n generalizing b with
  | zero => exact Nat.zero_le _
  | succ n ih =>
    obtain ⟨test, consequent, alternate, span⟩ := b
    cases alternate with
    | absent => simp [elseIfs, Branch.withoutSpans, Alternate.withoutSpans] at h
    | block b => simp [elseIfs, Branch.withoutSpans, Alternate.withoutSpans] at h
    | branch b =>
      simp only [elseIfs, Branch.withoutSpans, Alternate.withoutSpans, Branch.mk.injEq,
        Alternate.branch.injEq] at h
      have hRest := ih h.2.2.1
      rw [Branch.weigh, Alternate.weigh]
      omega

theorem links_of_elseIfProgram {n : Nat} {p : Program}
    (h : p.withoutSpans = (elseIfProgram n).withoutSpans) : n ≤ p.links := by
  obtain ⟨⟨ss, span⟩, span'⟩ := p
  cases ss with
  | nil => simp [elseIfProgram, Program.withoutSpans, Block.withoutSpans, Stmt.allWithoutSpans] at h
  | cons s ss =>
    simp only [elseIfProgram, Program.withoutSpans, Block.withoutSpans, Stmt.allWithoutSpans,
      Program.mk.injEq, Block.mk.injEq, List.cons.injEq, and_true] at h
    cases s with
    | branch b =>
      simp only [Stmt.withoutSpans, Stmt.branch.injEq] at h
      have hBranch := links_of_elseIfs h.1
      rw [Program.links, Block.weigh, Stmt.weighAll, Stmt.weigh]
      omega
    | _ => simp [Stmt.withoutSpans] at h

-- ---------------------------------------------------------------------------
-- Their text
-- ---------------------------------------------------------------------------

/-- The text of the branches. -/
def elseIfText : Nat → List Char
  | 0 => "if((true))\x7b\x7d".toList
  | n + 1 => "if((true))\x7b\x7d".toList ++ ("else ".toList ++ elseIfText n)

/-- The branches as a source. -/
def elseIfSource (n : Nat) : Source where
  name := "branches"
  text := String.ofList (elseIfText n)

namespace Lexer

/-- Wherever it stands before `rest`, `text` is cut into tokens of these kinds, all on one line. -/
def CutsInto (text rest : List Char) (ks : List Token.Kind) : Prop :=
  ∀ (source : Source) (p : Position) (tokens : List Token) (fuel : Nat), text.length ≤ fuel →
    ∃ (body : List Token) (q : Position) (left : Nat), fuel ≤ left + text.length ∧
      loop source fuel ⟨p, text ++ rest⟩ tokens .empty =
        loop source left ⟨q, rest⟩ (body.reverse ++ tokens) .empty ∧
      body.map (·.kind) = ks ∧ q.line = p.line ∧
      ∀ t ∈ body, t.span.start.line = p.line ∧ t.span.stop.line = p.line

variable {ch : Char} {cs text more rest : List Char} {ks ls : List Token.Kind}

/-- A part behind another one is cut into the tokens of both. -/
theorem CutsInto.append (h : CutsInto text (more ++ rest) ks) (h' : CutsInto more rest ls) :
    CutsInto (text ++ more) rest (ks ++ ls) := by
  intro source p tokens fuel hFuel
  rw [List.length_append] at hFuel
  obtain ⟨body, q, left, hLeft, hCut, hKinds, hLine, hBody⟩ := h source p tokens fuel (by omega)
  obtain ⟨body', q', left', hLeft', hCut', hKinds', hLine', hBody'⟩ :=
    h' source q (body.reverse ++ tokens) left (by omega)
  refine ⟨body ++ body', q', left', ?_, ?_, ?_, hLine'.trans hLine, fun t ht => ?_⟩
  · rw [List.length_append]
    omega
  · rw [List.append_assoc, hCut, hCut', List.reverse_append, List.append_assoc]
  · rw [List.map_append, hKinds, hKinds']
  · rcases List.mem_append.mp ht with ht | ht
    · exact hBody t ht
    · rw [← hLine]
      exact hBody' t ht

/-- A part that is one token. -/
theorem cutsInto_token {k : Token.Kind} (hLine : '\n' ∉ ch :: cs)
    (hPiece : ∀ (source : Source) (p : Position), piece source ch ⟨p, ch :: cs ++ rest⟩ =
      ⟨some k, ⟨p.afterText (ch :: cs), rest⟩, []⟩) : CutsInto (ch :: cs) rest [k] := by
  intro source p tokens fuel hFuel
  obtain ⟨fuel, rfl⟩ : ∃ m, fuel = m + 1 := ⟨fuel - 1, by rw [List.length_cons] at hFuel; omega⟩
  refine ⟨[⟨k, _⟩], _, fuel, ?_, loop_token rfl rfl (hPiece source p), rfl, ?_, ?_⟩
  · rw [List.length_cons]
    omega
  · rw [Position.afterText_of_oneLine hLine]
  · intro t ht
    rw [List.mem_singleton.mp ht, Cursor.spanFrom, Position.afterText_of_oneLine hLine]
    exact ⟨rfl, rfl⟩

/-- A part that is no token: space within the line. -/
theorem cutsInto_gap (hLine : '\n' ∉ ch :: cs)
    (hPiece : ∀ (source : Source) (p : Position), piece source ch ⟨p, ch :: cs ++ rest⟩ =
      ⟨none, ⟨p.afterText (ch :: cs), rest⟩, []⟩) : CutsInto (ch :: cs) rest [] := by
  intro source p tokens fuel hFuel
  obtain ⟨fuel, rfl⟩ : ∃ m, fuel = m + 1 := ⟨fuel - 1, by rw [List.length_cons] at hFuel; omega⟩
  refine ⟨[], _, fuel, ?_, loop_gap rfl rfl (hPiece source p), rfl, ?_, fun t ht => ?_⟩
  · rw [List.length_cons]
    omega
  · rw [Position.afterText_of_oneLine hLine]
  · cases ht

/-- One branch without what follows it. -/
theorem cutsInto_if (rest : List Char) : CutsInto "if((true))\x7b\x7d".toList rest
    (.symbol .ifBranch :: (parens (parens [.symbol .true]) ++ braces [])) := by
  have hIf (rest) : CutsInto ['i', 'f'] ('(' :: rest) [.symbol .ifBranch] :=
    cutsInto_token (by decide) fun _ _ => rfl
  have hOpen (rest) : CutsInto ['('] rest [.symbol .openParen] :=
    cutsInto_token (by decide) fun _ _ => rfl
  have hTrue (rest) : CutsInto ['t', 'r', 'u', 'e'] (')' :: rest) [.symbol .true] :=
    cutsInto_token (by decide) fun _ _ => rfl
  have hClose (rest) : CutsInto [')'] rest [.symbol .closeParen] :=
    cutsInto_token (by decide) fun _ _ => rfl
  have hOpenBrace (rest) : CutsInto ['\x7b'] rest [.symbol .openBrace] :=
    cutsInto_token (by decide) fun _ _ => rfl
  have hCloseBrace (rest) : CutsInto ['\x7d'] rest [.symbol .closeBrace] :=
    cutsInto_token (by decide) fun _ _ => rfl
  exact (hIf _).append ((hOpen _).append ((hOpen _).append ((hTrue _).append ((hClose _).append
    ((hClose _).append ((hOpenBrace _).append (hCloseBrace _)))))))

/-- The word and the space before the next branch. -/
theorem cutsInto_else (rest : List Char) :
    CutsInto "else ".toList ('i' :: rest) [.symbol .elseBranch] := by
  have hElse : CutsInto ['e', 'l', 's', 'e'] (' ' :: 'i' :: rest) [.symbol .elseBranch] :=
    cutsInto_token (by decide) fun _ _ => rfl
  have hBlank : CutsInto [' '] ('i' :: rest) [] := cutsInto_gap (by decide) fun _ _ => rfl
  exact hElse.append hBlank

/-- All branches, one behind the other. -/
theorem cutsInto_elseIfs (n : Nat) : CutsInto (elseIfText n) [] (elseIfs n).rendering := by
  induction n with
  | zero => exact cutsInto_if []
  | succ n ih =>
    obtain ⟨cs, hText⟩ : ∃ cs, elseIfText n = 'i' :: cs := by cases n <;> exact ⟨_, rfl⟩
    have hElse := cutsInto_else cs
    rw [← hText] at hElse
    have hRest : CutsInto ("else ".toList ++ elseIfText n) []
        (.symbol .elseBranch :: (elseIfs n).rendering) := .append (by rwa [List.append_nil]) ih
    exact (cutsInto_if _).append hRest

/-- The whole text is cut into the tokens of the branches, on its one line. -/
theorem run_elseIfs (n : Nat) : ∃ (body : List Token) (stop : Span),
    run (elseIfSource n) = ⟨body ++ [.eof stop], .empty⟩ ∧
      body.map (·.kind) = (elseIfs n).rendering ∧
      ∀ t ∈ body, t.span.start.line = 1 ∧ t.span.stop.line = 1 := by
  obtain ⟨body, q, left, -, hCut, hKinds, -, hBody⟩ :=
    cutsInto_elseIfs n (elseIfSource n) ⟨1, 1⟩ [] _ (Nat.le_refl _)
  rw [List.append_nil, List.append_nil, loop_at_end] at hCut
  refine ⟨body, .point q, ?_, hKinds, hBody⟩
  rw [run, Cursor.ofText, elseIfSource, String.toList_ofList]
  refine hCut.trans ?_
  rw [finish, List.reverse_cons, List.reverse_reverse]

end Lexer

-- ---------------------------------------------------------------------------
-- Their program
-- ---------------------------------------------------------------------------

/-- Tokens of the branches, on one line, are read as a program with as long a chain. -/
theorem exists_program_of_elseIfs (source : Source) (stop : Span) {n line : Nat} {body : List Token}
    (hKinds : body.map (·.kind) = (elseIfs n).rendering)
    (hLine : ∀ t ∈ body, t.span.start.line = line ∧ t.span.stop.line = line) :
    ∃ p, (parseTokens source (body ++ [.eof stop])).program = some p ∧ n ≤ p.links := by
  have hValid : (elseIfProgram n).Valid := ⟨elseIfs_valid n .program, trivial⟩
  -- the limit is met, however many branches there are
  have hNesting : (elseIfProgram n).nesting ≤ maxNestingDepth := by
    simp [elseIfProgram, Program.nesting, Stmt.allNesting, Stmt.nesting, Block.statements,
      elseIfs_nesting, maxNestingDepth]
  have hRendering : (elseIfProgram n).rendering = (elseIfs n).rendering := List.append_nil _
  have hPlain := Branch.plain_rendering (elseIfs n)
  have hBody (t) (ht : t ∈ body) : t.kind ≠ .symbol .eof ∧ t.kind ≠ .symbol .arrow :=
    hPlain t.kind (hKinds ▸ List.mem_map_of_mem ht)
  have hLeft : (State.ofTokens source (body ++ [.eof stop])).left = body :=
    left_of_body source fun t ht => (hBody t ht).1
  have hUpcoming : (State.ofTokens source (body ++ [.eof stop])).Upcoming line
      ((elseIfProgram n).rendering ++ []) := by
    rw [List.append_nil, hRendering, ← hKinds]
    refine ⟨by rw [hLeft], ?_, hLeft.symm ▸ hLine, fun t ht => ?_, rfl⟩
    · show (body.map (·.kind)).length < (body ++ [Token.eof stop]).length + maxErrors + 2
      rw [List.length_map, List.length_append]
      omega
    · have ht : t ∈ (body ++ [Token.eof stop]).drop 1 := ht
      rcases List.mem_append.mp (List.mem_of_mem_drop ht) with ht | ht
      · exact (hBody t ht).2
      · rw [List.mem_singleton.mp ht]
        simp [Token.eof]
  obtain ⟨p, t, hRun, hSame, hDone⟩ := accepts_program hValid hNesting _ [] rfl hUpcoming
  refine ⟨p, ?_, links_of_elseIfProgram hSame⟩
  rw [parseTokens, hRun]
  simp only [hDone.log]
  rfl

/-- There are programs with chains of any length. -/
theorem exists_links (n : Nat) : ∃ source p, (parse source).program = some p ∧ n ≤ p.links := by
  obtain ⟨body, stop, hRun, hKinds, hLine⟩ := Lexer.run_elseIfs n
  obtain ⟨p, hp, hLinks⟩ := exists_program_of_elseIfs (elseIfSource n) stop hKinds hLine
  have hQuiet : (Lexer.run (elseIfSource n)).log.hasErrors = false := by
    rw [hRun]
    rfl
  have hParse : parse (elseIfSource n) =
      parseTokens (elseIfSource n) (Lexer.run (elseIfSource n)).tokens :=
    if_neg (by rw [hQuiet]; decide)
  refine ⟨elseIfSource n, p, ?_, hLinks⟩
  rw [hParse, hRun]
  exact hp

/-- No bound holds for the heights of all programs: the limit of nesting leaves chains out. -/
theorem heights_unbounded :
    ¬∃ bound, ∀ source p, (parse source).program = some p → p.height ≤ bound := by
  rintro ⟨bound, hBound⟩
  obtain ⟨source, p, hp, hLinks⟩ := exists_links (bound + 1)
  have hHeight := hBound source p hp
  have hLower := p.height_bounds.1
  omega

end AmbScript
