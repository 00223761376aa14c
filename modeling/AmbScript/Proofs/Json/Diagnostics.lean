import AmbScript.Diagnostic.Json
import AmbScript.Proofs.Json.Rendering

/-!
# Diagnostics survive their text

A diagnostic whose numbers are stored in words is read back from what it is written as: every
character of its texts, its numbers up to the last one, and which of the two optional texts it has.

* `Diagnostic.InRange` — the numbers fit where a reader stores them.
* `Diagnostic.ofJson?_toJson` — the members of the object give the diagnostic back.
* `DiagnosticLog.write_survives` — so does the text of each diagnostic, and the text of a log gives
  back what the log keeps.

Whatever the strings are, they are in range. The only limits are those of the types that numbers are
stored in, 16 bits for a code and 32 for a line or a column; and the category is a member of its
own, so that it need not be the one that the code belongs to.
-/

namespace AmbScript

open Json (Fits AllFit MembersFit)

/-- A category is known by its name. -/
theorem Category.ofName?_name (c : Category) : ofName? c.name = some c := by
  cases c <;> decide

/-- Lines and columns are below their bound. -/
structure Span.InRange (s : Span) : Prop where
  startLine : s.start.line < positionBound
  startColumn : s.start.column < positionBound
  stopLine : s.stop.line < positionBound
  stopColumn : s.stop.column < positionBound

namespace Diagnostic

/-- The code and the positions are numbers of their words. -/
structure InRange (d : Diagnostic) : Prop where
  code : d.code.number < Nat.pow 2 16
  span : d.span.InRange

-- ---------------------------------------------------------------------------
-- Members
-- ---------------------------------------------------------------------------

/-- A number below the bound is taken as it is. -/
theorem below?_integer {bound n : Nat} (h : n < bound) : Json.below? bound (.integer n) = some n :=
  if_pos h

/-- The members of a diagnostic are all that is needed to build it again. -/
theorem ofJson?_toJson {d : Diagnostic} (h : d.InRange) : ofJson? d.toJson = some d := by
  obtain ⟨file, ⟨code⟩, category, message, elaboration, ⟨⟨line, column⟩, ⟨endLine, endColumn⟩⟩,
    sourceLine, suggestion⟩ := d
  obtain ⟨hCode, hLine, hColumn, hEndLine, hEndColumn⟩ := h
  have hCategory := Category.ofName?_name category
  cases elaboration <;> cases suggestion <;>
    simp [toJson, ofJson?, optionalMember, Span.members, Span.ofMembers?, Json.required?,
      Json.optional?, Json.valuesOf, Json.string?, Json.orNull?, Json.tag?, below?_integer, *]

/-- Each entry is read back, so all are. -/
theorem mapM_ofJson? {ds : List Diagnostic} (h : ∀ d ∈ ds, d.InRange) :
    (ds.map toJson).mapM ofJson? = some ds := by
  induction ds with
  | nil => rfl
  | cons d ds ih =>
    obtain ⟨hFirst, hRest⟩ := List.forall_mem_cons.mp h
    rw [List.map_cons, List.mapM_cons, ofJson?_toJson hFirst, ih hRest]
    rfl

-- ---------------------------------------------------------------------------
-- What is written of a diagnostic
-- ---------------------------------------------------------------------------

theorem membersFit_append {room : Nat} {ms ns : List (String × Json)} (hm : MembersFit room ms)
    (hn : MembersFit room ns) : MembersFit room (ms ++ ns) := by
  induction ms with
  | nil => exact hn
  | cons m ms ih => exact ⟨hm.1, ih hm.2⟩

/-- A text that may be missing is a string where it is there. -/
theorem membersFit_optional (room : Nat) (key : String) (text : Option String) :
    MembersFit room (optionalMember key text) := by
  cases text with
  | none => trivial
  | some s => exact ⟨trivial, trivial⟩

/-- Numbers below such a bound fit a machine word. -/
theorem fits_integer {room bound n : Nat} (h : n < bound) (hBound : bound ≤ Json.wordMax) :
    Fits room (.integer n) := ⟨n, rfl, by omega⟩

/-- What is written of a diagnostic fits. -/
theorem fits_toJson {d : Diagnostic} (h : d.InRange) {room : Nat} (hRoom : 0 < room) :
    d.toJson.Fits room := by
  have hWord : Nat.pow 2 16 ≤ Json.wordMax := by decide
  have hPosition : Span.positionBound ≤ Json.wordMax := by decide
  have hHead : MembersFit (room - 1)
      [("file", .string d.file), ("code", .integer d.code.number),
        ("category", .string d.category.name), ("message", .string d.message)] :=
    ⟨trivial, fits_integer h.code hWord, trivial, trivial, trivial⟩
  have hSpan : MembersFit (room - 1) d.span.members :=
    ⟨fits_integer h.span.startLine hPosition, fits_integer h.span.startColumn hPosition,
      fits_integer h.span.stopLine hPosition, fits_integer h.span.stopColumn hPosition, trivial⟩
  have hLine : MembersFit (room - 1) [("source_line", .string d.sourceLine)] := ⟨trivial, trivial⟩
  exact ⟨hRoom, membersFit_append (membersFit_append (membersFit_append (membersFit_append hHead
    (membersFit_optional _ _ _)) hSpan) hLine) (membersFit_optional _ _ _)⟩

theorem allFit_toJson {ds : List Diagnostic} (h : ∀ d ∈ ds, d.InRange) {room : Nat}
    (hRoom : 0 < room) : AllFit room (ds.map toJson) := by
  induction ds with
  | nil => trivial
  | cons d ds ih =>
    obtain ⟨hFirst, hRest⟩ := List.forall_mem_cons.mp h
    exact ⟨fits_toJson hFirst hRoom, ih hRest⟩

end Diagnostic

-- ---------------------------------------------------------------------------
-- Texts
-- ---------------------------------------------------------------------------

/-- Whatever its texts are, a diagnostic is read back from its text; and so is all that a log keeps,
in its order, from the text of the log. -/
theorem DiagnosticLog.write_survives :
    (∀ d : Diagnostic, d.InRange → Diagnostic.read? d.write = some d) ∧
      ∀ log : DiagnosticLog, (∀ d ∈ log.kept, d.InRange) →
        Diagnostic.readAll? log.write = some log.kept := by
  refine ⟨fun d h => ?_, fun log h => ?_⟩
  · have hFits : d.toJson.Fits Diagnostic.maxDepth := Diagnostic.fits_toJson h (by decide)
    rw [Diagnostic.read?, Diagnostic.write, Json.read_render hFits, Option.bind_eq_bind,
      Option.bind_some, if_pos (hFits.isRepresentable d.toJson), Diagnostic.ofJson?_toJson h]
  · have hFits : log.toJson.Fits Diagnostic.maxDepth :=
      ⟨by decide, Diagnostic.allFit_toJson h (by decide)⟩
    rw [Diagnostic.readAll?, write, Json.read_render hFits, Option.bind_eq_bind, Option.bind_some,
      if_pos (hFits.isRepresentable log.toJson), toJson, Diagnostic.listOfJson?,
      Diagnostic.mapM_ofJson? h]

/-- A diagnostic in another category than that of its code, with the last numbers of their words, an
empty elaboration, no suggestion, and all kinds of characters in its texts. -/
def oddDiagnostic : Diagnostic where
  file := "a\"b\\c\n\r\t\x08\x0c\x00\x1f\x7f"
  code := ⟨65535⟩
  category := .binding
  message := "λ → 😀 \uffff/"
  elaboration := some ""
  span := ⟨⟨0, 4294967295⟩, ⟨4294967295, 1⟩⟩
  sourceLine := ""
  suggestion := none

/-- It is read back, alone and in a log where it is there twice. -/
theorem oddDiagnostic_survives :
    Diagnostic.read? oddDiagnostic.write = some oddDiagnostic ∧
      Diagnostic.readAll? (DiagnosticLog.ofList [oddDiagnostic, oddDiagnostic]).write =
        some [oddDiagnostic, oddDiagnostic] := by
  have hRange : oddDiagnostic.InRange :=
    ⟨by decide, by decide, by decide, by decide, by decide⟩
  refine ⟨DiagnosticLog.write_survives.1 _ hRange, DiagnosticLog.write_survives.2 _ ?_⟩
  intro d hd
  have hSame : d = oddDiagnostic := by simpa [DiagnosticLog.ofList, DiagnosticLog.push,
    DiagnosticLog.empty, maxErrors] using hd
  exact hSame ▸ hRange

end AmbScript
