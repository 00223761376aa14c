import AmbScript.Diagnostic.Basic
import AmbScript.Json.Member
import AmbScript.Json.Reader

/-!
# Diagnostics as JSON

A diagnostic is written as one flat object; absent texts are left out. Reading takes the members
in any order and passes over unknown ones, but each known one has to be of its type, in range and
not repeated.

* `Diagnostic.write` and `Diagnostic.read?` go from a diagnostic to text and back.
* `DiagnosticLog.write` and `Diagnostic.readAll?` do so for what a log keeps, as an array.
-/

namespace AmbScript

namespace Span

/-- The four members that a span adds to an object. -/
def members (s : Span) : List (String × Json) :=
  [("line", .integer s.start.line), ("column", .integer s.start.column),
    ("end_line", .integer s.stop.line), ("end_column", .integer s.stop.column)]

def toJson (s : Span) : Json := .object s.members

/-- Lines and columns stay below this number. -/
def positionBound : Nat := Nat.pow 2 32

def ofMembers? (ms : List (String × Json)) : Option Span := do
  let number (key : String) := Json.required? ms key >>= Json.below? positionBound
  return ⟨⟨← number "line", ← number "column"⟩, ⟨← number "end_line", ← number "end_column"⟩⟩

end Span

namespace Diagnostic

/-- A member for a text that may be absent. -/
def optionalMember (key : String) : Option String → List (String × Json)
  | some s => [(key, .string s)]
  | none => []

def toJson (d : Diagnostic) : Json :=
  .object <|
    [("file", .string d.file), ("code", .integer d.code.number),
      ("category", .string d.category.name), ("message", .string d.message)]
    ++ optionalMember "elaboration" d.elaboration
    ++ d.span.members
    ++ [("source_line", .string d.sourceLine)]
    ++ optionalMember "suggestion" d.suggestion

def ofJson? : Json → Option Diagnostic
  | .object ms => do
    let text (key : String) := Json.required? ms key >>= Json.string?
    let text? (key : String) := Json.optional? ms key >>= Json.orNull? Json.string?
    return {
      file := ← text "file"
      code := ⟨← Json.required? ms "code" >>= Json.below? (Nat.pow 2 16)⟩
      category := ← Json.required? ms "category" >>= Json.tag? >>= Category.ofName?
      message := ← text "message"
      elaboration := ← text? "elaboration"
      span := ← Span.ofMembers? ms
      sourceLine := ← text "source_line"
      suggestion := ← text? "suggestion" }
  | _ => none

def write (d : Diagnostic) : String := d.toJson.render

/-- Containers in the text of a diagnostic, itself included, nest at most this deep. -/
def maxDepth : Nat := 127

def read? (text : String) : Option Diagnostic := do
  let v ← Json.read maxDepth text
  if v.isRepresentable then ofJson? v else none

def listOfJson? : Json → Option (List Diagnostic)
  | .array items => items.mapM ofJson?
  | _ => none

/-- The diagnostics that the text of an array holds. -/
def readAll? (text : String) : Option (List Diagnostic) := do
  let v ← Json.read maxDepth text
  if v.isRepresentable then listOfJson? v else none

end Diagnostic

namespace DiagnosticLog

/-- The kept diagnostics, as an array. -/
def toJson (log : DiagnosticLog) : Json := .array (log.kept.map Diagnostic.toJson)

def write (log : DiagnosticLog) : String := log.toJson.render

end DiagnosticLog

end AmbScript
