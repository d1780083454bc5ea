import Glossator.FunctionRecord.Json
import Glossator.Json.Reader
import Glossator.Report

/-!
# Reports in JSON

A report carries no mark of its kind: it is read as an extraction if it can be, and as a failure
otherwise.
-/

set_option autoImplicit false

namespace Glossator

open Json (Members)

namespace Extraction

/-- The names of the fields of an extraction, in order. -/
def fieldNames : List String := ["file", "language", "count", "functions"]

/-- The fields of an extraction, in order. -/
def toJson (e : Extraction) : Json :=
  .object [
    ("file", .string e.file),
    ("language", e.language.toJson),
    ("count", .ofNat e.count),
    ("functions", .array (e.functions.map FunctionRecord.toJson))]

/-- Reads an extraction; all its fields must be there. -/
def ofJson? (j : Json) : Option Extraction := do
  let ms ← j.allMembers? fieldNames
  let functions ← Members.required? ms "functions" Json.asArray?
  some {
    file := ← Members.required? ms "file" Json.asString?
    language := ← Members.required? ms "language" Language.ofJson?
    count := ← Members.required? ms "count" Json.asNat64?
    functions := ← functions.mapM FunctionRecord.ofJson? }

end Extraction

namespace Report

/-- The form of a report: that of the extraction, or the file and the error. -/
def toJson : Report → Json
  | extracted e => e.toJson
  | failed file error => .object [("file", .string file), ("error", .string error)]

/-- Reads a failure; it must be an object. -/
def failureOfJson? (j : Json) : Option Report := do
  some (.failed (← (j.get? "file").bind Json.asString?) (← (j.get? "error").bind Json.asString?))

/-- Reads a report. -/
def ofJson? (j : Json) : Option Report :=
  match Extraction.ofJson? j with
  | some e => some (.extracted e)
  | none => failureOfJson? j

/-- Reads the reports from the text of their array. -/
def read? (t : Text) : Option (List Report) := do
  let j ← Json.read? t
  (← j.asArray?).mapM ofJson?

end Report

end Glossator
