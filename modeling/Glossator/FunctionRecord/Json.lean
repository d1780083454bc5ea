import Glossator.FunctionRecord
import Glossator.Json.Record

/-!
# Function records in JSON

The field names of a function record and the two directions between records and JSON values.
-/

set_option autoImplicit false

namespace Glossator

namespace Language

/-- A language is written as its name. -/
def toJson (l : Language) : Json := .string l.name

/-- Reads a name, also as the only field of an object with the value `null`. -/
def ofJson? : Json → Option Language
  | .string s => ofExactName? s
  | .object [(s, .null)] => ofExactName? s
  | _ => none

end Language

namespace FunctionRecord

open Json (Members)

/-- The fields of a function record, in the order in which they are written. -/
def toJson (f : FunctionRecord) : Json :=
  .object [
    ("language", .ofOption Language.toJson f.language),
    ("full_function_text", .ofOption .string f.fullText),
    ("function_text", .ofOption .string f.text),
    ("docstring", .ofOption .string f.docstring),
    ("full_function_lines_length", .ofNat f.fullLineCount),
    ("function_lines_length", .ofNat f.lineCount),
    ("docstring_lines_length", .ofOption .ofNat f.docstringLineCount),
    ("name", .ofOption .string f.name),
    ("qualified_name", .ofOption .string f.qualifiedName),
    ("namespace", .ofOption .string f.package),
    ("signature_text", .string f.signature),
    ("return_type", .ofOption .string f.returnType),
    ("parameters", .ofStrings f.parameters),
    ("start_line", .integer f.startLine),
    ("end_line", .integer f.endLine),
    ("is_method", .bool f.isMethod),
    ("class_name", .ofOption .string f.className),
    ("class_description", .ofOption .string f.classDescription),
    ("decorators", .ofStrings f.decorators),
    ("modifiers", .ofStrings f.modifiers),
    ("visibility", .ofOption .string f.visibility),
    ("has_body", .bool f.hasBody),
    ("is_constructor", .bool f.isConstructor)]

/-- The names of the fields, in order. -/
def fieldNames : List String :=
  ["language", "full_function_text", "function_text", "docstring", "full_function_lines_length",
    "function_lines_length", "docstring_lines_length", "name", "qualified_name", "namespace",
    "signature_text", "return_type", "parameters", "start_line", "end_line", "is_method",
    "class_name", "class_description", "decorators", "modifiers", "visibility", "has_body",
    "is_constructor"]

/-- Reads a function record; only its optional fields may be missing. -/
def ofJson? (j : Json) : Option FunctionRecord := do
  let ms ← j.allMembers? fieldNames
  let text (name : String) := Members.optional? ms name Json.asString?
  let count (name : String) := Members.required? ms name Json.asNat64?
  let texts (name : String) := Members.required? ms name Json.asStrings?
  let line (name : String) := Members.required? ms name Json.asInt64?
  let flag (name : String) := Members.required? ms name Json.asBool?
  some {
    language := ← Members.optional? ms "language" Language.ofJson?
    fullText := ← text "full_function_text"
    text := ← text "function_text"
    docstring := ← text "docstring"
    fullLineCount := ← count "full_function_lines_length"
    lineCount := ← count "function_lines_length"
    docstringLineCount := ← Members.optional? ms "docstring_lines_length" Json.asNat64?
    name := ← text "name"
    qualifiedName := ← text "qualified_name"
    package := ← text "namespace"
    signature := ← Members.required? ms "signature_text" Json.asString?
    returnType := ← text "return_type"
    parameters := ← texts "parameters"
    startLine := ← line "start_line"
    endLine := ← line "end_line"
    isMethod := ← flag "is_method"
    className := ← text "class_name"
    classDescription := ← text "class_description"
    decorators := ← texts "decorators"
    modifiers := ← texts "modifiers"
    visibility := ← text "visibility"
    hasBody := ← flag "has_body"
    isConstructor := ← flag "is_constructor" }

/-- The listed names are those of the fields that are written. -/
theorem map_fst_toJson (f : FunctionRecord) :
    ∃ fields, f.toJson = .object fields ∧ fields.map Prod.fst = fieldNames := ⟨_, rfl, rfl⟩

end FunctionRecord

end Glossator
