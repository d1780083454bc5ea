import Glossator.Config
import Glossator.Toml.Document
import Glossator.Toml.Printer

/-!
# Configurations in TOML

The text of a configuration file and back. A setting or section that is missing keeps its default,
and unknown ones are passed over. A section may also be the array of its first settings in order;
a date in place of a section sets nothing.
-/

set_option autoImplicit false

namespace Glossator

namespace Toml

/-- The settings of a section by name; none if the value can be no section. -/
def settings? (names : List String) : Toml → Option (String → Option Toml)
  | table fields => some fun name => fields.lookup name.toList
  | array items => some fun name => (names.zip items).lookup name
  | scalar (.moment _) => some fun _ => none
  | scalar _ => none

/-- A setting, with its default if it is missing. -/
def setting {α : Type} (found : String → Option Toml) (name : String) (default : α)
    (read : Toml → Option α) : Option α :=
  match found name with
  | none => some default
  | some v => read v

/-- The text of a string. -/
def asText? (v : Toml) : Option String := v.asString?.map String.ofList

end Toml

open Toml (setting)

/-- Reads the section. -/
def ParsingSettings.ofToml? (v : Toml) : Option ParsingSettings := do
  let found ← v.settings? ["max_file_size", "content_detection_fallback"]
  let default : ParsingSettings := {}
  some {
    maxFileSize := ← setting found "max_file_size" default.maxFileSize Toml.asNat?
    contentFallback :=
      ← setting found "content_detection_fallback" default.contentFallback Toml.asBool? }

/-- Reads the section. -/
def ServiceSettings.ofToml? (v : Toml) : Option ServiceSettings := do
  let found ← v.settings? ["enabled", "base_url", "timeout_secs"]
  let default : ServiceSettings := {}
  some {
    enabled := ← setting found "enabled" default.enabled Toml.asBool?
    baseUrl := ← setting found "base_url" default.baseUrl Toml.asText?
    timeoutSeconds := ← setting found "timeout_secs" default.timeoutSeconds Toml.asNat? }

/-- Reads the section. -/
def LoggingSettings.ofToml? (v : Toml) : Option LoggingSettings := do
  let found ← v.settings? ["level"]
  let default : LoggingSettings := {}
  some { level := ← setting found "level" default.level Toml.asText? }

namespace Config

/-- Reads a configuration. -/
def ofToml? (v : Toml) : Option Config := do
  let found ← v.settings? ["parsing", "backend", "logging"]
  some {
    parsing := ← setting found "parsing" {} ParsingSettings.ofToml?
    service := ← setting found "backend" {} ServiceSettings.ofToml?
    logging := ← setting found "logging" {} LoggingSettings.ofToml? }

/-- The configuration that a text holds; it must be usable. -/
def parse (t : Text) : Except Error Config :=
  match (Toml.read? t).bind fun fields => ofToml? (.table fields) with
  | none => .error (.config .unreadable)
  | some c => c.validated

/-- The sections of a configuration, in order. -/
def sections (c : Config) : List Toml.Section :=
  [⟨"parsing".toList,
      [("max_file_size".toList, .integer c.parsing.maxFileSize),
        ("content_detection_fallback".toList, .boolean c.parsing.contentFallback)]⟩,
    ⟨"backend".toList,
      [("enabled".toList, .boolean c.service.enabled),
        ("base_url".toList, .string c.service.baseUrl.toList),
        ("timeout_secs".toList, .integer c.service.timeoutSeconds)]⟩,
    ⟨"logging".toList, [("level".toList, .string c.logging.level.toList)]⟩]

/-- The text of a configuration; there is none if a number does not fit in 64 bits with a sign. -/
def render (c : Config) : Except Error Text :=
  if Toml.IsIntegerRange c.parsing.maxFileSize ∧ Toml.IsIntegerRange c.service.timeoutSeconds then
    .ok (Toml.render c.sections)
  else .error (.config .unwritable)

end Config

end Glossator
