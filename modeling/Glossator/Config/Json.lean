import Glossator.Config
import Glossator.Json.Record

/-!
# Configurations in JSON

A setting or section that is missing keeps its default, and unknown ones are passed over. A section
may also be the array of its first settings in order.
-/

set_option autoImplicit false

namespace Glossator

open Json (Members)

namespace ParsingSettings

/-- The settings of the section, in order. -/
def toJson (s : ParsingSettings) : Json :=
  .object [("max_file_size", .ofNat s.maxFileSize),
    ("content_detection_fallback", .bool s.contentFallback)]

/-- Reads the section. -/
def ofJson? (j : Json) : Option ParsingSettings := do
  let ms ← j.members? ["max_file_size", "content_detection_fallback"]
  let default : ParsingSettings := {}
  some {
    maxFileSize := ← ms.withDefault? "max_file_size" default.maxFileSize Json.asNat64?
    contentFallback :=
      ← ms.withDefault? "content_detection_fallback" default.contentFallback Json.asBool? }

end ParsingSettings

namespace ServiceSettings

/-- The settings of the section, in order. -/
def toJson (s : ServiceSettings) : Json :=
  .object [("enabled", .bool s.enabled), ("base_url", .string s.baseUrl),
    ("timeout_secs", .ofNat s.timeoutSeconds)]

/-- Reads the section. -/
def ofJson? (j : Json) : Option ServiceSettings := do
  let ms ← j.members? ["enabled", "base_url", "timeout_secs"]
  let default : ServiceSettings := {}
  some {
    enabled := ← ms.withDefault? "enabled" default.enabled Json.asBool?
    baseUrl := ← ms.withDefault? "base_url" default.baseUrl Json.asString?
    timeoutSeconds := ← ms.withDefault? "timeout_secs" default.timeoutSeconds Json.asNat64? }

end ServiceSettings

namespace LoggingSettings

/-- The settings of the section. -/
def toJson (s : LoggingSettings) : Json := .object [("level", .string s.level)]

/-- Reads the section. -/
def ofJson? (j : Json) : Option LoggingSettings := do
  let ms ← j.members? ["level"]
  let default : LoggingSettings := {}
  some { level := ← ms.withDefault? "level" default.level Json.asString? }

end LoggingSettings

namespace Config

/-- The sections of a configuration, in order. -/
def toJson (c : Config) : Json :=
  .object [("parsing", c.parsing.toJson), ("backend", c.service.toJson),
    ("logging", c.logging.toJson)]

/-- Reads a configuration. -/
def ofJson? (j : Json) : Option Config := do
  let ms ← j.members? ["parsing", "backend", "logging"]
  some {
    parsing := ← ms.withDefault? "parsing" {} ParsingSettings.ofJson?
    service := ← ms.withDefault? "backend" {} ServiceSettings.ofJson?
    logging := ← ms.withDefault? "logging" {} LoggingSettings.ofJson? }

end Config

end Glossator
