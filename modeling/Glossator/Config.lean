import Glossator.Error

/-!
# Configuration

The settings of the program in three sections, with a default for each setting.
-/

set_option autoImplicit false

namespace Glossator

/-- How files are read. -/
structure ParsingSettings where
  /-- The largest file that is read, in bytes. -/
  maxFileSize : Nat := 1048576
  /-- A file whose name tells no language is judged by its content. -/
  contentFallback : Bool := true
deriving DecidableEq, Repr, Inhabited

/-- The service that writes comments. -/
structure ServiceSettings where
  enabled : Bool := true
  baseUrl : String := "http://localhost:8888"
  timeoutSeconds : Nat := 30
deriving DecidableEq, Repr, Inhabited

/-- What is logged. -/
structure LoggingSettings where
  level : String := "info"
deriving DecidableEq, Repr, Inhabited

/-- The settings of the program. -/
structure Config where
  parsing : ParsingSettings := {}
  service : ServiceSettings := {}
  logging : LoggingSettings := {}
deriving DecidableEq, Repr, Inhabited

namespace Config

/-- The configuration with the service off. -/
def offline (c : Config) : Config := { c with service := { c.service with enabled := false } }

/-- Why a configuration cannot be used: a limit must not be zero. -/
def fault? (c : Config) : Option ConfigError :=
  if c.parsing.maxFileSize = 0 then some (.notPositive "parsing.max_file_size")
  else if c.service.timeoutSeconds = 0 then some (.notPositive "backend.timeout_secs")
  else none

/-- The configuration, if it can be used. -/
def validated (c : Config) : Except Error Config :=
  match c.fault? with
  | some fault => .error (.config fault)
  | none => .ok c

/-- A configuration has no fault exactly if both limits are positive. -/
theorem fault?_eq_none_iff (c : Config) :
    c.fault? = none ↔ 0 < c.parsing.maxFileSize ∧ 0 < c.service.timeoutSeconds := by
  unfold fault?
  split
  · simp; omega
  · split
    · simp; omega
    · simp; omega

end Config

end Glossator
