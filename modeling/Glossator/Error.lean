import Glossator.Language
import Glossator.Text.Digits

/-!
# Errors

Why an operation can fail. Each cause has one wording, and some causes lie in the input itself
rather than in the configuration or the surroundings.
-/

set_option autoImplicit false

namespace Glossator

/-- Why a file or directory cannot be read. -/
inductive IoError where
  | notFound
  | notADirectory
  | isADirectory
  | invalidUtf8
  /-- A directory cannot be walked. -/
  | walk (path : String) (cause : IoError)
deriving DecidableEq, Repr

/-- The wording of the cause. -/
def IoError.message : IoError → String
  | notFound => "No such file or directory (os error 2)"
  | notADirectory => "Not a directory (os error 20)"
  | isADirectory => "Is a directory (os error 21)"
  | invalidUtf8 => "stream did not contain valid UTF-8"
  | walk path cause => path ++ ": IO error for operation on " ++ path ++ ": " ++ cause.message

/-- What is wrong with a configuration. -/
inductive ConfigError where
  /-- The file is not TOML, or a setting has the wrong type. -/
  | unreadable
  /-- A number is too large to be written. -/
  | unwritable
  /-- A setting that must be positive is zero. -/
  | notPositive (setting : String)
  /-- Comments are wanted but no service is enabled. -/
  | backendDisabled
  /-- The address of the service is blank. -/
  | baseUrlMissing
deriving DecidableEq, Repr

/-- The wording of the cause. -/
def ConfigError.message : ConfigError → String
  | unreadable => "invalid configuration file"
  | unwritable => "out-of-range value for u64 type"
  | notPositive setting => setting ++ " must be greater than zero"
  | backendDisabled => "Comment backend is disabled"
  | baseUrlMissing => "Base URL required for the comment backend"

/-- Why an operation failed. -/
inductive Error where
  | config (cause : ConfigError)
  /-- No language is known for the file. -/
  | unsupportedLanguage (file : String)
  /-- The language is known but has no parser. -/
  | notImplemented (language : Language)
  /-- A prompt is wanted but the file is in another language. -/
  | notAPrompt (file : String) (language : Language)
  /-- No line of the prompt looks like code. -/
  | codeNotFound
  /-- The code of the prompt does not hold exactly one function. -/
  | functionCount (found : Nat)
  | inputTooLarge (file : String) (size limit : Nat)
  /-- The comment service failed. -/
  | backend (message : String)
  | io (cause : IoError)
deriving DecidableEq, Repr

namespace Error

/-- The wording of an error. -/
def message : Error → String
  | config cause => "Configuration error: " ++ cause.message
  | unsupportedLanguage file => "Unsupported language for file: " ++ file
  | notImplemented language => "Parser for language '" ++ language.name ++ "' is not implemented"
  | notAPrompt file language => "File " ++ file ++ " is " ++ language.name ++ ", not a prompt"
  | codeNotFound => "Could not locate the start of code in the prompt"
  | functionCount found => "Expected exactly one function, found " ++ Digits.ofNatString found
  | inputTooLarge file size limit =>
    "File " ++ file ++ " is " ++ Digits.ofNatString size ++ " bytes, limit is " ++
      Digits.ofNatString limit
  | backend message => "Comment backend error: " ++ message
  | io cause => "IO error: " ++ cause.message

/-- The input itself is at fault. -/
def isInvalidInput : Error → Bool
  | unsupportedLanguage _ | notAPrompt _ _ | codeNotFound | functionCount _ | inputTooLarge _ _ _ =>
    true
  | config _ | notImplemented _ | backend _ | io _ => false

end Error

end Glossator
