import Glossator.FunctionRecord

/-!
# Reports

What extraction says about a file: the functions found in it, or why there are none.
-/

set_option autoImplicit false

namespace Glossator

/-- The functions found in a file. -/
structure Extraction where
  file : String
  language : Language
  /-- The number of functions. -/
  count : Nat
  functions : List FunctionRecord
deriving DecidableEq, Repr

/-- The extraction that holds the given functions. -/
def Extraction.ofFunctions (file : String) (language : Language) (functions : List FunctionRecord) :
    Extraction :=
  ⟨file, language, functions.length, functions⟩

/-- What became of a file. -/
inductive Report where
  | extracted (extraction : Extraction)
  | failed (file : String) (error : String)
deriving DecidableEq, Repr

/-- The file that a report is about. -/
def Report.file : Report → String
  | extracted extraction => extraction.file
  | failed file _ => file

end Glossator
