import Glossator.Error
import Glossator.Java.Extraction
import Glossator.Prompt
import Glossator.Python.Extraction

/-!
# Parsing by language

The functions of a text in a given language. Some languages are recognised but have no parser.
-/

set_option autoImplicit false

namespace Glossator

/-- The language has a parser. -/
def Language.isParseable : Language → Bool
  | .python | .java | .prompt => true
  | .c | .cpp | .csharp | .go | .javascript => false

/-- The languages with a parser, in order of preference. -/
def Language.parseable : List Language := Language.all.filter Language.isParseable

/-- The functions of a text. A prompt counts as one. -/
def parse (language : Language) (t : Text) : Except Error (List FunctionRecord) :=
  match language with
  | .python => .ok (Python.extract t)
  | .java => .ok (Java.extract t)
  | .prompt =>
    match Prompt.record? t with
    | some r => .ok [r]
    | none => .error .codeNotFound
  | language => .error (.notImplemented language)

/-- Parsing fails for want of a parser exactly in the languages without one. -/
theorem parse_eq_notImplemented_iff (language : Language) (t : Text) :
    parse language t = .error (.notImplemented language) ↔ language.isParseable = false := by
  cases language <;> simp [parse, Language.isParseable]
  split <;> simp

end Glossator
