import Glossator.Language

/-!
# Function records

The uniform description of one function or method. The parser of every language fills in this
record; what a parser cannot know stays unset.
-/

set_option autoImplicit false

namespace Glossator

/-- The description of one function or method. -/
structure FunctionRecord where
  /-- The language it was read as; unset for the two halves of a prompt. -/
  language : Option Language := none
  /-- The declaration and its body, with the documentation attached to it. -/
  fullText : Option String := none
  /-- The text without the documentation. -/
  text : Option String := none
  /-- The documentation. -/
  docstring : Option String := none
  /-- The number of lines of the full text. -/
  fullLineCount : Nat := 0
  /-- The number of lines of the text. -/
  lineCount : Nat := 0
  /-- The number of lines the documentation occupies. -/
  docstringLineCount : Option Nat := some 0
  name : Option String := none
  /-- The name with the names of the enclosing types before it, joined by dots. -/
  qualifiedName : Option String := none
  /-- The package the file belongs to. -/
  package : Option String := none
  signature : String := ""
  returnType : Option String := none
  /-- The parameters in order of declaration. -/
  parameters : List String := []
  /-- The first line, counted from 1; -1 when unknown. -/
  startLine : Int := -1
  /-- The last line, counted from 1; -1 when unknown. -/
  endLine : Int := -1
  isMethod : Bool := false
  className : Option String := none
  /-- The documentation of the enclosing type. -/
  classDescription : Option String := none
  decorators : List String := []
  modifiers : List String := []
  visibility : Option String := none
  /-- False for a declaration without a body. -/
  hasBody : Bool := true
  isConstructor : Bool := false
deriving DecidableEq, Repr, Inhabited

namespace FunctionRecord

/-- The name shown in listings: the qualified name, else the plain one, else a placeholder. -/
def displayName (f : FunctionRecord) : String :=
  (f.qualifiedName.or f.name).getD "<anonymous>"

/-- The one-line form: return type, name and parameters. -/
def display (f : FunctionRecord) : String :=
  let call := f.name.getD "" ++ "(" ++ ", ".intercalate f.parameters ++ ")"
  match f.returnType with
  | some type => type ++ " " ++ call
  | none => call

end FunctionRecord

end Glossator
