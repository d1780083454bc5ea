import Glossator.Text.Basic

/-!
# Languages

The languages that files are recognised as. Their order is the order in which content detection
prefers them.
-/

set_option autoImplicit false

namespace Glossator

/-- A language that a file can be recognised as; `prompt` is prose followed by a code snippet. -/
inductive Language where
  | python
  | c
  | cpp
  | csharp
  | go
  | java
  | javascript
  | prompt
deriving DecidableEq, Repr, Inhabited

namespace Language

/-- All languages, in order of preference. -/
def all : List Language := [python, c, cpp, csharp, go, java, javascript, prompt]

/-- The name of a language, in lower case. -/
def name : Language → String
  | python => "python"
  | c => "c"
  | cpp => "cpp"
  | csharp => "csharp"
  | go => "go"
  | java => "java"
  | javascript => "javascript"
  | prompt => "prompt"

/-- The language of a name, blanks around it and the case of its letters aside. -/
def ofName? (s : String) : Option Language :=
  let wanted := (Text.trim s.toList).map Char.toLower
  all.find? fun l => l.name.toList == wanted

/-- The language whose name is exactly the given text. -/
def ofExactName? (s : String) : Option Language := all.find? fun l => l.name == s

/-- Every language occurs in the enumeration. -/
theorem mem_all (l : Language) : l ∈ all := by cases l <;> decide

/-- A name reads back as its language. -/
theorem ofExactName?_name (l : Language) : ofExactName? l.name = some l := by cases l <;> decide

end Language

end Glossator
