import Glossator.Java.Method

/-!
# Extraction of Java methods

The methods of a file, type by type: first the methods of a type in order, then those of the types
nested in it. A file without types is searched for methods as a whole.
-/

set_option autoImplicit false

namespace Glossator.Java

/-- A type whose body is searched for methods. -/
structure OpenType where
  scope : Scope
  /-- The stretch that declares the type. -/
  outer : Stretch
  declaration : TypeDeclaration

/-- The stretch between the braces of a type. -/
def OpenType.body (o : OpenType) : Stretch := o.declaration.body o.outer

/-- The types declared in a stretch that lies in the type with the given path, each before the types
nested in it. -/
def openTypes (src : Source) (outer : Option Text) (s : Stretch) : List OpenType :=
  (directTypes src s).attach.flatMap fun ⟨d, _⟩ =>
    let scope := Scope.ofDeclaration outer d
    ⟨scope, s, d⟩ :: openTypes src (some scope.path) (d.body s)
termination_by s.text.length
decreasing_by exact length_body_lt (mem_of_mem_outermost ‹_›)

/-- A method found in a file: the type it belongs to, if any, and the stretch it was found in. -/
structure Finding where
  scope : Option Scope
  stretch : Stretch
  method : Method

namespace Finding

/-- The methods declared directly in a stretch. -/
def ofStretch (src : Source) (scope : Option Scope) (s : Stretch) : List Finding :=
  (methods src scope s).map fun m => ⟨scope, s, m⟩

/-- The record of a method found in a file. -/
def record (src : Source) (f : Finding) : FunctionRecord := f.method.record src f.scope f.stretch

end Finding

/-- The methods found in a file. -/
def findings (src : Source) : List Finding :=
  let s := Stretch.whole src.text
  if (typeHeaders src s).isEmpty then Finding.ofStretch src none s
  else (openTypes src none s).flatMap fun o => Finding.ofStretch src (some o.scope) o.body

/-- The methods of a Java file. -/
def extract (t : Text) : List FunctionRecord :=
  let src := Source.ofText t
  (findings src).map (Finding.record src)

end Glossator.Java
