import Glossator.FunctionRecord
import Glossator.Java.Parameters
import Glossator.Text.Alphanumeric
import Glossator.Java.TypeDeclaration

/-!
# Methods

The methods declared directly in a stretch of Java text. The search goes forward only: after every
header, accepted or not, it goes on behind what was consumed.
-/

set_option autoImplicit false

namespace Glossator.Java

/-- The type whose body is searched for methods. -/
structure Scope where
  /-- The names of the enclosing types and of the type itself, joined by dots. -/
  path : Text
  name : Text
  kind : TypeKind
  description : Option Text

/-- The scope of a type declared inside another one, or on its own. -/
def Scope.ofDeclaration (outer : Option Text) (d : TypeDeclaration) : Scope where
  path := match outer with
    | some path => path ++ '.' :: d.name
    | none => d.name
  name := d.name
  kind := d.kind
  description := d.description

/-- Words that start a statement, never a declaration. -/
def statementStarts : List Text :=
  ["throw", "return", "new", "catch", "if", "else", "try", "break", "case", "assert", "yield",
    "continue", "switch", "for", "while", "do"].map String.toList

/-- Words that are never the name of a method. -/
def reservedNames : List Text :=
  ["throw", "return", "new", "catch", "if", "else", "try", "break", "case", "for", "while",
    "switch", "continue", "synchronized", "assert"].map String.toList

/-- The words that say who may call a method, the widest first. -/
def visibilities : List String := ["public", "private", "protected"]

/-- The words of a return type. -/
def returnTypeWords (t : Text) : List Text := t.splitAt fun c => !isAlphanumeric c && c ≠ '_'

/-- A header declares a method unless it is a statement or a call: without a return type, only
constructors are declared. -/
def isDeclaration (scope : Option Scope) (text : Text) (m : Match HeaderPart) : Bool :=
  let name := m.text text .name
  let firstWord := (Text.words (m.text text .declaration)).head?.getD name
  !reservedNames.contains name && !statementStarts.contains firstWord &&
    match m.text? text .returnType with
    | some type =>
      !(returnTypeWords type).any fun w => statementStarts.contains w || reservedNames.contains w
    | none => scope.any (·.name == name)

/-- The words of a list without repetitions, each where it occurs first. -/
def distinct (words : List Text) : List Text :=
  words.foldl (fun seen w => if seen.contains w then seen else seen ++ [w]) []

/-- The modifiers of a method: those written, and in an interface those understood. -/
def effectiveModifiers (scope : Option Scope) (hasBody : Bool) (written : List String) :
    List String :=
  if scope.any (·.kind == .interface) then
    let stated := if written.isEmpty then ["public", "abstract"] else written
    if !hasBody && !(["default", "static", "abstract"].any stated.contains) then
      stated ++ ["abstract"]
    else stated
  else written

/-- Who may call a method with the given modifiers. -/
def visibility (modifiers : List String) : String :=
  (visibilities.find? modifiers.contains).getD "package-private"

/-- The annotations of a header: those on lines of their own, a line each, then the others. -/
def decorators (text : Text) (m : Match HeaderPart) : List Text :=
  let onOwnLines := (m.text text .annotations).lines.map Text.trim
  (onOwnLines ++ [Text.trim (m.text text .inlineAnnotations)]).filter (! ·.isEmpty)

/-- Where a method lies in its stretch. -/
structure Extent where
  /-- The start of the line on which the declaration starts. -/
  lineStart : Nat
  /-- The first character that is not blank. -/
  start : Nat
  /-- The body; none if a semicolon stands in its place. -/
  body : Option Block
  stop : Nat

namespace Extent

/-- A method has a body unless a semicolon stands in its place. -/
def hasBody (e : Extent) : Bool := e.body.isSome

/-- Where the body starts, or the semicolon in its place. -/
def bodyStart (e : Extent) : Nat := (e.body.map Block.opening).getD (e.stop - 1)

end Extent

/-- A method found in a stretch: its header, and where it lies. -/
structure Method where
  header : Match HeaderPart
  extent : Extent

/-- The extent of the method that a header declares; none if no body follows the brace. -/
def extent? (text : Text) (m : Match HeaderPart) : Option Extent :=
  let lead := (m.span.slice text).takeWhile isBlank
  let sinceLine := lead.reverse.takeWhile (· ≠ '\n')
  let start := m.start + lead.length
  let lineStart := start - sinceLine.length
  if m.text text .terminator = [';'] then
    some ⟨lineStart, start, none, m.stop⟩
  else (block? text (m.stop - 1)).map fun b => ⟨lineStart, start, some b, b.stop⟩

/-- The record of a method of a stretch. -/
def Method.record (src : Source) (scope : Option Scope) (s : Stretch) (method : Method) :
    FunctionRecord :=
  let m := method.header
  let e := method.extent
  let name := m.text s.text .name
  let fullText := Span.slice ⟨e.lineStart, e.stop⟩ s.text
  let body := Span.slice ⟨e.bodyStart, e.stop⟩ s.text
  let docstring := (m.text? s.text .comments).bind cleanComment?
  let written := (distinct (Text.words (m.text s.text .modifiers))).map String.ofList
  let modifiers := effectiveModifiers scope e.hasBody written
  let returnType := (m.text? s.text .returnType).bind fun t => (typeWords t).getLast?
  let parameters := splitParameters (m.text s.text .parameters)
  let call := name ++ '(' :: (Text.join [',', ' '] parameters ++ [')'])
  { language := some .java
    fullText := some (String.ofList fullText)
    text := some (String.ofList body)
    docstring := docstring.map String.ofList
    fullLineCount := Text.countLines fullText
    lineCount := Text.countLines body
    docstringLineCount := docstring.map Text.countLines
    name := some (String.ofList name)
    qualifiedName := some (String.ofList (match scope with
      | some scope => scope.path ++ '.' :: name
      | none => name))
    package := src.package.map String.ofList
    signature := String.ofList (match returnType with
      | some type => type ++ ' ' :: call
      | none => call)
    returnType := returnType.map String.ofList
    parameters := parameters.map String.ofList
    startLine := src.lineOf (s.start + e.start)
    endLine := src.lineOf (s.start + e.stop - 1)
    isMethod := scope.isSome
    className := scope.map fun scope => String.ofList scope.path
    classDescription := (scope.bind Scope.description).map String.ofList
    decorators := (decorators s.text m).map String.ofList
    modifiers := modifiers
    visibility := some (visibility modifiers)
    hasBody := e.hasBody
    isConstructor := scope.any (·.name == name) }

/-- The header is one of a method of the scope itself: its name is outside comments, it does not
start within one of the given extents of types, and it declares something. -/
def isOwnMethod (src : Source) (scope : Option Scope) (s : Stretch) (types : List Span)
    (m : Match HeaderPart) : Bool :=
  !(m.span? .name).any (fun name => src.isComment (s.start + name.start)) &&
    !types.any (·.contains m.start) && isDeclaration scope s.text m

/-- Up to so many methods from an offset on. -/
def methodsFrom (src : Source) (scope : Option Scope) (s : Stretch) (types : List Span)
    (headers : Finder HeaderPart) : Nat → Nat → List Method
  | 0, _ => []
  | bound + 1, offset =>
    match headers.find? offset with
    | none => []
    | some m =>
      if isOwnMethod src scope s types m then
        match extent? s.text m with
        | none => []
        | some e => ⟨m, e⟩ :: methodsFrom src scope s types headers bound e.stop
      else methodsFrom src scope s types headers bound m.stop

/-- The methods declared directly in a stretch. -/
def methods (src : Source) (scope : Option Scope) (s : Stretch) : List Method :=
  methodsFrom src scope s ((typeDeclarations src s).map TypeDeclaration.extent)
    (.ofPattern methodHeader s.text) (s.text.length + 1) 0

end Glossator.Java
