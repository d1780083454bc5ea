import Glossator.Proofs.Java.TypeDeclaration
import Glossator.Java.Extraction

/-!
# Class trees

A class tree describes a file with one class: its methods and nested classes, to any depth and in
any order. This module writes a class tree out as a text, and says which records belong to it.

* `Java.ClassTree.text`: the text of a class tree.
* `Java.ClassTree.records`: the records of its methods, those of a class before those of the classes
  nested in it.
-/

set_option autoImplicit false

namespace Glossator.Java

/-! ### Names and types -/

/-- The words that are no identifiers. -/
def reservedWords : List String :=
  ["abstract", "assert", "boolean", "break", "byte", "case", "catch", "char", "class", "const",
    "continue", "default", "do", "double", "else", "enum", "extends", "final", "finally", "float",
    "for", "goto", "if", "implements", "import", "instanceof", "int", "interface", "long", "native",
    "new", "package", "private", "protected", "public", "return", "short", "static", "strictfp",
    "super", "switch", "synchronized", "this", "throw", "throws", "transient", "try", "void",
    "volatile", "while", "yield"]

/-- The words that are types of their own. -/
def builtInTypes : List String :=
  ["boolean", "byte", "char", "short", "int", "long", "float", "double", "void"]

/-- The modifiers that the methods of a class tree may have. -/
def memberModifiers : List String := ["public", "private", "protected", "static", "final"]

/-- The words that begin the header of a type. -/
def typeKeywords : List Text := ["class", "interface", "enum"].map String.toList

/-- A name: letters, digits and underscores after a letter, and not a reserved word. -/
structure Identifier where
  text : Text
  starts : text.head?.any Char.isAlpha = true
  chars : ∀ c ∈ text, isAsciiWord c = true
  free : text ∉ reservedWords.map String.toList

/-- A type: a name or one of the built-in words. -/
inductive TypeName where
  | declared (name : Identifier)
  | builtIn (word : String) (h : word ∈ builtInTypes)

/-- The text of a type. -/
def TypeName.text : TypeName → Text
  | declared name => name.text
  | builtIn word _ => word.toList

/-! ### Bodies -/

/-- How many braces are open behind a text; none if one closes that was not opened. -/
def openBraces? (depth : Nat) : Text → Option Nat
  | [] => some depth
  | c :: rest =>
    if c = '{' then openBraces? (depth + 1) rest
    else if c = '}' then if depth = 0 then none else openBraces? (depth - 1) rest
    else openBraces? depth rest

/-- The characters that the body of a method is made of. -/
def isBodyChar (c : Char) : Bool :=
  isWord c || c = ' ' || c = '\n' || c = ';' || c = '=' || c = '{' || c = '}'

/-- The whole words of a text, and an empty piece between any two other characters. -/
def wholeWords (t : Text) : List Text := t.splitAt fun c => !isWord c

/-- No word of a text begins the header of a type. -/
def Keywordless (t : Text) : Prop := ∀ w ∈ wholeWords t, w ∉ typeKeywords

/-- The text between the braces of a method: its braces are balanced, and none of its words begins
the header of a type. -/
structure Body where
  text : Text
  chars : ∀ c ∈ text, isBodyChar c = true
  balanced : openBraces? 0 text = some 0
  keywordless : Keywordless text

/-! ### Trees -/

/-- A parameter of a method. -/
structure Parameter where
  type : TypeName
  name : Identifier

/-- A method of a class. -/
structure MethodDeclaration where
  modifiers : List String
  isModifier : ∀ w ∈ modifiers, w ∈ memberModifiers
  distinct : modifiers.Nodup
  returnType : TypeName
  name : Identifier
  parameters : List Parameter
  body : Body

/-- The members of a class in order: methods and nested classes. -/
inductive Members where
  | none
  | method (declaration : MethodDeclaration) (rest : Members)
  | type (name : Identifier) (members : Members) (rest : Members)

/-- A class with its members. -/
structure ClassTree where
  name : Identifier
  members : Members

/-- How a class tree is laid out: what stands before the members at a depth, and behind the end of
the class. -/
structure Layout where
  indent : Nat → Text
  indent_blank : ∀ depth, ∀ c ∈ indent depth, c = ' ' ∨ c = '\t'
  ending : Text
  ending_blank : ∀ c ∈ ending, isBlank c = true

/-! ### Texts -/

/-- A type and a name. -/
def Parameter.text (p : Parameter) : Text := p.type.text ++ ' ' :: p.name.text

/-- The modifiers of a method, each with a space behind it. -/
def modifiersText (modifiers : List String) : Text := modifiers.flatMap fun w => w.toList ++ [' ']

theorem modifiersText_cons (w : String) (modifiers : List String) :
    modifiersText (w :: modifiers) = w.toList ++ ' ' :: modifiersText modifiers := by
  simp [modifiersText]

/-- The parameters of a method, with commas between them. -/
def parametersText (parameters : List Parameter) : Text :=
  Text.join [',', ' '] (parameters.map Parameter.text)

/-- The name of a method with its parameters. -/
def MethodDeclaration.call (m : MethodDeclaration) : Text :=
  m.name.text ++ '(' :: (parametersText m.parameters ++ [')'])

/-- What stands before the body of a method. -/
def MethodDeclaration.header (m : MethodDeclaration) : Text :=
  modifiersText m.modifiers ++ m.returnType.text ++ ' ' :: (m.call ++ [' '])

/-- The body of a method with its braces. -/
def MethodDeclaration.block (m : MethodDeclaration) : Text := '{' :: (m.body.text ++ ['}'])

/-- A method without the indentation before it. -/
def MethodDeclaration.text (m : MethodDeclaration) : Text := m.header ++ m.block

/-- The start of a line at a depth. -/
def Layout.newLine (layout : Layout) (depth : Nat) : Text := '\n' :: layout.indent depth

/-- The header of a class up to its name. -/
def classHeader (name : Identifier) : Text := "class ".toList ++ name.text

/-- The start of a class behind a gap, up to the brace that opens it. -/
def classOpening (gap : Text) (name : Identifier) : Text := gap ++ classHeader name ++ [' ', '{']

/-- A class behind a gap, with the given text between its braces. -/
def classText (gap : Text) (name : Identifier) (inside : Text) : Text :=
  classOpening gap name ++ inside ++ ['}']

/-- Members at a depth, each on lines of its own. -/
def Members.text (layout : Layout) (depth : Nat) : Members → Text
  | none => []
  | method m rest => layout.newLine depth ++ m.text ++ rest.text layout depth
  | type name members rest =>
    classText (layout.newLine depth) name
      (members.text layout (depth + 1) ++ layout.newLine depth) ++ rest.text layout depth

/-- What stands between the braces of a class at a depth. -/
def Members.inside (layout : Layout) (depth : Nat) (ms : Members) : Text :=
  ms.text layout (depth + 1) ++ layout.newLine depth

/-- The text of a class tree. -/
def ClassTree.text (tree : ClassTree) (layout : Layout) : Text :=
  classText [] tree.name (tree.members.inside layout 0) ++ layout.ending

/-! ### Records -/

/-- What is known of a class when its members are read: its package, its path and its name. -/
structure Owner where
  package : Option Text
  path : Text
  name : Text

/-- A class nested in another one. -/
def Owner.nested (owner : Owner) (name : Identifier) : Owner where
  package := owner.package
  path := owner.path ++ '.' :: name.text
  name := name.text

/-- The record of a method that stands behind a text. -/
def MethodDeclaration.record (m : MethodDeclaration) (owner : Owner) (indent before : Text) :
    FunctionRecord where
  language := some .java
  fullText := some (String.ofList (indent ++ m.text))
  text := some (String.ofList m.block)
  fullLineCount := Text.countLines (indent ++ m.text)
  lineCount := Text.countLines m.block
  docstringLineCount := none
  name := some (String.ofList m.name.text)
  qualifiedName := some (String.ofList (owner.path ++ '.' :: m.name.text))
  package := owner.package.map String.ofList
  signature := String.ofList (m.returnType.text ++ ' ' :: m.call)
  returnType := some (String.ofList m.returnType.text)
  parameters := m.parameters.map fun p => String.ofList p.text
  startLine := before.count '\n' + 1
  endLine := (before ++ m.text).count '\n' + 1
  isMethod := true
  className := some (String.ofList owner.path)
  modifiers := m.modifiers
  visibility := some (visibility m.modifiers)
  hasBody := true
  isConstructor := owner.name == m.name.text

/-- The records of the methods of a class itself, whose members stand behind a text. -/
def Members.ownRecords (layout : Layout) (owner : Owner) (depth : Nat) (before : Text) :
    Members → List FunctionRecord
  | none => []
  | method m rest =>
    let start := before ++ layout.newLine depth
    m.record owner (layout.indent depth) start ::
      rest.ownRecords layout owner depth (start ++ m.text)
  | type name members rest =>
    rest.ownRecords layout owner depth
      (before ++ classText (layout.newLine depth) name (members.inside layout depth))

/-- The records of the classes nested in a class: of each in turn its own methods, then those of the
classes nested in it. -/
def Members.nestedRecords (layout : Layout) (owner : Owner) (depth : Nat) (before : Text) :
    Members → List FunctionRecord
  | none => []
  | method m rest =>
    rest.nestedRecords layout owner depth (before ++ layout.newLine depth ++ m.text)
  | type name members rest =>
    let opening := before ++ classOpening (layout.newLine depth) name
    members.ownRecords layout (owner.nested name) (depth + 1) opening ++
      members.nestedRecords layout (owner.nested name) (depth + 1) opening ++
      rest.nestedRecords layout owner depth
        (before ++ classText (layout.newLine depth) name (members.inside layout depth))

/-- The class of a class tree in a package. -/
def ClassTree.owner (tree : ClassTree) (package : Option Text) : Owner :=
  ⟨package, tree.name.text, tree.name.text⟩

/-- The records of a class tree. -/
def ClassTree.records (tree : ClassTree) (layout : Layout) (package : Option Text) :
    List FunctionRecord :=
  let opening := classOpening [] tree.name
  tree.members.ownRecords layout (tree.owner package) 1 opening ++
    tree.members.nestedRecords layout (tree.owner package) 1 opening

end Glossator.Java
