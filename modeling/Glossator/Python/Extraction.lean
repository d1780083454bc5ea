import Glossator.FunctionRecord
import Glossator.Python.Docstring
import Glossator.Python.Lexer
import Glossator.Python.Parameters

/-!
# Extraction of Python functions

The functions of a file: those at its top and those in the bodies of classes, classes in classes
included. A function inside a function or inside any other statement is not one of them.
-/

set_option autoImplicit false

namespace Glossator.Python

/-- A file as its text and its lines, ends included. -/
structure Source where
  text : Text
  lines : List Text

/-- A file read as a source. -/
def Source.ofText (t : Text) : Source := ⟨t, t.linesWithEnds⟩

/-- The text of the lines from one to another, both counted from 1 and included. -/
def Source.slice (src : Source) (first last : Nat) : Text :=
  if first = 0 || last < first then []
  else ((src.lines.take last).drop (first - 1)).flatten

/-- The class around a method. -/
structure ClassScope where
  name : Text
  /-- The names of all enclosing classes, joined by dots. -/
  path : Text
  description : Option Text

/-- The children that hold code: those that are neither comments nor empty. -/
def codeChildren (children : List Tree) : List Tree :=
  children.filter fun c => !c.isComment && !c.isEmpty

theorem mem_of_getLast?_codeChildren {children : List Tree} {c : Tree}
    (h : (codeChildren children).getLast? = some c) : c ∈ children :=
  (List.mem_filter.1 (List.mem_of_getLast? h)).1

/-- The last line that holds code of a tree. -/
def codeEndLine : Tree → Nat
  | .node info children =>
    match h : (codeChildren children).getLast? with
    | none => (lineSpan (.node info children)).2
    | some c =>
      have : c ∈ children := mem_of_getLast?_codeChildren h
      codeEndLine c

/-- The expression of a decorator. -/
def decoratorText (source : Text) (t : Tree) : Text :=
  match t.namedChildren.find? fun c => !c.isComment with
  | some e => Text.trim (e.text source)
  | none => Text.trim ((Text.trim (t.text source)).dropWhile (· = '@'))

/-- The modifiers that a function has by its keyword and its decorators. -/
def modifiers (isAsync : Bool) (decorators : List Text) : List String :=
  let has (wanted : String) : Bool :=
    decorators.any fun d => d == wanted.toList || ('.' :: wanted.toList).isSuffixOf d
  (if isAsync then ["async"] else []) ++ (["staticmethod", "classmethod"].filter has)

/-- The header of a function on lines of its own. -/
def signature (name : Text) (decorators parameters : List Text) (returnType : Option Text)
    (isAsync : Bool) : Text :=
  decorators.flatMap (fun d => '@' :: (d ++ ['\n'])) ++
    (if isAsync then "async ".toList else []) ++ "def ".toList ++ name ++
    '(' :: (Text.join [',', ' '] parameters ++ ')' ::
      ((returnType.map fun r => " -> ".toList ++ r).getD [] ++ [':']))

/-- The record of a function. -/
def record? (src : Source) (scope : Option ClassScope) (decorators : List Text) (t : Tree) :
    Option FunctionRecord :=
  (t.child? "name").map fun nameNode =>
    let name := nameNode.text src.text
    let isAsync := t.children.head?.any (·.kind == "async")
    let parameters := ((t.child? "parameters").map (parameters src.text)).getD []
    let returnType := (t.child? "return_type").map fun r => Text.trim (r.text src.text)
    let startLine := t.start.row + 1
    let endLine := codeEndLine t
    let fullText := src.slice startLine endLine
    let doc := (t.child? "body").bind (docstring? src.text)
    let text := match doc with
      | some d => src.slice startLine (d.firstLine - 1) ++ src.slice (d.lastLine + 1) endLine
      | none => fullText
    { language := some .python
      fullText := some (String.ofList fullText)
      text := some (String.ofList text)
      docstring := doc.map fun d => String.ofList d.value
      fullLineCount := endLine - startLine + 1
      lineCount := Text.countLines text
      docstringLineCount := some ((doc.map fun d => d.lastLine - d.firstLine + 1).getD 0)
      name := some (String.ofList name)
      qualifiedName := some (String.ofList (match scope with
        | some scope => scope.path ++ '.' :: name
        | none => name))
      signature := String.ofList (signature name decorators parameters returnType isAsync)
      returnType := returnType.map String.ofList
      parameters := parameters.map String.ofList
      startLine := startLine
      endLine := endLine
      isMethod := scope.isSome
      className := scope.map fun scope => String.ofList scope.name
      classDescription := (scope.bind ClassScope.description).map String.ofList
      decorators := decorators.map String.ofList
      modifiers := modifiers isAsync decorators
      hasBody := true
      isConstructor := scope.isSome && name == "__init__".toList }

/-- The scope that a class opens inside another one or on its own. -/
def classScope (src : Source) (outer : Option ClassScope) (name body : Tree) : ClassScope :=
  let name := name.text src.text
  { name := name
    path := match outer with
      | some outer => outer.path ++ '.' :: name
      | none => name
    description := (docstring? src.text body).map Docstring.value }

/-- A child with a role lies among the children. -/
theorem mem_children_of_child? {t c : Tree} {role : String} (h : t.child? role = some c) :
    c ∈ t.children := List.mem_of_find?_eq_some h

mutual

/-- The functions of a statement in a file or in the body of a class, the decorators before it
given. -/
def functionsOf (src : Source) (scope : Option ClassScope) (decorators : List Text) (t : Tree) :
    List FunctionRecord :=
  match t.kind with
  | "function_definition" => (record? src scope decorators t).toList
  | "class_definition" =>
    match t.child? "name", h : t.child? "body" with
    | some name, some body =>
      have := Tree.sizeOf_lt_of_mem_children (mem_children_of_child? h)
      functionsOfBody src (some (classScope src scope name body)) body
    | _, _ => []
  | "decorated_definition" =>
    match h : t.child? "definition" with
    | some definition =>
      have := Tree.sizeOf_lt_of_mem_children (mem_children_of_child? h)
      let decorators :=
        (t.namedChildren.filter (·.kind == "decorator")).map (decoratorText src.text)
      if definition.kind == "decorated_definition" then []
      else functionsOf src scope decorators definition
    | none => []
  | _ => []
termination_by sizeOf t

/-- The functions of the statements of a file or of the body of a class. -/
def functionsOfBody (src : Source) (scope : Option ClassScope) (t : Tree) : List FunctionRecord :=
  (t.children.attach.filter fun c => c.1.info.named).flatMap fun ⟨c, h⟩ =>
    have := Tree.sizeOf_lt_of_mem_children h
    functionsOf src scope [] c
termination_by sizeOf t

end

/-- The functions of a Python file; none if it does not parse. -/
def extract (t : Text) : List FunctionRecord :=
  match parse? t with
  | some tree => functionsOfBody (.ofText t) none tree
  | none => []

end Glossator.Python
