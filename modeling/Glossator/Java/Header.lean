import Glossator.Pattern.Search

/-!
# Patterns of Java declarations

Types and methods are found by the shape of their headers: the comments and annotations that stand
before a declaration, its modifiers, and the words up to the opening brace or the semicolon.
-/

set_option autoImplicit false

namespace Glossator.Java

open Pattern

/-- The parts of a declaration's header that are read back. -/
inductive HeaderPart where
  | comments
  | annotations
  | inlineAnnotations
  | declaration
  | modifiers
  | typeParameters
  | returnType
  | kind
  | name
  | parameters
  | terminator
deriving DecidableEq, Repr

/-- A pattern for headers. -/
abbrev HeaderPattern := Pattern HeaderPart

/-- A part of a header that is read back. -/
def named (label : HeaderPart) (p : HeaderPattern) : HeaderPattern := part label p

/-- A documentation comment: it ends at its first closer. -/
def docComment : HeaderPattern :=
  text "/**" ++ many (· ≠ '*') ++ someOf (· = '*') ++
    Pattern.star (one (fun c => c ≠ '/' && c ≠ '*') ++ many (· ≠ '*') ++ someOf (· = '*')) ++
    text "/"

/-- A line comment without the newline. -/
def lineComment : HeaderPattern := text "//" ++ many (· ≠ '\n')

/-- Text whose parentheses nest at most so deep. -/
def nested : Nat → HeaderPattern
  | 0 => many fun c => c ≠ '(' && c ≠ ')'
  | depth + 1 => nested 0 ++ Pattern.star (text "(" ++ nested depth ++ text ")" ++ nested 0)

/-- An annotation, with arguments in which parentheses may stand once more. -/
def annotationMark : HeaderPattern :=
  text "@" ++ someOf (fun c => isWord c || c = '.') ++
    maybe (text "(" ++ nested 1 ++ text ")")

/-- Spaces and tabs. -/
def indentation : HeaderPattern := many fun c => c = ' ' || c = '\t'

/-- Words from a list, with blanks anywhere around them. -/
def modifierWords (words : List String) : HeaderPattern :=
  named .modifiers (plus (anyText words ++ wordEdge ||| one isBlank))

/-- The modifiers of types. -/
def typeModifiers : List String :=
  ["public", "private", "protected", "abstract", "final", "static"]

/-- The modifiers of methods. -/
def methodModifiers : List String :=
  ["public", "private", "protected", "static", "final", "abstract", "synchronized", "strictfp",
    "default", "native", "transient", "volatile"]

/-- The header of a type, up to its name and the type parameters right after it. -/
def typeHeader : HeaderPattern :=
  named .comments (Pattern.star (docComment ++ blanks ||| lineComment ++ text "\n")) ++
  Pattern.star (annotationMark ++ blanks) ++
  maybe (modifierWords typeModifiers) ++ blanks ++
  wordEdge ++ named .kind (anyText ["class", "interface", "enum"]) ++ someBlanks ++
  named .name word ++ maybe (blanks ++ text "<" ++ someOf (· ≠ '>') ++ text ">")

/-- The comments on the lines before a method. -/
def methodComments : HeaderPattern :=
  maybe (named .comments
    (plus (lineStart ++ indentation ++ (docComment ||| lineComment) ++ blanks)))

/-- The annotations on lines of their own before a method. -/
def methodAnnotations : HeaderPattern :=
  named .annotations
    (Pattern.star (lineStart ++ indentation ++ plus (annotationMark ++ indentation) ++
      maybe (text "\r") ++ text "\n"))

/-- A character of a return type. -/
def isTypeChar (c : Char) : Bool :=
  isWord c || c = '<' || c = '>' || c = '[' || c = ']' || c = ',' || c = ' ' || c = '?'

/-- The modifiers, type parameters and return type of a method. -/
def methodDeclaration : HeaderPattern :=
  named .declaration
    (maybe (modifierWords methodModifiers) ++
      maybeLazy (named .typeParameters
        (text "<" ++
          someOf (fun c => isWord c || isBlank c || c = ',' || c = '?' || c = '[' || c = ']') ++
          text ">" ++ someBlanks)) ++
      maybe (named .returnType (someOf isTypeChar) ++ someBlanks))

/-- The header of a method, up to the brace that opens its body or the semicolon. -/
def methodHeader : HeaderPattern :=
  methodComments ++ methodAnnotations ++ lineStart ++ indentation ++
  named .inlineAnnotations (Pattern.star (annotationMark ++ someBlanks)) ++
  methodDeclaration ++
  named .name word ++ blanks ++
  text "(" ++ named .parameters (nested 2) ++ text ")" ++ blanks ++
  maybe (text "throws" ++ someBlanks ++ someOf (fun c => c ≠ '{' && c ≠ ';')) ++ blanks ++
  named .terminator (one fun c => c = '{' || c = ';')

/-- The declaration of a package. -/
def packageHeader : HeaderPattern :=
  lineStart ++ blanks ++ text "package" ++ someBlanks ++
  named .name (someOf fun c => isWord c || c = '.') ++ blanks ++ text ";"

end Glossator.Java
