import Glossator.Python.Literal
import Glossator.Tree

/-!
# Docstrings

The docstring of a body is its first statement, if that is a string literal and nothing else. Its
text is dedented: tabs are expanded, the common indentation of the lines after the first is
removed, and so are the empty lines at both ends.
-/

set_option autoImplicit false

namespace Glossator.Python

/-- The width of a tab. -/
def tabWidth : Nat := 8

/-- The text with tabs as spaces up to the next tab stop, starting in a column. -/
def expandTabs (column : Nat) : Text → Text
  | [] => []
  | c :: rest =>
    if c = '\t' then
      let width := tabWidth - column % tabWidth
      List.replicate width ' ' ++ expandTabs (column + width) rest
    else if c = '\n' || c = '\r' then c :: expandTabs 0 rest
    else c :: expandTabs (column + 1) rest

/-- The number of blanks a line starts with. -/
def indentation (line : Text) : Nat := (line.takeWhile isBlank).length

/-- The smallest indentation of the lines that are not blank; zero if all are. -/
def commonIndentation (lines : List Text) : Nat :=
  ((lines.filter fun l => !(Text.trimStart l).isEmpty).map indentation).min?.getD 0

/-- The lines without the empty ones at both ends. -/
def trimEmptyLines (lines : List Text) : List Text :=
  ((lines.reverse.dropWhile List.isEmpty).reverse).dropWhile List.isEmpty

/-- The dedented text of a docstring. -/
def dedent (t : Text) : Text :=
  match (expandTabs 0 t).splitAt (· = '\n') with
  | [] => []
  | first :: later =>
    let lines := Text.trimStart first :: later.map (List.drop (commonIndentation later))
    Text.join ['\n'] (trimEmptyLines lines)

/-- The value of a string literal, or of several that stand side by side. -/
def stringValue? (source : Text) : Tree → Option Text
  | .node info children =>
    if info.kind == "string" then
      literalValue? (Span.slice ⟨info.start.offset, info.stop.offset⟩ source)
    else if info.kind == "concatenated_string" then
      (children.attach.filter fun c => c.1.info.named && !c.1.isComment).foldr
        (fun ⟨c, _⟩ (rest : Option Text) => (stringValue? source c).bind fun v => rest.map (v ++ ·))
        (some [])
    else none

/-- The first and the last line that a tree covers, counted from 1. A tree that ends at the start of
a line ends with the line before. -/
def lineSpan (t : Tree) : Nat × Nat :=
  (t.start.row + 1,
    if t.stop.column = 0 && t.start.row < t.stop.row then t.stop.row else t.stop.row + 1)

/-- A docstring and the lines of its statement. -/
structure Docstring where
  value : Text
  firstLine : Nat
  lastLine : Nat

/-- The docstring of a body. -/
def docstring? (source : Text) (body : Tree) : Option Docstring := do
  let first ← body.namedChildren.find? fun c => !c.isComment
  if first.kind == "expression_statement" then
    match first.namedChildren with
    | [expression] =>
      let value ← stringValue? source expression
      let (firstLine, lastLine) := lineSpan first
      some ⟨dedent value, firstLine, lastLine⟩
    | _ => none
  else none

end Glossator.Python
