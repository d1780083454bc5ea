import Glossator.Toml.Value

/-!
# Reading TOML documents

A document is read line by line: a line is blank, a header, or a key with its value. A value may
spread over several lines.
-/

set_option autoImplicit false

namespace Glossator.Toml

open Outline (Fields)

/-- The document read so far, and the table that keys belong to. -/
structure Draft where
  fields : Fields
  table : List Text

/-- What follows the end of a line: blanks, a comment, and a line end or the end of the text. -/
def afterLine? (t : Text) : Option Text :=
  match skipComment (skipSpaces t) with
  | [] => some []
  | t => afterNewline? t

/-- A line that gives a table its header. -/
def header? (draft : Draft) (t : Text) : Option (Draft × Text) := do
  let ((path, name), rest) ← key? t
  let rest ← afterLine? (← after? ']' rest)
  some (⟨← draft.fields.openTable path name, path ++ [name]⟩, rest)

/-- A line that starts a further one of the tables that share a header. -/
def furtherHeader? (draft : Draft) (t : Text) : Option (Draft × Text) := do
  let ((path, name), rest) ← key? t
  let rest ← afterLine? (← after? ']' (← after? ']' rest))
  some (⟨← draft.fields.openFurther path name, path ++ [name]⟩, rest)

/-- A line with a key and its value. -/
def setting? (draft : Draft) (t : Text) : Option (Draft × Text) := do
  let ((path, name), rest) ← key? t
  let (v, rest) ← value? maxDepth (skipSpaces (← after? '=' rest))
  let rest ← afterLine? rest
  some ({ draft with fields := ← draft.fields.assignIn draft.table path name v }, rest)

/-- A line of a document, with the blanks at its start left out. -/
def line? (draft : Draft) : Text → Option (Draft × Text)
  | '[' :: '[' :: rest => furtherHeader? draft rest
  | '[' :: rest => header? draft rest
  | '#' :: rest => (afterLine? ('#' :: rest)).map fun rest => (draft, rest)
  | '\n' :: rest => some (draft, rest)
  | '\r' :: '\n' :: rest => some (draft, rest)
  | t => setting? draft t

/-- The lines of a document, at most so many. -/
def lines? : Nat → Draft → Text → Option Fields
  | 0, _, _ => none
  | bound + 1, draft, t =>
    match skipSpaces t with
    | [] => some draft.fields
    | t => do
      let (draft, rest) ← line? draft t
      lines? bound draft rest

/-- The text without the mark of its encoding. -/
def withoutByteOrderMark : Text → Text
  | '\uFEFF' :: rest => rest
  | t => t

/-- The table that a document holds. -/
def read? (t : Text) : Option (List (Text × Toml)) :=
  let t := withoutByteOrderMark t
  (lines? (t.length + 1) ⟨[], []⟩ t).map Outline.toTomlFields

end Glossator.Toml
