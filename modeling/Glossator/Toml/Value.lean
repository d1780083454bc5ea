import Glossator.Toml.Moment
import Glossator.Toml.Outline

/-!
# Reading TOML values

Keys and values. Arrays may spread over lines and hold comments; tables in braces stand on one
line. Arrays and tables nest at most 79 deep, and a dotted key has at most 79 parts.
-/

set_option autoImplicit false

namespace Glossator.Toml

/-- The character may stand in a key without quotes. -/
def isBare (c : Char) : Bool := c.isAlphanum || c == '_' || c == '-'

/-- A part of a key. -/
def simpleKey? (t : Text) : Option (Text × Text) :=
  match t.takeWhile isBare with
  | [] => lineString? t
  | name => some (name, t.dropWhile isBare)

/-- The parts of a key between dots, at most so many. -/
def keyParts? : Nat → Reader (List Text)
  | 0, _ => none
  | bound + 1, t => do
    let (name, rest) ← simpleKey? (skipSpaces t)
    match skipSpaces rest with
    | '.' :: rest => (keyParts? bound rest).map fun (names, rest) => (name :: names, rest)
    | rest => some ([name], rest)

/-- How deep arrays and tables nest, and how many parts a key has, at most. -/
def maxDepth : Nat := 79

/-- A key: the names before its last one, and its last one. -/
def key? (t : Text) : Option ((List Text × Text) × Text) := do
  let (names, rest) ← keyParts? maxDepth t
  some ((names.dropLast, ← names.getLast?), rest)

/-- The text without a comment at its start; the line end that closes it remains. -/
def skipComment : Text → Text
  | '#' :: rest => rest.dropWhile isPlain
  | t => t

/-- The text without the blanks, line ends and comments it starts with, at most so many. -/
def skipFiller : Nat → Text → Text
  | 0, t => t
  | bound + 1, t =>
    match afterNewline? t with
    | some rest => skipFiller bound rest
    | none =>
      match t with
      | c :: rest =>
        if isSpace c then skipFiller bound rest
        else if c = '#' then skipFiller bound (rest.dropWhile isPlain)
        else t
      | [] => []

/-- The items of an array up to its end, at most so many, after the bracket or a comma. -/
def items? (item : Reader Toml) : Nat → Reader (List Toml)
  | 0, _ => none
  | bound + 1, t =>
    match skipFiller t.length t with
    | ']' :: rest => some ([], rest)
    | t => do
      let (v, rest) ← item t
      match skipFiller rest.length rest with
      | ']' :: rest => some ([v], rest)
      | ',' :: rest => (items? item bound rest).map fun (vs, rest) => (v :: vs, rest)
      | _ => none

/-- The fields of a table in braces up to its end, at most so many, after the brace or a comma. -/
def fields? (item : Reader Toml) : Nat → Reader (List ((List Text × Text) × Toml))
  | 0, _ => none
  | bound + 1, t => do
    let (key, rest) ← key? t
    let (v, rest) ← item (skipSpaces (← after? '=' rest))
    match skipSpaces rest with
    | '}' :: rest => some ([(key, v)], rest)
    | ',' :: rest => (fields? item bound rest).map fun (fs, rest) => ((key, v) :: fs, rest)
    | _ => none

/-- The table with the given keys; none if two of them clash. -/
def ofAssignments? (fields : List ((List Text × Text) × Toml)) : Option Toml :=
  (fields.foldlM (fun made ((path, name), v) => Outline.Fields.assign path name v made) []).map
    fun made => .table (Outline.toTomlFields made)

/-- A value without parts. -/
def scalar? (t : Text) : Option (Scalar × Text) :=
  match t with
  | 't' :: 'r' :: 'u' :: 'e' :: rest => some (.boolean true, rest)
  | 'f' :: 'a' :: 'l' :: 's' :: 'e' :: rest => some (.boolean false, rest)
  | '"' :: _ | '\'' :: _ => (string? t).map fun (s, rest) => (.string s, rest)
  | _ =>
    match moment? t with
    | some (literal, rest) => some (.moment literal, rest)
    | none => number? t

/-- A value whose arrays and tables nest at most so deep. -/
def value? : Nat → Reader Toml
  | 0, '[' :: _ => none
  | 0, '{' :: _ => none
  | depth + 1, '[' :: rest =>
    (items? (value? depth) (rest.length + 1) rest).map fun (vs, rest) => (.array vs, rest)
  | depth + 1, '{' :: rest =>
    match skipSpaces rest with
    | '}' :: rest => some (.table [], rest)
    | t => do
      let (fields, rest) ← fields? (value? depth) (t.length + 1) t
      some (← ofAssignments? fields, rest)
  | _, t => (scalar? t).map fun (s, rest) => (.scalar s, rest)

end Glossator.Toml
