import Glossator.Ignore.Glob

/-!
# Ignore rules

A line of an ignore file is a rule: a glob, perhaps for directories alone, that either ignores what
it matches or takes it back. A rule without a slash inside holds at any depth; another one holds
from the directory of the file on.
-/

set_option autoImplicit false

namespace Glossator.Ignore

namespace Glob

/-- A glob while it is read: its last tokens first, and around an open brace the branches that are
done and the tokens before the brace, the innermost brace first. -/
structure Draft where
  current : List Token
  around : List (List (List Token) × List Token)
  /-- The character read last. -/
  previous : Option Char
  /-- A bracket was never closed, so that brackets stand for themselves. -/
  bracketsAreText : Bool

namespace Draft

/-- Adds tokens at the end. -/
def push (d : Draft) (tokens : List Token) : Draft :=
  { d with current := tokens.reverse ++ d.current }

/-- Adds a character that stands for itself. -/
def pushText (d : Draft) (c : Char) : Draft :=
  { d.push ((Utf8.encode [c]).map .byte) with previous := some c }

/-- Remembers the character read last. -/
def after (d : Draft) (c : Char) : Draft := { d with previous := some c }

/-- Opens a brace. -/
def openBrace (d : Draft) : Draft :=
  { d with current := [], around := ([], d.current) :: d.around, previous := some '{' }

/-- Ends a branch at a comma; a comma outside of braces stands for itself. -/
def comma (d : Draft) : Draft :=
  match d.around with
  | [] => d.pushText ','
  | (branches, before) :: around =>
    { d with
      current := [], around := (branches ++ [d.current.reverse], before) :: around
      previous := some ',' }

/-- Closes a brace; there must be an open one. -/
def closeBrace? (d : Draft) : Option Draft :=
  match d.around with
  | [] => none
  | (branches, before) :: around =>
    some { d with
      current := .choice (branches ++ [d.current.reverse]) :: before, around := around
      previous := some '}' }

/-- Takes in a double star between slashes, in place of the token before it. -/
def crossing (d : Draft) (token : Token) : Draft :=
  match d.current with
  | .leading :: _ | .trailing :: _ => d
  | _ :: tokens => { d with current := token :: tokens }
  | [] => { d with current := [token] }

/-- Takes in a double star, given what follows it; also tells what remains. -/
def doubleStar (d : Draft) (rest : Text) : Draft × Text :=
  let plain := ((d.push [.star, .star]).after '*', rest)
  if d.current.isEmpty then
    match rest with
    | [] => ((d.push [.leading]).after '*', [])
    | '/' :: rest => ((d.push [.leading]).after '/', rest)
    | _ => plain
  else if d.previous != some '/' &&
      (d.around.isEmpty || (d.previous != some ',' && d.previous != some '{')) then plain
  else
    match rest with
    | [] => ((d.crossing .trailing).after '*', [])
    | '/' :: rest => ((d.crossing .between).after '/', rest)
    | c :: _ =>
      if (c == ',' || c == '}') && !d.around.isEmpty then ((d.crossing .trailing).after '*', rest)
      else plain

end Draft

/-- What reading a bracket comes to. -/
inductive Bracket where
  /-- The ranges, the last one first, and what follows the bracket. -/
  | closed (ranges : List (Char × Char)) (rest : Text)
  | unclosed
  /-- A range whose end is before its start. -/
  | backwards

/-- Reads the ranges of a bracket; a hyphen between two characters makes a range of them. -/
def bracketBody (ranges : List (Char × Char)) (isFirst inRange : Bool) : Text → Bracket
  | [] => .unclosed
  | c :: rest =>
    if c = ']' && !isFirst then .closed (if inRange then ('-', '-') :: ranges else ranges) rest
    else if c = '-' && !isFirst && !inRange then bracketBody ranges false true rest
    else if inRange then
      match ranges with
      | (low, _) :: others =>
        if c < low then .backwards else bracketBody ((low, c) :: others) false false rest
      | [] => .backwards
    else bracketBody ((c, c) :: ranges) false false rest

/-- The ranges of bytes that a range of characters stands for. -/
def byteRanges : Char × Char → List (UInt8 × UInt8)
  | (low, high) =>
    let single (b : UInt8) : UInt8 × UInt8 := (b, b)
    let lowBytes := Utf8.encode [low]
    let highBytes := Utf8.encode [high]
    if low = high then lowBytes.map single
    else
      lowBytes.dropLast.map single ++
        (match lowBytes.getLast?, highBytes with
          | some a, b :: _ => [(a, b)]
          | _, _ => []) ++ highBytes.tail.map single

/-- Reads the rest of a glob, at most so many characters. -/
def read? : Nat → Draft → Text → Option Draft
  | _, d, [] => some d
  | 0, _, _ => none
  | bound + 1, d, c :: rest =>
    match c with
    | '?' => read? bound ((d.push [.any]).after c) rest
    | '*' =>
      match rest with
      | '*' :: rest => let (d, rest) := d.doubleStar rest; read? bound d rest
      | _ => read? bound ((d.push [.star]).after c) rest
    | '[' =>
      if d.bracketsAreText then read? bound (d.pushText c) rest
      else
        let (negated, body) := match rest with
          | '!' :: body => (true, body)
          | '^' :: body => (true, body)
          | body => (false, body)
        match bracketBody [] true false body with
        | .closed ranges rest =>
          read? bound ((d.push [.oneOf negated (ranges.reverse.flatMap byteRanges)]).after ']') rest
        | .unclosed => read? bound { d.pushText c with bracketsAreText := true } rest
        | .backwards => none
    | '{' => read? bound d.openBrace rest
    | '}' => match d.closeBrace? with
      | some d => read? bound d rest
      | none => none
    | ',' => read? bound d.comma rest
    | '\\' => match rest with
      | c :: rest => read? bound (d.pushText c) rest
      | [] => none
    | c => read? bound (d.pushText c) rest

/-- The glob of a text; all braces must be closed. -/
def ofText? (t : Text) : Option Glob := do
  let d ← read? t.length ⟨[], [], none, false⟩ t
  if d.around.isEmpty then some d.current.reverse else none

end Glob

/-- A rule of an ignore file. -/
structure Rule where
  glob : Glob
  /-- The rule takes back what earlier ones ignore. -/
  keeps : Bool
  directoriesOnly : Bool

/-- The text ends with another one. -/
def endsWith (t finish : Text) : Bool := finish.isSuffixOf t

/-- The glob text of a rule, given the text between its marks: it holds at any depth unless it is
bound to the directory, and a double star at its end leaves out the directory itself. -/
def globText (bound : Bool) (t : Text) : Text :=
  let anywhere := bound || t.contains '/' || t == ['*', '*']
  let t := if anywhere then t else ['*', '*', '/'] ++ t
  if endsWith t ['/', '*', '*'] then t ++ ['/', '*'] else t

/-- The marks at the start of a line: the rule takes back, it is bound to the directory, and what
remains. -/
def leadingMarks : Text → Bool × Bool × Text
  | '\\' :: '!' :: rest => (false, false, '!' :: rest)
  | '\\' :: '#' :: rest => (false, false, '#' :: rest)
  | '!' :: '/' :: rest => (true, true, rest)
  | '!' :: rest => (true, false, rest)
  | '/' :: rest => (false, true, rest)
  | t => (false, false, t)

/-- A slash at the end binds a rule to directories; the mark may have a backslash before it. -/
def trailingMark (t : Text) : Bool × Text :=
  match t.reverse with
  | '/' :: '\\' :: rest => (true, rest.reverse)
  | '/' :: rest => (true, rest.reverse)
  | _ => (false, t)

/-- The rule of a line; comments, blank lines and globs that cannot be read are none. -/
def Rule.ofLine? (line : Text) : Option Rule :=
  let line := if endsWith line ['\\', ' '] then line else Text.trimEnd line
  if line.isEmpty || line.head? == some '#' then none
  else
    let (keeps, bound, body) := leadingMarks line
    let (directoriesOnly, body) := trailingMark body
    (Glob.ofText? (globText bound body)).map fun glob => ⟨glob, keeps, directoriesOnly⟩

/-- What rules say of a path. -/
inductive Verdict where
  | silent
  | ignored
  | kept
deriving DecidableEq, Repr

/-- The first of two verdicts that is not silent. -/
def Verdict.or (a b : Verdict) : Verdict := match a with
  | silent => b
  | _ => a

/-- The rules of an ignore file, in order. -/
abbrev Rules := List Rule

namespace Rules

/-- What rules say of a path below their directory: the last rule that matches decides. -/
def verdict (rules : Rules) (path : Bytes) (isDirectory : Bool) : Verdict :=
  match rules.reverse.find? fun r => (isDirectory || !r.directoriesOnly) && r.glob.accepts path with
  | none => .silent
  | some r => if r.keeps then .kept else .ignored

/-- The text up to the last line before one that is not UTF-8. -/
def readableStart (content : Bytes) : Text :=
  match Utf8.decode? content with
  | some t => t
  | none =>
    let valid := (Utf8.pieces content).takeWhile Option.isSome |>.filterMap id
    (valid.reverse.dropWhile (· ≠ '\n')).reverse

/-- The rules of an ignore file. -/
def ofFile (content : Bytes) : Rules :=
  let t := readableStart content
  let t := t.dropWhile (· = '\uFEFF')
  (Text.lines t).filterMap Rule.ofLine?

end Rules

end Glossator.Ignore
