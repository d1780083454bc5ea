import Glossator.Toml.Basic

/-!
# TOML strings

The four kinds of strings: on one line or on several, with escapes or without. A newline right
after the mark of a string of several lines is not part of it, and every line end in such a string
reads as a newline.
-/

set_option autoImplicit false

namespace Glossator.Toml

/-- A reader takes a value from the start of a text and leaves the rest. -/
abbrev Reader (α : Type) := Text → Option (α × Text)

/-- The character is a blank inside a line. -/
def isSpace (c : Char) : Bool := c == ' ' || c == '\t'

/-- The text without the blanks it starts with. -/
def skipSpaces (t : Text) : Text := t.dropWhile isSpace

/-- What follows a line end, if the text starts with one. -/
def afterNewline? : Text → Option Text
  | '\n' :: rest => some rest
  | '\r' :: '\n' :: rest => some rest
  | _ => none

/-- The character may stand in a text as it is: it is a tab or no control character. -/
def isPlain (c : Char) : Bool := 32 ≤ c.toNat && c.toNat != 127 || c == '\t'

/-- The character that so many hexadecimal digits stand for; a surrogate is none. -/
def codePoint? (width : Nat) : Reader Char := fun t =>
  let digits := t.take width
  let n := Digits.value 16 digits
  if digits.length = width && digits.all (Digits.isDigitOf 16) && (n < 0xD800 || 0xDFFF < n) &&
      n < 0x110000 then
    some (Char.ofNat n, t.drop width)
  else none

/-- The character of an escape, after its backslash. -/
def escape? : Reader Char
  | 'b' :: rest => some ('\x08', rest)
  | 't' :: rest => some ('\t', rest)
  | 'n' :: rest => some ('\n', rest)
  | 'f' :: rest => some ('\x0c', rest)
  | 'r' :: rest => some ('\r', rest)
  | '"' :: rest => some ('"', rest)
  | '\\' :: rest => some ('\\', rest)
  | 'u' :: rest => codePoint? 4 rest
  | 'U' :: rest => codePoint? 8 rest
  | _ => none

/-- A string between double quotes, after the first of them, at most so many characters. -/
def basicBody? : Nat → Reader Text
  | 0, _ => none
  | bound + 1, t =>
    match t with
    | [] => none
    | '"' :: rest => some ([], rest)
    | '\\' :: rest => do
      let (c, rest) ← escape? rest
      let (s, rest) ← basicBody? bound rest
      some (c :: s, rest)
    | c :: rest =>
      if isPlain c then (basicBody? bound rest).map fun (s, rest) => (c :: s, rest) else none

/-- A string between single quotes, after the first of them. -/
def literalBody? (t : Text) : Option (Text × Text) :=
  match t.dropWhile fun c => isPlain c && c != '\'' with
  | '\'' :: rest => some (t.takeWhile fun c => isPlain c && c != '\'', rest)
  | _ => none

/-- The number of equal characters at the start of a text. -/
def runLength (c : Char) (t : Text) : Nat := (t.takeWhile (· = c)).length

/-- The text after the blanks and line ends it starts with, at most so many. -/
def skipBlankLines : Nat → Text → Text
  | 0, t => t
  | bound + 1, t =>
    match afterNewline? t with
    | some rest => skipBlankLines bound rest
    | none =>
      match t with
      | c :: rest => if isSpace c then skipBlankLines bound rest else t
      | [] => []

/-- A string of several lines between the given quotes, after the opening ones, at most so many
characters. Fewer than three quotes are part of it, and so are up to two of those that end it. -/
def linesBody? (quote : Char) (escapes : Bool) : Nat → Reader Text
  | 0, _ => none
  | bound + 1, t =>
    let further (start : Text) (rest : Text) : Option (Text × Text) :=
      (linesBody? quote escapes bound rest).map fun (s, rest) => (start ++ s, rest)
    let run := runLength quote t
    if 3 ≤ run then
      let bare := min run 5 - 3
      some (List.replicate bare quote, t.drop (bare + 3))
    else if 0 < run then further (List.replicate run quote) (t.drop run)
    else
      match afterNewline? t with
      | some rest => further ['\n'] rest
      | none =>
        match t with
        | [] => none
        | c :: rest =>
          if escapes && c == '\\' then
            match afterNewline? (skipSpaces rest) with
            | some rest => further [] (skipBlankLines rest.length rest)
            | none => do
              let (c, rest) ← escape? rest
              further [c] rest
          else if isPlain c then further [c] rest
          else none

/-- A string of several lines, after its opening quotes. -/
def linesAfterMark? (quote : Char) (escapes : Bool) (t : Text) : Option (Text × Text) :=
  let body := (afterNewline? t).getD t
  linesBody? quote escapes (body.length + 1) body

/-- A string on one line. -/
def lineString? : Reader Text
  | '"' :: rest => basicBody? (rest.length + 1) rest
  | '\'' :: rest => literalBody? rest
  | _ => none

/-- A string of any kind. -/
def string? : Reader Text
  | '"' :: '"' :: '"' :: rest => linesAfterMark? '"' true rest
  | '\'' :: '\'' :: '\'' :: rest => linesAfterMark? '\'' false rest
  | t => lineString? t

end Glossator.Toml
