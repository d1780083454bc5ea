import Glossator.Json.Basic

/-!
# Reading JSON

A text is read strictly: nothing but blanks may stand around the one value, control characters in
strings must be escaped, and a surrogate must be followed by its partner. Arrays and objects nest
at most 127 deep.
-/

set_option autoImplicit false

namespace Glossator.Json

/-- A reader takes a value from the start of a text and leaves the rest. -/
abbrev Reader (α : Type) := Text → Option (α × Text)

/-- The text without the blanks JSON allows between tokens. -/
def skipBlanks (t : Text) : Text :=
  t.dropWhile fun c => c == ' ' || c == '\n' || c == '\t' || c == '\r'

/-- The number of four hexadecimal digits. -/
def hexUnit? : Reader Nat
  | a :: b :: c :: d :: rest =>
    if [a, b, c, d].all (Digits.isDigitOf 16) then some (Digits.value 16 [a, b, c, d], rest)
    else none
  | _ => none

/-- The character of an escape with a code: two surrogates make one character. -/
def codeEscape? : Reader Char := fun t => do
  let (high, rest) ← hexUnit? t
  if 0xD800 ≤ high && high < 0xDC00 then
    match rest with
    | '\\' :: 'u' :: rest =>
      let (low, rest) ← hexUnit? rest
      if 0xDC00 ≤ low && low < 0xE000 then
        some (Char.ofNat (0x10000 + (high - 0xD800) * 0x400 + (low - 0xDC00)), rest)
      else none
    | _ => none
  else if 0xDC00 ≤ high && high < 0xE000 then none
  else some (Char.ofNat high, rest)

/-- The character of an escape, after the backslash. -/
def escape? : Reader Char
  | '"' :: rest => some ('"', rest)
  | '\\' :: rest => some ('\\', rest)
  | '/' :: rest => some ('/', rest)
  | 'b' :: rest => some ('\x08', rest)
  | 'f' :: rest => some ('\x0c', rest)
  | 'n' :: rest => some ('\n', rest)
  | 'r' :: rest => some ('\r', rest)
  | 't' :: rest => some ('\t', rest)
  | 'u' :: rest => codeEscape? rest
  | _ => none

/-- The characters of a string up to its closing quote, at most so many. -/
def stringBody? : Nat → Reader Text
  | 0, _ => none
  | bound + 1, t =>
    match t with
    | [] => none
    | '"' :: rest => some ([], rest)
    | '\\' :: rest => do
      let (c, rest) ← escape? rest
      let (s, rest) ← stringBody? bound rest
      some (c :: s, rest)
    | c :: rest =>
      if c.toNat < 32 then none
      else do
        let (s, rest) ← stringBody? bound rest
        some (c :: s, rest)

/-- The digits at the start of a text; at least one. -/
def digits? (t : Text) : Option (Text × Text) :=
  match t.takeWhile Char.isDigit with
  | [] => none
  | ds => some (ds, t.dropWhile Char.isDigit)

/-- The whole part of a number: no zero stands in front of other digits. -/
def wholePart? (t : Text) : Option (Text × Text) :=
  match t with
  | '0' :: rest => if rest.head?.any Char.isDigit then none else some (['0'], rest)
  | _ => digits? t

/-- The fraction of a number, empty if there is none. -/
def fraction? : Reader Text
  | '.' :: rest => (digits? rest).map fun (ds, rest) => ('.' :: ds, rest)
  | t => some ([], t)

/-- The exponent of a number, empty if there is none. -/
def exponent? (t : Text) : Option (Text × Text) :=
  match t with
  | e :: rest =>
    if e == 'e' || e == 'E' then
      match rest with
      | sign :: more =>
        if sign == '+' || sign == '-' then
          (digits? more).map fun (ds, rest) => (e :: sign :: ds, rest)
        else (digits? rest).map fun (ds, rest) => (e :: ds, rest)
      | [] => none
    else some ([], t)
  | [] => some ([], t)

/-- The value of a number from its parts. -/
def ofNumberParts (negative : Bool) (whole fraction exponent : Text) : Json :=
  let literal := (if negative then ['-'] else []) ++ whole ++ fraction ++ exponent
  let magnitude : Int := Digits.value 10 whole
  let i := if negative then -magnitude else magnitude
  if fraction.isEmpty && exponent.isEmpty && !(negative && i == 0) &&
      (-9223372036854775808 ≤ i && i ≤ 18446744073709551615) then integer i
  else decimal (String.ofList literal)

/-- A number. -/
def number? : Reader Json := fun t => do
  let (negative, t) := match t with
    | '-' :: rest => (true, rest)
    | _ => (false, t)
  let (whole, t) ← wholePart? t
  let (fraction, t) ← fraction? t
  let (exponent, t) ← exponent? t
  some (ofNumberParts negative whole fraction exponent, t)

/-- The items of an array up to its end, at most so many, after the first bracket or a comma. -/
def items? (item : Reader Json) : Nat → Reader (List Json)
  | 0, _ => none
  | bound + 1, t => do
    let (j, t) ← item (skipBlanks t)
    match skipBlanks t with
    | ']' :: rest => some ([j], rest)
    | ',' :: rest =>
      let (js, rest) ← items? item bound rest
      some (j :: js, rest)
    | _ => none

/-- The fields of an object up to its end, at most so many, after the first brace or a comma. -/
def fields? (item : Reader Json) : Nat → Reader (List (String × Json))
  | 0, _ => none
  | bound + 1, t =>
    match skipBlanks t with
    | '"' :: rest => do
      let (name, t) ← stringBody? (rest.length + 1) rest
      match skipBlanks t with
      | ':' :: rest =>
        let (j, t) ← item (skipBlanks rest)
        let field := (String.ofList name, j)
        match skipBlanks t with
        | '}' :: rest => some ([field], rest)
        | ',' :: rest =>
          let (fs, rest) ← fields? item bound rest
          some (field :: fs, rest)
        | _ => none
      | _ => none
    | _ => none

/-- A value whose arrays and objects nest at most so deep. -/
def value? : Nat → Reader Json
  | _, '"' :: rest =>
    (stringBody? (rest.length + 1) rest).map fun (s, rest) => (string (String.ofList s), rest)
  | 0, '[' :: _ => none
  | 0, '{' :: _ => none
  | depth + 1, '[' :: rest =>
    match skipBlanks rest with
    | ']' :: rest => some (array [], rest)
    | t => (items? (value? depth) (t.length + 1) t).map fun (js, rest) => (array js, rest)
  | depth + 1, '{' :: rest =>
    match skipBlanks rest with
    | '}' :: rest => some (object [], rest)
    | t => (fields? (value? depth) (t.length + 1) t).map fun (fs, rest) => (object fs, rest)
  | _, 't' :: 'r' :: 'u' :: 'e' :: rest => some (bool true, rest)
  | _, 'f' :: 'a' :: 'l' :: 's' :: 'e' :: rest => some (bool false, rest)
  | _, 'n' :: 'u' :: 'l' :: 'l' :: rest => some (null, rest)
  | _, t => number? t

/-- The one value a text holds, its arrays and objects nested at most so deep. -/
def readNested? (depth : Nat) (t : Text) : Option Json := do
  let (j, rest) ← value? depth (skipBlanks t)
  if (skipBlanks rest).isEmpty then some j else none

/-- How deep arrays and objects may nest. -/
def maxDepth : Nat := 127

/-- The one value a text holds. -/
def read? (t : Text) : Option Json := readNested? maxDepth t

end Glossator.Json
