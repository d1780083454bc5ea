import Glossator.Text.Digits
import Glossator.Text.Identifier

/-!
# Python tokens

The tokens that are not of fixed spelling. Each reader gives what remains behind the longest token
of its kind at the start of a text.
-/

set_option autoImplicit false

namespace Glossator.Python.Token

/-- What remains behind a token. -/
abbrev Reader := Text → Option Text

/-- The text without its first character, if that passes a test. -/
def one? (p : Char → Bool) : Reader
  | c :: rest => if p c then some rest else none
  | [] => none

/-- The text without its first character, if that is one of the given ones. -/
def maybe (cs : List Char) (t : Text) : Text := (one? cs.contains t).getD t

/-- What remains behind the shortest of several rests: the longest token. -/
def longest (rests : List (Option Text)) : Option Text :=
  rests.foldl (fun best rest =>
    match best, rest with
    | some b, some r => if r.length < b.length then rest else best
    | none, _ => rest
    | _, none => best) none

/-- More digits of a base, with single underscores between them. -/
def moreDigits (base : Nat) : Text → Text
  | '_' :: d :: rest =>
    if Digits.isDigitOf base d then moreDigits base rest else '_' :: d :: rest
  | d :: rest => if Digits.isDigitOf base d then moreDigits base rest else d :: rest
  | [] => []

/-- Digits of a base, with single underscores between them. -/
def digits? (base : Nat) : Reader := fun t =>
  (one? (Digits.isDigitOf base) t).map (moreDigits base)

/-- Decimal digits, with single underscores between them and perhaps behind them. -/
def decimals? : Reader := fun t => (digits? 10 t).map (maybe ['_'])

/-- An integer of another base than ten: a zero, a letter for the base and the digits. -/
def basedInteger? (base : Nat) (letters : List Char) : Reader
  | '0' :: letter :: rest =>
    if letters.contains letter then (digits? base (maybe ['_'] rest)).map (maybe ['l', 'L'])
    else none
  | _ => none

/-- An integer, also a long or imaginary one. -/
def integer? : Reader := fun t =>
  longest [basedInteger? 16 ['x', 'X'] t, basedInteger? 8 ['o', 'O'] t,
    basedInteger? 2 ['b', 'B'] t, (decimals? t).map (maybe ['l', 'L', 'j', 'J'])]

/-- An exponent. -/
def exponent? : Reader := fun t =>
  ((one? ['e', 'E'].contains t).map (maybe ['+', '-'])).bind decimals?

/-- The same text or what remains behind a token. -/
def orStay (read : Reader) (t : Text) : Text := (read t).getD t

/-- A floating point number, also an imaginary one. -/
def float? : Reader := fun t =>
  let point := one? (· == '.')
  let pointed := ((decimals? t).bind point).map (orStay decimals?)
  let fraction := (point (orStay decimals? t)).bind decimals?
  longest [
    (pointed.map (orStay exponent?)).map (maybe ['j', 'J']),
    (fraction.map (orStay exponent?)).map (maybe ['j', 'J']),
    ((decimals? t).bind exponent?).map (maybe ['j', 'J'])]

/-- A name. -/
def name? : Reader := fun t =>
  (one? isIdentifierStart t).map (List.dropWhile isIdentifierContinue)

/-- The conversion of a value in a format: an exclamation mark and a small letter. -/
def conversion? : Reader := fun t =>
  (one? (· == '!') t).bind (one? fun c => 'a' ≤ c && c ≤ 'z')

/-- Exactly so many digits of a base. -/
def exactDigits? (base : Nat) : Nat → Reader
  | 0, t => some t
  | count + 1, t => (one? (Digits.isDigitOf base) t).bind (exactDigits? base count)

/-- An escape sequence in a string. -/
def escape? : Reader
  | '\\' :: rest =>
    match rest with
    | 'u' :: rest => exactDigits? 16 4 rest
    | 'U' :: rest => exactDigits? 16 8 rest
    | 'x' :: rest => exactDigits? 16 2 rest
    | '\n' :: rest => some rest
    | '\r' :: '\n' :: rest => some rest
    | 'N' :: '{' :: c :: rest =>
      if c = '}' then none else (rest.dropWhile (· ≠ '}')).tail?
    | c :: _ =>
      if ['\'', '"', 'a', 'b', 'f', 'r', 'n', 't', 'v', '\\'].contains c then some rest.tail
      else exactDigits? 10 3 rest
    | [] => none
  | _ => none

/-- A backslash at the end of a line, or before a character that stands for no text. -/
def lineContinuation? : Reader
  | '\\' :: '\n' :: rest => some rest
  | '\\' :: '\r' :: '\n' :: rest => some rest
  | '\\' :: '\x00' :: rest => some rest
  | _ => none

/-- A comment, up to the end of the line. -/
def comment? : Reader := fun t => (one? (· == '#') t).map (List.dropWhile (· ≠ '\n'))

/-- Text in a format specification. -/
def formatText? : Reader := fun t =>
  let plain (c : Char) : Bool := c ≠ '{' && c ≠ '}' && c ≠ '\n'
  (one? plain t).map (List.dropWhile plain)

/-- A character that may stand between tokens. -/
def isSeparator (c : Char) : Bool :=
  c = ' ' || ('\t' ≤ c && c ≤ '\r') || c = '\uFEFF' || c = '\u2060' || c = '\u200B'

end Glossator.Python.Token
