import Glossator.Text.Basic
import Glossator.Text.Digits

/-!
# The values of string literals

What a literal stands for: the text between its quotes with escapes resolved. Literals of bytes and
of formats stand for no text.
-/

set_option autoImplicit false

namespace Glossator.Python

/-- The character that a backslash and a letter stand for. -/
def namedEscape? : Char → Option Char
  | '\\' => some '\\'
  | '\'' => some '\''
  | '"' => some '"'
  | 'n' => some '\n'
  | 't' => some '\t'
  | 'r' => some '\r'
  | 'a' => some '\x07'
  | 'b' => some '\x08'
  | 'f' => some '\x0c'
  | 'v' => some '\x0b'
  | _ => none

/-- The character with a code point; none for surrogates and beyond the last one. -/
def ofCodePoint? (n : Nat) : Option Char := if n.isValidChar then some (Char.ofNat n) else none

/-- The number of hexadecimal digits that an escape with a code takes. -/
def codeWidth? : Char → Option Nat
  | 'x' => some 2
  | 'u' => some 4
  | 'U' => some 8
  | _ => none

/-- The digits of an octal escape, three at most, of which the first is given; and the rest. -/
def octalDigits (first : Char) (t : Text) : Text × Text :=
  let more := (t.take 2).takeWhile (Digits.isDigitOf 8)
  (first :: more, t.drop more.length)

/-- What an escape stands for, given the character after the backslash and what follows; and the
rest. What is no escape stands for itself. -/
def escapeValue (c : Char) (rest : Text) : Text × Text :=
  if c = '\n' then ([], rest)
  else match namedEscape? c with
    | some v => ([v], rest)
    | none =>
      if Digits.isDigitOf 8 c then
        let (digits, rest) := octalDigits c rest
        match ofCodePoint? (Digits.value 8 digits) with
        | some v => ([v], rest)
        | none => ('\\' :: digits, rest)
      else match codeWidth? c with
        | none => (['\\', c], rest)
        | some width =>
          let digits := rest.take width
          if digits.length = width && digits.all (Digits.isDigitOf 16) then
            match ofCodePoint? (Digits.value 16 digits) with
            | some v => ([v], rest.drop width)
            | none => (['\\', c], rest)
          else (['\\', c], rest)

theorem length_escapeValue_le (c : Char) (rest : Text) :
    (escapeValue c rest).2.length ≤ rest.length := by
  unfold escapeValue octalDigits
  grind

/-- A text with its escapes resolved; a backslash at the very end stands for itself. -/
def unescape : Text → Text
  | [] => []
  | c :: rest =>
    if c = '\\' then
      match rest with
      | [] => ['\\']
      | e :: rest => (escapeValue e rest).1 ++ unescape (escapeValue e rest).2
    else c :: unescape rest
termination_by t => t.length
decreasing_by
  · have := length_escapeValue_le e rest
    simp only [List.length_cons]
    omega
  · simp only [List.length_cons]
    omega

/-- A text whose lines end in newlines, whatever ended them before. -/
def normalizeNewlines : Text → Text
  | [] => []
  | '\r' :: '\n' :: rest => '\n' :: normalizeNewlines rest
  | '\r' :: rest => '\n' :: normalizeNewlines rest
  | c :: rest => c :: normalizeNewlines rest

/-- The number of quotes at each end of a literal. -/
def quoteLength (quoted : Text) : Nat :=
  if "\"\"\"".toList.isPrefixOf quoted || "'''".toList.isPrefixOf quoted then 3 else 1

/-- The value of a literal; none for bytes and formats. -/
def literalValue? (literal : Text) : Option Text :=
  let isQuote (c : Char) : Bool := c = '"' || c = '\''
  let letters := (literal.takeWhile fun c => !isQuote c).map Char.toLower
  match literal.dropWhile fun c => !isQuote c with
  | [] => none
  | quoted =>
    let quotes := quoteLength quoted
    if letters.contains 'f' || letters.contains 'b' then none
    else if quoted.length < 2 * quotes then none
    else
      let body := normalizeNewlines ((quoted.drop quotes).take (quoted.length - 2 * quotes))
      some (if letters.contains 'r' then body else unescape body)

end Glossator.Python
