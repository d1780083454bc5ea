import Glossator.Toml.Basic

/-!
# Writing TOML

A document of sections, each with its settings on lines of their own and a blank line between two
sections. A string is put between the marks that need the fewest escapes: double quotes, single
quotes, three double quotes, three single quotes, in this order; a string over several lines
starts on the line after the mark.
-/

set_option autoImplicit false

namespace Glossator.Toml

/-- The longest run of a character in a text. -/
def longestRun (c : Char) (t : Text) : Nat := (go t).2
where
  /-- The run at the start, and the longest one. -/
  go : Text → Nat × Nat
    | [] => (0, 0)
    | x :: rest =>
      let (run, longest) := go rest
      if x = c then (run + 1, max (run + 1) longest) else (0, longest)

/-- The character is a control character other than a tab. -/
def isControl (c : Char) : Bool := (c.toNat < 32 && c != '\t') || c.toNat == 127

/-- How strings are marked. -/
inductive Quoting where
  | double
  | single
  | tripleDouble
  | tripleSingle
deriving DecidableEq, Repr

/-- The marks around a string: the first form that shows it as it is; if there is none, double
quotes with escapes. -/
def quoting (t : Text) : Quoting :=
  let hasNewline := t.contains '\n'
  let hasControl := t.any fun c => isControl c && c != '\n'
  let hasBackslash := t.contains '\\'
  if !hasControl && !hasBackslash && !t.contains '"' && !hasNewline then .double
  else if !hasControl && !t.contains '\'' && !hasNewline then .single
  else if !hasControl && !hasBackslash && longestRun '"' t ≤ 2 then .tripleDouble
  else if !hasControl && longestRun '\'' t ≤ 2 then .tripleSingle
  else if hasNewline then .tripleDouble
  else .double

/-- How a character is written between double quotes, a quote itself aside. -/
def escape (c : Char) : Text :=
  match c with
  | '\x08' => ['\\', 'b']
  | '\t' => ['\\', 't']
  | '\n' => ['\\', 'n']
  | '\x0c' => ['\\', 'f']
  | '\r' => ['\\', 'r']
  | '\\' => ['\\', '\\']
  | c => if isControl c then ['\\', 'u'] ++ (Digits.hexadecimal 4 c.toNat).map Char.toUpper else [c]

/-- A text between double quotes. Of a run of quotes, so many may stand as they are before the
next one is escaped; a newline may stand as it is if the text has several lines. -/
def escaped (bareQuotes : Nat) (lines : Bool) : Nat → Text → Text
  | _, [] => []
  | run, c :: rest =>
    if c = '"' then
      if run < bareQuotes then '"' :: escaped bareQuotes lines (run + 1) rest
      else '\\' :: '"' :: escaped bareQuotes lines 0 rest
    else if c = '\n' && lines then '\n' :: escaped bareQuotes lines 0 rest
    else escape c ++ escaped bareQuotes lines 0 rest

/-- A text as a TOML string. -/
def quote (t : Text) : Text :=
  let opening : Text := if t.contains '\n' then ['\n'] else []
  match quoting t with
  | .double => '"' :: (escaped 0 false 0 t ++ ['"'])
  | .single => '\'' :: (t ++ ['\''])
  | .tripleDouble => ['"', '"', '"'] ++ opening ++ escaped 2 true 0 t ++ ['"', '"', '"']
  | .tripleSingle => ['\'', '\'', '\''] ++ opening ++ t ++ ['\'', '\'', '\'']

/-- The written form of a scalar. -/
def Scalar.render : Scalar → Text
  | string s => quote s
  | integer i => Digits.decimalInt i
  | boolean true => "true".toList
  | boolean false => "false".toList
  | float literal => literal
  | moment literal => literal

/-- A section: its name and its settings in order. -/
structure Section where
  name : Text
  settings : List (Text × Scalar)
deriving DecidableEq, Repr

/-- The written form of a section. -/
def Section.render (s : Section) : Text :=
  '[' :: (s.name ++ [']', '\n']) ++
    s.settings.flatMap fun (name, value) => name ++ " = ".toList ++ value.render ++ ['\n']

/-- The written form of a document. -/
def render (sections : List Section) : Text := Text.join ['\n'] (sections.map Section.render)

end Glossator.Toml
