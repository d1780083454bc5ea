import Glossator.FunctionRecord

/-!
# Prompts

A prompt is prose that says what to do, followed by a code snippet. The code starts with the first
line that looks like code; the prose is everything above it.

* `Prompt.append_split?`: the two halves of a prompt concatenate to the prompt.
-/

set_option autoImplicit false

namespace Glossator.Prompt

/-- The words that open a declaration in some language. -/
def openingWords : List String :=
  ["def", "class", "public", "private", "protected", "func", "function"]

/-- Some two neighbouring characters of a text are the given ones. -/
def hasPair (a b : Char) : Text → Bool
  | x :: y :: rest => (x == a && y == b) || hasPair a b (y :: rest)
  | _ => false

/-- The text starts with a word and a blank after it. -/
def startsWithWord (t : Text) (word : String) : Bool :=
  match Text.after? word.toList t with
  | some (c :: _) => isBlank c
  | _ => false

/-- A line looks like code if it starts with an at sign or a word that opens a declaration, or has
a brace, a semicolon or an arrow anywhere. -/
def looksLikeCode (line : Text) : Bool :=
  let body := Text.trimStart line
  body.head? == some '@' || openingWords.any (startsWithWord body) ||
    line.any (fun c => c == '{' || c == '}' || c == ';') || hasPair '-' '>' line ||
    hasPair '=' '>' line

/-- A line without the newlines and carriage returns it ends with. -/
def bareLine (line : Text) : Text := line.dropEndWhile fun c => c == '\n' || c == '\r'

/-- The prose and the code of a prompt; none if no line looks like code. -/
def split? (t : Text) : Option (Text × Text) :=
  let isProse := fun line => !looksLikeCode (bareLine line)
  match t.linesWithEnds.dropWhile isProse with
  | [] => none
  | code => some ((t.linesWithEnds.takeWhile isProse).flatten, code.flatten)

/-- The record of a prompt: the prose as its documentation and the code as its text. -/
def record? (t : Text) : Option FunctionRecord :=
  (split? t).map fun (prose, code) =>
    { fullText := some (String.ofList (Text.trim code))
      docstring := some (String.ofList (Text.trim prose))
      docstringLineCount := none }

/-- The two halves of a prompt concatenate to the prompt. -/
theorem append_split? {t prose code : Text} (h : split? t = some (prose, code)) :
    prose ++ code = t := by
  simp only [split?] at h
  split at h
  · cases h
  · simp only [Option.some.injEq, Prod.mk.injEq] at h
    obtain ⟨rfl, rfl⟩ := h
    rw [← List.flatten_append, List.takeWhile_append_dropWhile, Text.flatten_linesWithEnds]

end Glossator.Prompt
