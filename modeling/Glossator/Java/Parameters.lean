import Glossator.Text.Basic

/-!
# Splitting outside brackets

Parameter lists are split at commas, and types at blanks, wherever no bracket is open. The count
of open brackets is signed: a bracket that closes nothing makes it negative.
-/

set_option autoImplicit false

namespace Glossator.Java

/-- Which characters open and close brackets, and which separate at a count of open brackets. -/
structure Brackets where
  opens : Char → Bool
  closes : Char → Bool
  separates : Int → Char → Bool

/-- The count of open brackets after a character. -/
def Brackets.step (b : Brackets) (depth : Int) (c : Char) : Int :=
  if b.opens c then depth + 1 else if b.closes c then depth - 1 else depth

theorem Brackets.step_eq_self {b : Brackets} {depth : Int} {c : Char} (hopens : b.opens c = false)
    (hcloses : b.closes c = false) : b.step depth c = depth := by
  simp [step, hopens, hcloses]

/-- The pieces of a text between separators, starting at a count of open brackets. -/
def Brackets.split (b : Brackets) (depth : Int) : Text → List Text
  | [] => [[]]
  | c :: rest =>
    if b.separates depth c then [] :: b.split depth rest
    else match b.split (b.step depth c) rest with
      | [] => [[c]]
      | piece :: pieces => (c :: piece) :: pieces

/-- Commas separate parameters where no angle bracket or parenthesis is open. -/
def parameterBrackets : Brackets where
  opens c := c = '<' || c = '('
  closes c := c = '>' || c = ')'
  separates depth c := c = ',' && depth == 0

/-- Blanks separate the words of a type where no angle bracket is open. -/
def typeBrackets : Brackets where
  opens c := c = '<'
  closes c := c = '>'
  separates depth c := isBlank c && decide (depth ≤ 0)

/-- The parameters of a list, each with single spaces between its words. -/
def splitParameters (t : Text) : List Text :=
  ((parameterBrackets.split 0 t).map fun p => Text.join [' '] (Text.words p)).filter (! ·.isEmpty)

/-- The words of a type, type arguments kept together. -/
def typeWords (t : Text) : List Text := (typeBrackets.split 0 t).filter (! ·.isEmpty)

end Glossator.Java
