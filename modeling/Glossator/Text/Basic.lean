import Glossator.Text.Blank

/-!
# Texts

A text is its list of characters. This module holds the operations on texts that the parsers
share: trimming, splitting into words and lines, and counting lines the way an editor does.

* `Text.flatten_linesWithEnds`: the lines of a text, ends included, concatenate to the text.
-/

set_option autoImplicit false

namespace Glossator

/-- A text is its list of characters. -/
abbrev Text := List Char

/-- A half-open range of offsets in a text. -/
structure Span where
  start : Nat
  stop : Nat
deriving DecidableEq, Repr, Inhabited

namespace Span

/-- The offset lies in the span. -/
def contains (s : Span) (offset : Nat) : Bool := s.start ≤ offset && offset < s.stop

theorem contains_iff {s : Span} {offset : Nat} :
    s.contains offset = true ↔ s.start ≤ offset ∧ offset < s.stop := by
  rw [contains, Bool.and_eq_true, decide_eq_true_eq, decide_eq_true_eq]

/-- The part of a text that a span covers. -/
def slice (s : Span) (t : Text) : Text := (t.drop s.start).take (s.stop - s.start)

/-- The span moved to the right. -/
def shift (s : Span) (amount : Nat) : Span := ⟨s.start + amount, s.stop + amount⟩

end Span

namespace Text

/-- The text without the blanks it starts with. -/
def trimStart (t : Text) : Text := t.dropWhile isBlank

/-- The text without the characters at its end that satisfy a test. -/
def dropEndWhile (p : Char → Bool) (t : Text) : Text := (t.reverse.dropWhile p).reverse

/-- The text without the blanks it ends with. -/
def trimEnd (t : Text) : Text := t.dropEndWhile isBlank

/-- The text without the blanks at both ends. -/
def trim (t : Text) : Text := trimEnd (trimStart t)

/-- The pieces between the characters that satisfy a test; one piece more than separators. -/
def splitAt (p : Char → Bool) : Text → List Text
  | [] => [[]]
  | c :: rest =>
    if p c then [] :: splitAt p rest
    else match splitAt p rest with
      | [] => [[c]]
      | piece :: pieces => (c :: piece) :: pieces

/-- The non-empty pieces between blanks. -/
def words (t : Text) : List Text := (t.splitAt isBlank).filter (! ·.isEmpty)

/-- The lines of a text, each with the newline that ends it; a last line may lack one. -/
def linesWithEnds : Text → List Text
  | [] => []
  | c :: rest =>
    if c = '\n' then [c] :: linesWithEnds rest
    else match linesWithEnds rest with
      | [] => [[c]]
      | line :: lines => (c :: line) :: lines

/-- A line without the newline that ends it, and without a carriage return right before that. -/
def withoutLineEnd (line : Text) : Text :=
  match line.reverse with
  | '\n' :: '\r' :: rest => rest.reverse
  | '\n' :: rest => rest.reverse
  | _ => line

/-- The lines of a text without their ends. -/
def lines (t : Text) : List Text := t.linesWithEnds.map withoutLineEnd

/-- The number of lines an editor shows: a newline at the very end opens no further line. -/
def countLines (t : Text) : Nat :=
  let newlines := t.count '\n'
  match t.getLast? with
  | none => 0
  | some c => if c = '\n' then newlines else newlines + 1

/-- The texts joined with a separator between each two. -/
def join (separator : Text) (ts : List Text) : Text := (ts.intersperse separator).flatten

/-- What follows a prefix, if the text starts with it. -/
def after? (start t : Text) : Option Text := start.isPrefixOf? t

/-- What precedes a suffix, if the text ends with it. -/
def before? (finish t : Text) : Option Text :=
  (finish.reverse.isPrefixOf? t.reverse).map List.reverse

/-- The text with every occurrence of a non-empty pattern replaced, from left to right. -/
def replace (pattern replacement : Text) (t : Text) : Text :=
  go t t.length
where
  /-- Replaces in the first so many characters at most. -/
  go : Text → Nat → Text
    | [], _ => []
    | t, 0 => t
    | c :: rest, fuel + 1 =>
      match after? pattern (c :: rest) with
      | some tail => replacement ++ go tail fuel
      | none => c :: go rest fuel

@[simp] theorem linesWithEnds_nil : linesWithEnds [] = [] := rfl

/-- The lines of a text, ends included, concatenate to the text. -/
theorem flatten_linesWithEnds (t : Text) : t.linesWithEnds.flatten = t := by
  induction t with
  | nil => rfl
  | cons c rest ih =>
    by_cases h : c = '\n'
    · simp [linesWithEnds, h, ih]
    · cases hl : linesWithEnds rest with
      | nil => simp [linesWithEnds, h, hl]; simpa [hl] using ih.symm
      | cons line lines => simp [linesWithEnds, h, hl]; simpa [hl] using ih

end Text

end Glossator
