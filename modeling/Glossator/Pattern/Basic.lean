import Glossator.Text.Basic
import Glossator.Text.Word

/-!
# Patterns

A pattern describes stretches of text by sequence, ordered choice and repetition, and names the
parts of a stretch that its reader wants back. `Pattern.outcomes` lists every way in which a
pattern can match at a place, the preferred way first: a choice prefers its left side, a
repetition prefers to go on. The first outcome is the match.

A repetition goes on only while it consumes text, so the number of characters left bounds it and
the list of outcomes is finite.
-/

set_option autoImplicit false

namespace Glossator

/-- A place in a text: the character before it, the text after it, and its offset. -/
structure Cursor where
  previous : Option Char
  rest : Text
  offset : Nat
deriving DecidableEq, Repr, Inhabited

namespace Cursor

/-- The start of a text. -/
def ofText (t : Text) : Cursor := ⟨none, t, 0⟩

/-- The place behind a piece of text that the rest starts with. -/
def behind (c : Cursor) (piece : Text) : Cursor :=
  ⟨piece.getLast?.or c.previous, c.rest.drop piece.length, c.offset + piece.length⟩

/-- The place is at the start of a line. -/
def atLineStart (c : Cursor) : Bool := c.previous.all (· = '\n')

/-- Exactly one of the two characters around the place is a word character. -/
def atWordEdge (c : Cursor) : Bool :=
  (c.previous.any isWord) != (c.rest.head?.any isWord)

end Cursor

/-- A pattern over texts; `γ` names the parts that are reported. -/
inductive Pattern (γ : Type) where
  /-- Matches the empty text. -/
  | empty
  /-- A fixed text. -/
  | fixed (piece : Text)
  /-- One character of a class. -/
  | one (cls : Char → Bool)
  /-- Any number of characters of a class, preferably many. -/
  | many (cls : Char → Bool)
  /-- The start of a line. -/
  | lineStart
  /-- A place between a word character and anything else. -/
  | wordEdge
  /-- One pattern and then another. -/
  | andThen (first second : Pattern γ)
  /-- Either of two patterns, preferably the left one. -/
  | orElse (left right : Pattern γ)
  /-- Any number of times, preferably many. -/
  | star (body : Pattern γ)
  /-- Reports where the pattern matched. -/
  | part (name : γ) (body : Pattern γ)

namespace Pattern

variable {γ : Type}

instance : Append (Pattern γ) := ⟨andThen⟩
instance : OrOp (Pattern γ) := ⟨orElse⟩

/-- A fixed text. -/
def text (s : String) : Pattern γ := fixed s.toList

/-- One of several fixed texts, an earlier one preferred. -/
def anyText : List String → Pattern γ
  | [] => one fun _ => false
  | [s] => text s
  | s :: rest => text s ||| anyText rest

/-- The pattern or nothing, preferably the pattern. -/
def maybe (p : Pattern γ) : Pattern γ := p ||| empty

/-- Nothing or the pattern, preferably nothing. -/
def maybeLazy (p : Pattern γ) : Pattern γ := empty ||| p

/-- At least once. -/
def plus (p : Pattern γ) : Pattern γ := p ++ star p

/-- At least one character of a class. -/
def someOf (cls : Char → Bool) : Pattern γ := one cls ++ many cls

/-- Any number of blanks. -/
def blanks : Pattern γ := many isBlank

/-- At least one blank. -/
def someBlanks : Pattern γ := someOf isBlank

/-- A word. -/
def word : Pattern γ := someOf isWord

/-- How far a match got, and the parts it reported, the latest first. -/
structure Outcome (γ : Type) where
  cursor : Cursor
  parts : List (γ × Span)

/-- The outcomes of consuming any number of characters of a class, the longest first. -/
def Outcome.many (cls : Char → Bool) (parts : List (γ × Span)) :
    Option Char → Text → Nat → List (Outcome γ) → List (Outcome γ)
  | previous, [], offset, shorter => ⟨⟨previous, [], offset⟩, parts⟩ :: shorter
  | previous, c :: rest, offset, shorter =>
    let here := ⟨⟨previous, c :: rest, offset⟩, parts⟩ :: shorter
    if cls c then many cls parts (some c) rest (offset + 1) here else here

/-- The outcomes of taking a step any number of times up to a bound, more steps first; a step
that consumes nothing ends the repetition. -/
def Outcome.repeat (step : Outcome γ → List (Outcome γ)) : Nat → Outcome γ → List (Outcome γ)
  | 0, o => [o]
  | bound + 1, o =>
    (step o).flatMap (fun o' =>
      if o.cursor.offset < o'.cursor.offset then Outcome.repeat step bound o' else []) ++ [o]

/-- Every way in which a pattern matches after a given outcome, the preferred way first. -/
def outcomes : Pattern γ → Outcome γ → List (Outcome γ)
  | empty, o => [o]
  | fixed piece, o =>
    if piece.isPrefixOf o.cursor.rest then [⟨o.cursor.behind piece, o.parts⟩] else []
  | one cls, o =>
    match o.cursor.rest with
    | [] => []
    | c :: rest => if cls c then [⟨⟨some c, rest, o.cursor.offset + 1⟩, o.parts⟩] else []
  | many cls, o => Outcome.many cls o.parts o.cursor.previous o.cursor.rest o.cursor.offset []
  | lineStart, o => if o.cursor.atLineStart then [o] else []
  | wordEdge, o => if o.cursor.atWordEdge then [o] else []
  | andThen first second, o => (outcomes first o).flatMap (outcomes second)
  | orElse left right, o => outcomes left o ++ outcomes right o
  | star body, o => Outcome.repeat (outcomes body) o.cursor.rest.length o
  | part name body, o => (outcomes body o).map fun o' =>
      ⟨o'.cursor, (name, ⟨o.cursor.offset, o'.cursor.offset⟩) :: o'.parts⟩

end Pattern

end Glossator
