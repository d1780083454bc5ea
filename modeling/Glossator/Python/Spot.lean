import Glossator.Tree

/-!
# Spots

A spot is a place in a text together with the text from there on.
-/

set_option autoImplicit false

namespace Glossator.Python

/-- A place and the text from there on. -/
structure Spot where
  place : Place
  rest : Text
deriving Inhabited

namespace Spot

/-- The spot behind a number of characters. -/
def forward : Nat → Spot → Spot
  | 0, s => s
  | n + 1, s =>
    match s.rest with
    | [] => s
    | c :: rest => forward n ⟨s.place.after c, rest⟩

/-- The spot behind one character. -/
def next (s : Spot) : Spot := s.forward 1

/-- The character at a spot. -/
def here? (s : Spot) : Option Char := s.rest.head?

/-- The spot is at the given character. -/
def isAt (s : Spot) (c : Char) : Bool := s.here? == some c

/-- The spot behind the character, if it stands here. -/
def skipIf (s : Spot) (c : Char) : Spot := if s.isAt c then s.next else s

/-- The spot behind the part of the text that leaves the given rest. -/
def upTo (s : Spot) (rest : Text) : Spot := s.forward (s.rest.length - rest.length)

end Spot

end Glossator.Python
