/-!
# Sets of code points as runs

A set of code points is written as the lengths of its runs: the first number counts the code
points outside the set, the second those inside, the third those outside again, and so on.
Every table of this library starts at code point 128, since the rule for the characters below
is short enough to be written out.
-/

set_option autoImplicit false

namespace Glossator.CodePoints

/-- The first code point a table of runs speaks about. -/
def tableStart : Nat := 128

/-- Whether the `n`-th code point lies in one of the inner runs. -/
def inRuns : List Nat → Nat → Bool
  | outside :: inside :: rest, n =>
    if n < outside then false
    else if n < outside + inside then true
    else inRuns rest (n - (outside + inside))
  | _, _ => false

/-- Membership of a character in a set given by a rule below 128 and by runs from there on. -/
def member (ascii : Char → Bool) (runs : List Nat) (c : Char) : Bool :=
  if c.toNat < tableStart then ascii c else inRuns runs (c.toNat - tableStart)

/-- Below 128 only the short rule counts. -/
theorem member_of_lt {ascii : Char → Bool} {runs : List Nat} {c : Char}
    (h : c.toNat < tableStart) : member ascii runs c = ascii c := by
  simp [member, h]

end Glossator.CodePoints
