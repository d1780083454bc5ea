import Glossator.Pattern.Basic

/-!
# Sets of places

A set of places of a text is a number: its bits say which offsets belong to the set. So moving all
places at once is a shift, and combining two sets is one operation on numbers.
-/

set_option autoImplicit false

namespace Glossator

/-- A set of offsets, as the bits of a number. -/
abbrev Places := Nat

namespace Places

/-- How many bits are packed together before they are put in front of the others. -/
def chunk : Nat := 32

/-- The number whose bits are the given ones, the lowest first. -/
def pack : List Bool → Nat
  | [] => 0
  | b :: bs => 2 * pack bs + b.toNat

/-- The set of the offsets at which a list holds `true`. -/
def ofBools (bs : List Bool) : Places :=
  if bs.isEmpty then 0 else (ofBools (bs.drop chunk) <<< chunk) ||| pack (bs.take chunk)
termination_by bs.length
decreasing_by
  rename_i h
  have : 0 < bs.length := List.length_pos_iff.2 (by simpa using h)
  simp only [List.length_drop, chunk]
  omega

/-- For each place of a text from a cursor on, whether it passes a test. -/
def testFrom (test : Cursor → Bool) (previous : Option Char) (offset : Nat) : Text → List Bool
  | [] => [test ⟨previous, [], offset⟩]
  | c :: rest =>
    test ⟨previous, c :: rest, offset⟩ :: testFrom test (some c) (offset + 1) rest

/-- The places of a text that pass a test. -/
def whereTest (t : Text) (test : Cursor → Bool) : Places := ofBools (testFrom test none 0 t)

/-- The first so many places. -/
def upTo (count : Nat) : Places := (1 <<< count) - 1

/-- The places from which one can go right to a goal, one place at a time, over places of a set.
Doubles the length of the way in every round. -/
def runsTo (rounds length : Nat) (path goal : Places) : Places :=
  match rounds with
  | 0 => goal
  | rounds + 1 =>
    runsTo rounds (2 * length) (path &&& (path >>> length)) (goal ||| ((goal >>> length) &&& path))

/-- The closure of a set of places under a step; all places if the bound was too small. -/
def closure (step : Places → Places) (size : Nat) : Nat → Places → Places
  | 0, _ => upTo (size + 1)
  | bound + 1, goal =>
    let more := goal ||| step goal
    if more = goal then goal else closure step size bound more

end Places

end Glossator
