import Glossator.Toml.Number

/-!
# TOML dates and times

A date, a time of day, or both with or without an offset. Dates exist in the calendar; a minute may
have a leap second.
-/

set_option autoImplicit false

namespace Glossator.Toml

/-- A number of exactly so many digits within bounds. -/
def fixed? (width low high : Nat) : Reader Nat := fun t =>
  let ds := t.take width
  let n := Digits.value 10 ds
  if ds.length = width && ds.all Char.isDigit && low ≤ n && n ≤ high then some (n, t.drop width)
  else none

/-- What follows a character, if the text starts with it. -/
def after? (c : Char) : Text → Option Text
  | x :: rest => if x = c then some rest else none
  | [] => none

/-- The number of days in a month. -/
def daysIn (year month : Nat) : Nat :=
  if month = 2 then if year % 4 = 0 ∧ (year % 100 ≠ 0 ∨ year % 400 = 0) then 29 else 28
  else if month = 4 ∨ month = 6 ∨ month = 9 ∨ month = 11 then 30
  else 31

/-- What follows a date. -/
def afterDate? (t : Text) : Option Text := do
  let (year, t) ← fixed? 4 0 9999 t
  let (month, t) ← fixed? 2 1 12 (← after? '-' t)
  let (_, t) ← fixed? 2 1 (daysIn year month) (← after? '-' t)
  some t

/-- What follows a time of day. -/
def afterTime? (t : Text) : Option Text := do
  let (_, t) ← fixed? 2 0 23 t
  let (_, t) ← fixed? 2 0 59 (← after? ':' t)
  let (_, t) ← fixed? 2 0 60 (← after? ':' t)
  match t with
  | '.' :: d :: rest => if d.isDigit then some (rest.dropWhile Char.isDigit) else some t
  | _ => some t

/-- What follows an offset. -/
def afterOffset? : Text → Option Text
  | c :: rest =>
    if c == 'Z' || c == 'z' then some rest
    else if c == '+' || c == '-' then do
      let (_, t) ← fixed? 2 0 23 rest
      let (_, t) ← fixed? 2 0 59 (← after? ':' t)
      some t
    else none
  | [] => none

/-- What follows the time of day and the offset behind a date, if they are there. -/
def afterClock (t : Text) : Text :=
  match t with
  | c :: rest =>
    if c == 'T' || c == 't' || c == ' ' then
      match afterTime? rest with
      | some rest => (afterOffset? rest).getD rest
      | none => t
    else t
  | [] => t

/-- A date, a time of day, or both, as written. -/
def moment? (t : Text) : Option (Text × Text) :=
  match (afterDate? t).map afterClock with
  | some rest => some (consumed t rest, rest)
  | none => (afterTime? t).map fun rest => (consumed t rest, rest)

end Glossator.Toml
