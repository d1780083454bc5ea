import Glossator.Toml.Quoted

/-!
# TOML numbers

Integers in base 10, 16, 8 and 2, and numbers with a fraction or an exponent. An underscore may
stand between two digits.
-/

set_option autoImplicit false

namespace Glossator.Toml

/-- The digits at the start of a text, single underscores between them left out; at least one. The
last digit read is remembered so that no underscore follows another. -/
def digits? (isDigit : Char → Bool) : Reader Text
  | [] => none
  | c :: rest => if isDigit c then some (go c rest) else none
where
  /-- The digits from a first one on. -/
  go (first : Char) : Text → Text × Text
    | [] => ([first], [])
    | '_' :: d :: rest =>
      if isDigit d then
        let (ds, rest) := go d rest
        (first :: ds, rest)
      else ([first], '_' :: d :: rest)
    | d :: rest =>
      if isDigit d then
        let (ds, rest) := go d rest
        (first :: ds, rest)
      else ([first], d :: rest)

/-- The sign at the start of a text: true for a minus. -/
def sign : Text → Bool × Text
  | '-' :: rest => (true, rest)
  | '+' :: rest => (false, rest)
  | t => (false, t)

/-- The whole part of a decimal number: no zero stands in front of other digits. -/
def wholePart? : Reader Text
  | '0' :: rest => some (['0'], rest)
  | t => digits? Char.isDigit t

/-- An integer that fits in 64 bits with a sign. -/
def ofMagnitude? (negative : Bool) (magnitude : Nat) : Option Int :=
  let i : Int := if negative then -(magnitude : Int) else magnitude
  if IsIntegerRange i then some i else none

/-- An integer in a base other than ten, after its mark. -/
def basedInteger? (base : Nat) (t : Text) : Option (Int × Text) := do
  let (ds, rest) ← digits? (Digits.isDigitOf base) t
  some (← ofMagnitude? false (Digits.value base ds), rest)

/-- An integer. -/
def integer? : Reader Int
  | '0' :: 'x' :: rest => basedInteger? 16 rest
  | '0' :: 'o' :: rest => basedInteger? 8 rest
  | '0' :: 'b' :: rest => basedInteger? 2 rest
  | t => do
    let (negative, t) := sign t
    let (ds, rest) ← wholePart? t
    some (← ofMagnitude? negative (Digits.value 10 ds), rest)

/-- The exponent of a number. -/
def exponent? : Reader Int
  | e :: rest =>
    if e == 'e' || e == 'E' then do
      let (negative, t) := sign rest
      let (ds, rest) ← digits? Char.isDigit t
      let n : Int := Digits.value 10 ds
      some (if negative then -n else n, rest)
    else none
  | [] => none

/-- The least number that no finite floating-point number of 64 bits is nearest to. -/
def floatLimit : Nat := Nat.pow 2 1024 - Nat.pow 2 970

/-- The number with the given digits, scaled by a power of ten, rounds to infinity. -/
def overflows (ds : Text) (scale : Int) : Bool :=
  let magnitude := Digits.value 10 ds
  let places : Int := (Digits.decimal magnitude).length + scale
  magnitude != 0 && (310 < places || (300 < places && match scale with
    | .ofNat n => floatLimit ≤ magnitude * Nat.pow 10 n
    | .negSucc n => floatLimit * Nat.pow 10 (n + 1) ≤ magnitude))

/-- What a text starts with, given what remains of it. -/
def consumed (t rest : Text) : Text := t.take (t.length - rest.length)

/-- A number with a fraction or an exponent, as written; it must not be too large. -/
def decimal? (t : Text) : Option (Text × Text) := do
  let (negative, body) := sign t
  let (whole, afterWhole) ← wholePart? body
  let (fraction, afterFraction) ← match afterWhole with
    | '.' :: rest => digits? Char.isDigit rest
    | _ => some ([], afterWhole)
  let (exponent, rest) := (exponent? afterFraction).getD (0, afterFraction)
  if rest.length = afterWhole.length then none
  else if !negative && overflows (whole ++ fraction) (exponent - fraction.length) then none
  else some (consumed t rest, rest)

/-- Infinity or the value that is no number, as written. -/
def special? (t : Text) : Option (Text × Text) :=
  match (sign t).2 with
  | 'i' :: 'n' :: 'f' :: rest => some (consumed t rest, rest)
  | 'n' :: 'a' :: 'n' :: rest => some (consumed t rest, rest)
  | _ => none

/-- A number of any kind. -/
def number? (t : Text) : Option (Scalar × Text) :=
  match (decimal? t).or (special? t) with
  | some (literal, rest) => some (.float literal, rest)
  | none => (integer? t).map fun (i, rest) => (.integer i, rest)

end Glossator.Toml
