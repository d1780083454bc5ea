import Glossator.Text.Digits

/-!
# JSON values

A value keeps the order of its fields and keeps repeated fields. A number is an integer if it is
written as one and fits in 64 bits, with or without a sign; any other number is kept as written.
-/

set_option autoImplicit false

namespace Glossator

/-- A JSON value. -/
inductive Json where
  | null
  | bool (b : Bool)
  /-- A number written without fraction and exponent that fits in 64 bits. -/
  | integer (i : Int)
  /-- Any other number, as written. -/
  | decimal (literal : String)
  | string (s : String)
  | array (items : List Json)
  | object (fields : List (String × Json))
deriving Repr, Inhabited

namespace Json

/-- The value of a field; of a repeated field, the last one. -/
def get? (name : String) : Json → Option Json
  | object fields => fields.reverse.lookup name
  | _ => none

/-- The text of a string. -/
def asString? : Json → Option String
  | string s => some s
  | _ => none

/-- The truth value. -/
def asBool? : Json → Option Bool
  | bool b => some b
  | _ => none

/-- A number that fits in 64 bits without a sign. -/
def asNat64? : Json → Option Nat
  | integer i => if 0 ≤ i ∧ i ≤ 18446744073709551615 then some i.toNat else none
  | _ => none

/-- A number that fits in 64 bits with a sign. -/
def asInt64? : Json → Option Int
  | integer i => if -9223372036854775808 ≤ i ∧ i ≤ 9223372036854775807 then some i else none
  | _ => none

/-- The items of an array. -/
def asArray? : Json → Option (List Json)
  | array items => some items
  | _ => none

/-- An array of strings. -/
def asStrings? (j : Json) : Option (List String) := j.asArray?.bind (List.mapM asString?)

/-- Reads an optional value: `null` is the absent one. -/
def orNull? {α : Type} (read : Json → Option α) : Json → Option (Option α)
  | null => some none
  | j => (read j).map some

/-- Writes an optional value: the absent one is `null`. -/
def ofOption {α : Type} (write : α → Json) : Option α → Json
  | none => null
  | some a => write a

/-- An array of strings. -/
def ofStrings (ss : List String) : Json := array (ss.map string)

/-- A natural number. -/
def ofNat (n : Nat) : Json := integer n

end Json

end Glossator
