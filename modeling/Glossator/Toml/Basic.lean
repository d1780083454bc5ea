import Glossator.Text.Digits

/-!
# TOML values

A value is a scalar, an array or a table. The numbers and times that no setting uses are kept as
written.
-/

set_option autoImplicit false

namespace Glossator

namespace Toml

/-- A value without parts. -/
inductive Scalar where
  | string (s : Text)
  | integer (i : Int)
  | boolean (b : Bool)
  /-- A number with a fraction or an exponent, or a special one, as written. -/
  | float (literal : Text)
  /-- A date, a time, or both, as written. -/
  | moment (literal : Text)
deriving DecidableEq, Repr, Inhabited

end Toml

open Toml in
/-- A TOML value. -/
inductive Toml where
  | scalar (s : Scalar)
  | array (items : List Toml)
  | table (fields : List (Text × Toml))
deriving Repr, Inhabited

namespace Toml

/-- The text of a string. -/
def asString? : Toml → Option Text
  | scalar (.string s) => some s
  | _ => none

/-- The truth value. -/
def asBool? : Toml → Option Bool
  | scalar (.boolean b) => some b
  | _ => none

/-- A number that is not negative. -/
def asNat? : Toml → Option Nat
  | scalar (.integer (.ofNat n)) => some n
  | _ => none

/-- The integers that can be written: those of 64 bits with a sign. -/
def IsIntegerRange (i : Int) : Prop :=
  -9223372036854775808 ≤ i ∧ i ≤ 9223372036854775807

instance (i : Int) : Decidable (IsIntegerRange i) := inferInstanceAs (Decidable (_ ∧ _))

end Toml

end Glossator
