import Glossator.Text.Basic

/-!
# Numbers in positional notation

Writing natural numbers in decimal and hexadecimal, and reading digits back.

* `Digits.value_decimal`: the decimal digits of a number read back as the number.
-/

set_option autoImplicit false

namespace Glossator.Digits

/-- The digit for a number below 16, in lower case. -/
def ofNat (n : Nat) : Char := if n < 10 then Char.ofNat (48 + n) else Char.ofNat (87 + n)

/-- The number a digit of either case stands for. -/
def toNat? (c : Char) : Option Nat :=
  let n := c.toNat
  if 48 ≤ n ∧ n ≤ 57 then some (n - 48)
  else if 97 ≤ n ∧ n ≤ 102 then some (n - 87)
  else if 65 ≤ n ∧ n ≤ 70 then some (n - 55)
  else none

/-- The character is a digit of a base of at most 16. -/
def isDigitOf (base : Nat) (c : Char) : Bool := (toNat? c).any (· < base)

/-- The decimal digits of a number. -/
def decimal (n : Nat) : Text :=
  if n < 10 then [ofNat n] else decimal (n / 10) ++ [ofNat (n % 10)]
decreasing_by omega

/-- The decimal notation of a number. -/
def ofNatString (n : Nat) : String := String.ofList (decimal n)

/-- The decimal notation of an integer. -/
def decimalInt : Int → Text
  | .ofNat n => decimal n
  | .negSucc n => '-' :: decimal (n + 1)

/-- The last hexadecimal digits of a number, exactly as many as asked for. -/
def hexadecimal : Nat → Nat → Text
  | 0, _ => []
  | width + 1, n => hexadecimal width (n / 16) ++ [ofNat (n % 16)]

/-- The number that digits stand for; anything that is no digit counts as zero. -/
def value (base : Nat) (digits : Text) : Nat :=
  digits.foldl (fun n c => n * base + (toNat? c).getD 0) 0

theorem toNat?_ofNat {n : Nat} (h : n < 16) : toNat? (ofNat n) = some n := by
  have hall : ∀ k : Fin 16, toNat? (ofNat k) = some k.val := by decide
  exact hall ⟨n, h⟩

/-- The decimal digits of a number read back as the number. -/
theorem value_decimal (n : Nat) : value 10 (decimal n) = n := by
  induction n using Nat.strongRecOn with
  | _ n ih =>
    rw [decimal]
    split
    · next h => simp [value, toNat?_ofNat (show n < 16 by omega)]
    · next h =>
      have hq := ih (n / 10) (by omega)
      simp only [value] at hq ⊢
      rw [List.foldl_append, hq]
      simp only [List.foldl_cons, List.foldl_nil, toNat?_ofNat (show n % 10 < 16 by omega),
        Option.getD_some]
      omega

end Glossator.Digits
