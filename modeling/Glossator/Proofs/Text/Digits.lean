import Mathlib
import Glossator.Text.Digits

/-!
# Digits

The decimal notation of a number consists of digits, and no zero stands in front of others. Written
in another base, a number may have zeros in front and digits of either case.

* `Digits.exists_decimal_cons`: how the notation of a number starts.
* `Digits.Denote.value_eq`: digits read back as the number they stand for.
-/

set_option autoImplicit false

namespace Glossator.Digits

theorem isDigit_ofNat {n : Nat} (h : n < 10) :
    (ofNat n).isDigit = true ∧ (ofNat n ≠ '0' ∨ n = 0) := by
  have hall : ∀ k : Fin 10, (ofNat k).isDigit = true ∧ (ofNat k ≠ '0' ∨ k.val = 0) := by decide
  exact hall ⟨n, h⟩

theorem isDigit_of_mem_decimal {n : Nat} : ∀ c ∈ decimal n, c.isDigit = true := by
  induction n using Nat.strongRecOn with
  | _ n ih =>
    rw [decimal]
    split
    · next h =>
      intro c hc
      rw [List.mem_singleton.1 hc]
      exact (isDigit_ofNat h).1
    · next h =>
      intro c hc
      rcases List.mem_append.1 hc with hc | hc
      · exact ih (n / 10) (by omega) c hc
      · rw [List.mem_singleton.1 hc]
        exact (isDigit_ofNat (by omega)).1

/-- The notation of a number starts with a digit other than zero, unless it is zero. -/
theorem exists_decimal_cons (n : Nat) :
    ∃ c ds, decimal n = c :: ds ∧ (c ≠ '0' ∨ n = 0 ∧ c = '0' ∧ ds = []) := by
  induction n using Nat.strongRecOn with
  | _ n ih =>
    rw [decimal]
    split
    · next h =>
      rcases (isDigit_ofNat h).2 with hne | rfl
      · exact ⟨_, _, rfl, .inl hne⟩
      · exact ⟨_, _, rfl, .inr ⟨rfl, rfl, rfl⟩⟩
    · next h =>
      obtain ⟨c, ds, hcons, hne⟩ := ih (n / 10) (by omega)
      exact ⟨c, ds ++ [ofNat (n % 10)], by rw [hcons]; rfl, .inl (hne.resolve_right (by omega))⟩

theorem exists_digit_cons (n : Nat) : ∃ c ds, decimal n = c :: ds ∧ c.isDigit = true := by
  obtain ⟨c, ds, hcons, -⟩ := exists_decimal_cons n
  exact ⟨c, ds, hcons, isDigit_of_mem_decimal (n := n) c (hcons ▸ List.mem_cons_self)⟩

/-- The notation of an integer starts with a digit or a minus. -/
theorem exists_decimalInt_cons (i : Int) :
    ∃ c u, decimalInt i = c :: u ∧ (c.isDigit = true ∨ c = '-') := by
  cases i with
  | ofNat n =>
    obtain ⟨c, ds, hcons, hdigit⟩ := exists_digit_cons n
    exact ⟨c, ds, hcons, .inl hdigit⟩
  | negSucc n => exact ⟨'-', _, rfl, .inr rfl⟩

/-- An integer is its magnitude with its sign. -/
theorem signed_natAbs (i : Int) :
    (if decide (i < 0) = true then -(i.natAbs : Int) else i.natAbs) = i := by
  by_cases h : i < 0
  · rw [if_pos (decide_eq_true h)]
    omega
  · rw [decide_eq_false h, if_neg Bool.false_ne_true]
    omega

/-! ### Digits of either case -/

/-- The digits of the numbers below 16, in lower and in upper case. -/
def alphabets : List Text := ["0123456789abcdef".toList, "0123456789ABCDEF".toList]

/-- The character is a digit for a number, in one case or the other. -/
def IsDigit (k : Nat) (c : Char) : Prop := ∃ alphabet ∈ alphabets, alphabet[k]? = some c

/-- The digits stand for a number in a base, the first for the highest power of the base. -/
def Denote (base n : Nat) (digits : Text) : Prop :=
  ∃ ks, List.Forall₂ IsDigit ks digits ∧ (∀ k ∈ ks, k < base) ∧ Nat.ofDigits base ks.reverse = n

variable {base k n : Nat} {c : Char} {digits : Text}

theorem IsDigit.toNat?_eq (h : IsDigit k c) : toNat? c = some k := by
  have hall : ∀ alphabet ∈ alphabets, alphabet.length = 16 ∧
      ∀ i : Fin 16, alphabet[i.val]?.bind toNat? = some i.val := by decide
  obtain ⟨alphabet, hmem, hget⟩ := h
  obtain ⟨hlength, hvalue⟩ := hall alphabet hmem
  have hlt : k < 16 := hlength ▸ (List.getElem?_eq_some_iff.1 hget).1
  simpa [hget] using hvalue ⟨k, hlt⟩

theorem IsDigit.isDigitOf (h : IsDigit k c) (hk : k < base) : isDigitOf base c = true := by
  simp [Digits.isDigitOf, h.toNat?_eq, hk]

theorem Denote.isDigitOf (h : Denote base n digits) : ∀ c ∈ digits, isDigitOf base c = true := by
  obtain ⟨ks, hdigits, hks, -⟩ := h
  induction hdigits with
  | nil => simp
  | cons hdigit _ ih =>
    rw [List.forall_mem_cons] at hks ⊢
    exact ⟨hdigit.isDigitOf hks.1, ih hks.2⟩

/-- Digits read back as the number that they stand for. -/
theorem Denote.value_eq (h : Denote base n digits) : value base digits = n := by
  obtain ⟨ks, hdigits, -, rfl⟩ := h
  have hfold (start : Nat) : digits.foldl (fun n c => n * base + (toNat? c).getD 0) start =
      ks.foldl (fun n k => n * base + k) start := by
    induction hdigits generalizing start with
    | nil => rfl
    | cons hdigit _ ih =>
      rw [List.foldl_cons, List.foldl_cons, hdigit.toNat?_eq, ih, Option.getD_some]
  rw [value, hfold 0, Nat.ofDigits_eq_foldr, List.foldr_reverse]
  congr 1
  funext n k
  simp [Nat.add_comm, Nat.mul_comm]

end Glossator.Digits
