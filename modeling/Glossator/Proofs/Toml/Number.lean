import Glossator.Proofs.Text.Digits
import Glossator.Toml.Moment
import Glossator.Toml.Printer

/-!
# Integers in TOML

The decimal notation of an integer is read back as the integer: it is no date, no time and no number
with a fraction.

* `Toml.number?_decimalInt`: an integer comes back from its decimal notation.
-/

set_option autoImplicit false

namespace Glossator.Toml

variable {c : Char} {ds rest : Text}

/-- Behind the digits a line ends. -/
theorem digits?_append (rest : Text) (hne : ds ≠ []) (hds : ∀ c ∈ ds, c.isDigit = true) :
    digits? Char.isDigit (ds ++ '\n' :: rest) = some (ds, '\n' :: rest) := by
  have hgo : ∀ (ds : Text) (first : Char), (∀ c ∈ ds, c.isDigit = true) →
      digits?.go Char.isDigit first (ds ++ '\n' :: rest) = (first :: ds, '\n' :: rest) := by
    intro ds
    induction ds with
    | nil =>
      intro first _
      simp [digits?.go]
    | cons d ds ih =>
      intro first hds
      have hdigit := hds d List.mem_cons_self
      have hrest := ih d fun c hc => hds c (List.mem_cons_of_mem _ hc)
      rw [List.cons_append]
      unfold digits?.go
      split
      · next heq => cases heq
      · next heq =>
        obtain ⟨rfl, -⟩ := List.cons.inj heq
        cases hdigit
      · next heq =>
        obtain ⟨rfl, rfl⟩ := List.cons.inj heq
        rw [if_pos hdigit, hrest]
  cases ds with
  | nil => exact absurd rfl hne
  | cons d ds =>
    have hdigit := hds d List.mem_cons_self
    simp [digits?, hdigit, hgo ds d fun c hc => hds c (List.mem_cons_of_mem _ hc)]

/-- The decimal notation of a number that is not negative is its own whole part. -/
theorem wholePart?_decimal (n : Nat) :
    wholePart? (Digits.decimal n ++ '\n' :: rest) = some (Digits.decimal n, '\n' :: rest) := by
  have hdigits := Digits.isDigit_of_mem_decimal (n := n)
  obtain ⟨c, ds, hcons, hne | ⟨-, rfl, rfl⟩⟩ := Digits.exists_decimal_cons n
  · have hread := digits?_append rest (by rw [hcons]; simp) hdigits
    rw [hcons] at hread ⊢
    unfold wholePart?
    split
    · next heq => exact absurd (List.cons.inj heq).1 hne
    · exact hread
  · rw [hcons]
    rfl

/-- The notation of an integer: digits, and a minus before them if it is negative. -/
theorem sign_decimalInt (i : Int) :
    sign (Digits.decimalInt i ++ '\n' :: rest) =
      (decide (i < 0), Digits.decimal i.natAbs ++ '\n' :: rest) := by
  cases i with
  | ofNat n =>
    obtain ⟨c, ds, hcons, hdigit⟩ := Digits.exists_digit_cons n
    have hsign : sign (c :: (ds ++ '\n' :: rest)) = (false, c :: (ds ++ '\n' :: rest)) := by
      unfold sign
      split
      · next heq =>
        obtain ⟨rfl, -⟩ := List.cons.inj heq
        cases hdigit
      · next heq =>
        obtain ⟨rfl, -⟩ := List.cons.inj heq
        cases hdigit
      · rfl
    simp [Digits.decimalInt, hcons, hsign]
  | negSucc n => simp [Digits.decimalInt, sign, Int.negSucc_lt_zero]

/-- The line ends where a fraction or an exponent would start. -/
theorem decimal?_decimalInt (i : Int) : decimal? (Digits.decimalInt i ++ '\n' :: rest) = none := by
  simp [decimal?, sign_decimalInt, wholePart?_decimal, exponent?]

theorem special?_decimalInt (i : Int) : special? (Digits.decimalInt i ++ '\n' :: rest) = none := by
  obtain ⟨c, ds, hcons, hdigit⟩ := Digits.exists_digit_cons i.natAbs
  rw [special?, sign_decimalInt, hcons]
  dsimp only
  split
  · next heq =>
    obtain ⟨rfl, -⟩ := List.cons.inj heq
    cases hdigit
  · next heq =>
    obtain ⟨rfl, -⟩ := List.cons.inj heq
    cases hdigit
  · rfl

theorem ofMagnitude?_natAbs {i : Int} (hi : IsIntegerRange i) :
    ofMagnitude? (decide (i < 0)) i.natAbs = some i := by
  rw [ofMagnitude?, Digits.signed_natAbs]
  exact if_pos hi

/-- No letter follows a zero that a number starts with. -/
theorem second_eq_newline {i : Int} {d : Char} {u : Text}
    (h : Digits.decimalInt i ++ '\n' :: rest = '0' :: d :: u) : d = '\n' := by
  cases i with
  | ofNat n =>
    obtain ⟨c, ds, hcons, hne⟩ := Digits.exists_decimal_cons n
    rw [Digits.decimalInt, hcons, List.cons_append, List.cons.injEq] at h
    obtain ⟨rfl, h⟩ := h
    obtain ⟨-, -, rfl⟩ := hne.resolve_left (fun hne => hne rfl)
    exact (List.cons.inj h).1.symm
  | negSucc n => exact absurd (List.cons.inj h).1 (by decide)

theorem integer?_decimalInt {i : Int} (hi : IsIntegerRange i) :
    integer? (Digits.decimalInt i ++ '\n' :: rest) = some (i, '\n' :: rest) := by
  unfold integer?
  split
  · next heq => cases second_eq_newline heq
  · next heq => cases second_eq_newline heq
  · next heq => cases second_eq_newline heq
  · rw [sign_decimalInt]
    simp [wholePart?_decimal, Digits.value_decimal, ofMagnitude?_natAbs hi]

/-! ### Dates and times -/

/-- No mark stands behind so many digits of an integer on a line. -/
theorem after?_of_fixed? {i : Int} {width low high n : Nat} {t : Text} (mark : Char)
    (h : fixed? width low high (Digits.decimalInt i ++ '\n' :: rest) = some (n, t))
    (hwidth : 0 < width) (hmark : mark.isDigit = false) (hnewline : mark ≠ '\n') :
    after? mark t = none := by
  simp only [fixed?, Option.ite_none_right_eq_some, Bool.and_eq_true, decide_eq_true_eq,
    List.all_eq_true, Option.some.injEq, Prod.mk.injEq] at h
  obtain ⟨⟨⟨⟨hlength, hall⟩, -⟩, -⟩, -, rfl⟩ := h
  cases i with
  | ofNat k =>
    have hdigits := Digits.isDigit_of_mem_decimal (n := k)
    rw [Digits.decimalInt] at hall ⊢
    generalize Digits.decimal k = ds at hdigits hall ⊢
    have hle : width ≤ ds.length := by
      by_contra hlt
      obtain ⟨extra, hextra⟩ := Nat.exists_eq_add_of_lt (Nat.lt_of_not_le hlt)
      have hmem : '\n' ∈ (ds ++ '\n' :: rest).take width := by
        rw [hextra, Nat.add_assoc, List.take_length_add_append, List.take_succ_cons]
        exact List.mem_append_right _ List.mem_cons_self
      cases hall _ hmem
    rw [List.drop_append_of_le_length hle]
    cases hdrop : ds.drop width with
    | nil => simp [after?, hnewline.symm]
    | cons d u =>
      have hdigit := hdigits d (List.mem_of_mem_drop (hdrop ▸ List.mem_cons_self))
      have hne : d ≠ mark := by
        rintro rfl
        rw [hmark] at hdigit
        cases hdigit
      simp [after?, hne]
  | negSucc k =>
    obtain ⟨width, rfl⟩ := Nat.exists_eq_add_one_of_ne_zero (Nat.ne_of_gt hwidth)
    cases hall '-' (by simp [Digits.decimalInt])

theorem moment?_decimalInt (i : Int) (rest : Text) :
    moment? (Digits.decimalInt i ++ '\n' :: rest) = none := by
  have hdate : afterDate? (Digits.decimalInt i ++ '\n' :: rest) = none := by
    rw [afterDate?]
    cases h : fixed? 4 0 9999 (Digits.decimalInt i ++ '\n' :: rest) with
    | none => rfl
    | some found => simp [after?_of_fixed? '-' h (by decide) rfl (by decide)]
  have htime : afterTime? (Digits.decimalInt i ++ '\n' :: rest) = none := by
    rw [afterTime?]
    cases h : fixed? 2 0 23 (Digits.decimalInt i ++ '\n' :: rest) with
    | none => rfl
    | some found => simp [after?_of_fixed? ':' h (by decide) rfl (by decide)]
  rw [moment?, hdate, htime]
  rfl

/-- An integer comes back from its decimal notation. -/
theorem number?_decimalInt {i : Int} (hi : IsIntegerRange i) (rest : Text) :
    number? (Digits.decimalInt i ++ '\n' :: rest) = some (.integer i, '\n' :: rest) := by
  rw [number?, decimal?_decimalInt, special?_decimalInt, integer?_decimalInt hi]
  rfl

end Glossator.Toml
