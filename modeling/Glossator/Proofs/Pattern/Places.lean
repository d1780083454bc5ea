import Mathlib
import Glossator.Pattern.Places

/-!
# What sets of places hold

A set of places is a number, and its operations are operations on numbers. Here each of them is
read through its bits: which offsets belong to the set.

* `Places.testBit_whereTest`: the places that pass a test, as a set.
* `Places.testBit_runsTo_of_run`: a run over places of a set is found.
* `Places.step_closure_subset`: a closure takes in every place that a step leads to it.
-/

set_option autoImplicit false

namespace Glossator

/-- The place of a text at an offset. -/
def Cursor.inText (t : Text) (offset : Nat) : Cursor :=
  ⟨(t.take offset).getLast?, t.drop offset, offset⟩

@[simp] theorem Cursor.inText_offset (t : Text) (i : Nat) : (Cursor.inText t i).offset = i := rfl

@[simp] theorem Cursor.inText_rest (t : Text) (i : Nat) : (Cursor.inText t i).rest = t.drop i := rfl

/-- The place behind a piece that stands at an offset is the place of the piece's end. -/
theorem Cursor.behind_inText {t piece : Text} {i : Nat} (h : piece <+: t.drop i) :
    (Cursor.inText t i).behind piece = Cursor.inText t (i + piece.length) := by
  obtain ⟨rest, hrest⟩ := h
  have hdrop : t.drop (i + piece.length) = rest := by
    rw [← List.drop_drop, ← hrest, List.drop_left]
  have htake : t.take (i + piece.length) = t.take i ++ piece := by
    rw [List.take_add, ← hrest, List.take_left]
  simp only [Cursor.behind, Cursor.inText, hdrop, htake, List.getLast?_append, ← hrest,
    List.drop_left]

namespace Places

/-! ### Packing -/

/-- A packed list holds its bits in order. -/
theorem testBit_pack (bs : List Bool) (i : Nat) : (pack bs).testBit i = bs.getD i false := by
  induction bs generalizing i with
  | nil => simp [pack]
  | cons b bs ih =>
    cases i with
    | zero => cases b <;> simp [pack]
    | succ i =>
      have hhalf : (2 * pack bs + b.toNat) / 2 = pack bs := by
        cases b <;> simp only [Bool.toNat_false, Bool.toNat_true] <;> omega
      rw [pack, Nat.testBit_succ, hhalf, ih]
      simp

theorem testBit_ofBools (bs : List Bool) (i : Nat) : (ofBools bs).testBit i = bs.getD i false := by
  fun_induction ofBools bs generalizing i with
  | case1 bs h => simp [List.isEmpty_iff.1 h]
  | case2 bs h ih =>
    rw [Nat.testBit_or, Nat.testBit_shiftLeft, ih, testBit_pack]
    simp only [List.getD_eq_getElem?_getD, List.getElem?_drop, List.getElem?_take]
    by_cases hi : i < chunk
    · simp [hi, Nat.not_le.2 hi]
    · have hadd : chunk + (i - chunk) = i := by omega
      simp [hi, Nat.not_lt.1 hi, hadd]

/-- The tests of the places from a cursor on, one for each place of the rest. -/
theorem getElem?_testFrom (test : Cursor → Bool) (previous : Option Char) (offset k : Nat)
    (rest : Text) : (testFrom test previous offset rest)[k]? =
      if k ≤ rest.length then
        some (test ⟨(rest.take k).getLast?.or previous, rest.drop k, offset + k⟩)
      else none := by
  induction rest generalizing previous offset k with
  | nil => cases k <;> simp [testFrom]
  | cons c rest ih =>
    cases k with
    | zero => simp [testFrom]
    | succ k =>
      have hlast : ((c :: rest).take (k + 1)).getLast?.or previous =
          (rest.take k).getLast?.or (some c) := by
        rw [List.take_succ_cons, List.getLast?_cons]
        cases (rest.take k).getLast? <;> rfl
      rw [testFrom, List.getElem?_cons_succ, ih, hlast]
      simp [Nat.add_assoc, Nat.add_comm 1 k]

theorem testBit_whereTest (t : Text) (test : Cursor → Bool) (i : Nat) :
    (whereTest t test).testBit i = (decide (i ≤ t.length) && test (Cursor.inText t i)) := by
  rw [whereTest, testBit_ofBools, List.getD_eq_getElem?_getD, getElem?_testFrom]
  by_cases h : i ≤ t.length <;> simp [h, Cursor.inText]

theorem testBit_upTo (count i : Nat) : (upTo count).testBit i = decide (i < count) := by
  rw [upTo, Nat.shiftLeft_eq, Nat.one_mul, Nat.testBit_two_pow_sub_one]

/-! ### Runs and closures -/

/-- A run that is shorter than `2 ^ rounds` units and ends in the goal is found. Each round
doubles the unit: `path` holds the starts of runs of one unit. -/
theorem testBit_runsTo_of_run {rounds unit n start : Nat} {path goal : Places}
    (hunits : n < 2 ^ rounds) (hpath : ∀ j < n, path.testBit (start + j * unit) = true)
    (hgoal : goal.testBit (start + n * unit) = true) :
    (runsTo rounds unit path goal).testBit start = true := by
  induction rounds generalizing unit n path goal with
  | zero =>
    obtain rfl : n = 0 := by simpa using hunits
    simpa [runsTo] using hgoal
  | succ rounds ih =>
    -- half of the run in doubled units; an odd unit at the end is taken by the new goal
    apply ih (n := n / 2)
    · rw [Nat.pow_succ] at hunits
      omega
    · intro j hj
      have h1 := hpath (2 * j) (by omega)
      have h2 := hpath (2 * j + 1) (by omega)
      have e1 : start + j * (2 * unit) = start + 2 * j * unit := by ring
      have e2 : unit + (start + j * (2 * unit)) = start + (2 * j + 1) * unit := by ring
      rw [Nat.testBit_and, Nat.testBit_shiftRight, e2, e1, h1, h2, Bool.and_self]
    · rw [Nat.testBit_or, Nat.testBit_and, Nat.testBit_shiftRight]
      rcases Nat.even_or_odd' n with ⟨k, rfl | rfl⟩
      · have e : start + 2 * k / 2 * (2 * unit) = start + 2 * k * unit := by
          rw [Nat.mul_div_cancel_left _ (by decide : 0 < 2)]
          ring
        rw [e, hgoal, Bool.true_or]
      · have hk : (2 * k + 1) / 2 = k := by omega
        have e1 : start + k * (2 * unit) = start + 2 * k * unit := by ring
        have e2 : unit + (start + 2 * k * unit) = start + (2 * k + 1) * unit := by ring
        rw [hk, e1, e2, hgoal, hpath (2 * k) (by omega), Bool.and_self, Bool.or_true]

/-- A closure holds what it starts from, within the size. -/
theorem testBit_closure_of_goal {step : Places → Places} {size bound i : Nat} {goal : Places}
    (hi : i ≤ size) (hgoal : goal.testBit i = true) :
    (closure step size bound goal).testBit i = true := by
  induction bound generalizing goal with
  | zero => simp [closure, testBit_upTo, Nat.lt_succ_of_le hi]
  | succ bound ih =>
    rw [closure]
    split
    · exact hgoal
    · exact ih (by simp [Nat.testBit_or, hgoal])

/-- A closure takes in every place that a step leads to it, within the size. -/
theorem step_closure_subset {step : Places → Places} {size bound i : Nat} {goal : Places}
    (hi : i ≤ size) (hstep : (step (closure step size bound goal)).testBit i = true) :
    (closure step size bound goal).testBit i = true := by
  induction bound generalizing goal with
  | zero => simp [closure, testBit_upTo, Nat.lt_succ_of_le hi]
  | succ bound ih =>
    rw [closure] at hstep ⊢
    split at hstep
    · next hfixed =>
      rw [if_pos hfixed]
      rw [← hfixed, Nat.testBit_or, hstep, Bool.or_true]
    · next hmore =>
      rw [if_neg hmore]
      exact ih hstep

end Places

end Glossator
