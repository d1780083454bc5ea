import Mathlib
import Glossator.Text.Basic

/-!
# Counting lines

The line of a place is one more than the number of newlines before it. A newline belongs to the
line that it ends, so a text has as many lines as its last character's line says.

* `Text.lineAt_add_countLines_slice`: the lines of a piece of text, from where it starts and ends.
* `Text.lineAt_le_countLines`: no place of a text is behind its last line.
* `Text.AreLines.countLines_flatten`: a text that is put together of lines has as many.
-/

set_option autoImplicit false

namespace Glossator.Text

variable {t : Text} {i j : Nat}

/-- The line of an offset, counted from 1. -/
def lineAt (t : Text) (i : Nat) : Nat := (t.take i).count '\n' + 1

/-- A newline at the very end opens no further line. -/
theorem countLines_eq (hne : t ≠ []) : t.countLines = t.dropLast.count '\n' + 1 := by
  obtain ⟨front, c, rfl⟩ := List.eq_nil_or_concat t |>.resolve_left hne
  rw [List.concat_eq_append, List.dropLast_concat]
  simp only [countLines, List.getLast?_concat, List.count_append, List.count_singleton]
  by_cases hc : c = '\n' <;> simp [hc]

/-- The newlines before a place are those before an earlier one and those between the two. -/
theorem lineAt_eq_add (hle : i ≤ j) :
    lineAt t j = lineAt t i + ((t.drop i).take (j - i)).count '\n' := by
  have hsplit : t.take j = t.take i ++ (t.drop i).take (j - i) := by
    rw [← List.take_add, Nat.add_sub_cancel' hle]
  rw [lineAt, lineAt, hsplit, List.count_append, Nat.add_right_comm]

theorem lineAt_mono (hle : i ≤ j) : lineAt t i ≤ lineAt t j := by
  rw [lineAt_eq_add hle]
  exact Nat.le_add_right _ _

/-- Behind a newline another line starts. -/
theorem lineAt_lt_succ (h : t[i]? = some '\n') : lineAt t i < lineAt t (i + 1) := by
  rw [lineAt, lineAt, List.take_add_one, h, List.count_append]
  simp

/-- Without newlines in between, two places are on one line. -/
theorem lineAt_eq_of_not_mem (hle : i ≤ j) (h : '\n' ∉ (t.drop i).take (j - i)) :
    lineAt t j = lineAt t i := by
  rw [lineAt_eq_add hle, List.count_eq_zero_of_not_mem h, Nat.add_zero]

/-- The lines of a piece of text reach from the line of its first to that of its last character. -/
theorem lineAt_add_countLines_slice (hlt : i < j) (hle : j ≤ t.length) :
    lineAt t i + (Span.slice ⟨i, j⟩ t).countLines = lineAt t (j - 1) + 1 := by
  have hlength : ((t.drop i).take (j - i)).length = j - i := by
    rw [List.length_take, List.length_drop]
    omega
  have hne : (t.drop i).take (j - i) ≠ [] := by
    intro hnil
    rw [hnil, List.length_nil] at hlength
    omega
  have hlast : ((t.drop i).take (j - i)).dropLast = (t.drop i).take (j - 1 - i) := by
    rw [List.dropLast_eq_take, hlength, List.take_take]
    congr 1
    omega
  rw [Span.slice, countLines_eq hne, hlast, lineAt_eq_add (by omega : i ≤ j - 1)]
  omega

/-- No place of a text is behind its last line. -/
theorem lineAt_le_countLines (h : i < t.length) : lineAt t i ≤ t.countLines := by
  have hlines := lineAt_add_countLines_slice (t := t) (by omega : 0 < t.length) le_rfl
  have hwhole : Span.slice ⟨0, t.length⟩ t = t := by simp [Span.slice]
  have hmono : lineAt t i ≤ lineAt t (t.length - 1) := lineAt_mono (by omega)
  have hfirst : lineAt t 0 = 1 := by simp [lineAt]
  rw [hwhole, hfirst] at hlines
  omega

/-! ### Lines with their ends -/

/-- Lines in order: every one ends with its only newline, the last one perhaps without. -/
inductive AreLines : List Text → Prop where
  | nil : AreLines []
  | unended {line : Text} : line ≠ [] → '\n' ∉ line → AreLines [line]
  | ended {line : Text} {lines : List Text} :
      '\n' ∉ line → AreLines lines → AreLines ((line ++ ['\n']) :: lines)

theorem areLines_linesWithEnds (t : Text) : AreLines t.linesWithEnds := by
  induction t with
  | nil => exact .nil
  | cons c rest ih =>
    rw [linesWithEnds]
    by_cases hc : c = '\n'
    · rw [if_pos hc, hc]
      exact .ended List.not_mem_nil ih
    · have hmem {line : Text} (h : '\n' ∉ line) : '\n' ∉ c :: line := by
        rintro (_ | ⟨_, hline⟩)
        · exact hc rfl
        · exact h hline
      rw [if_neg hc]
      generalize linesWithEnds rest = lines at ih
      cases ih with
      | nil => exact .unended (List.cons_ne_nil c []) (hmem List.not_mem_nil)
      | @unended line _ hline => exact .unended (List.cons_ne_nil c line) (hmem hline)
      | ended hline hlines => exact .ended (hmem hline) hlines

namespace AreLines

variable {lines lines' : List Text}

/-- Leaving out lines leaves lines. -/
theorem sublist (h : AreLines lines) (hsub : List.Sublist lines' lines) : AreLines lines' := by
  induction h generalizing lines' with
  | nil =>
    rw [List.sublist_nil.1 hsub]
    exact .nil
  | @unended line hne hline =>
    rcases List.sublist_singleton.1 hsub with rfl | rfl
    · exact .nil
    · exact .unended hne hline
  | ended hline hlines ih =>
    cases hsub with
    | cons _ hsub => exact ih hsub
    | cons_cons _ hsub => exact .ended hline (ih hsub)

/-- A line has a newline at its end or nowhere. -/
theorem newline_notMem_or (h : AreLines lines) {line : Text} (hmem : line ∈ lines) :
    '\n' ∉ line ∨ ∃ front, '\n' ∉ front ∧ line = front ++ ['\n'] := by
  induction h with
  | nil => cases hmem
  | unended _ hline =>
    rw [List.mem_singleton.1 hmem]
    exact .inl hline
  | ended hline _ ih =>
    rcases List.mem_cons.1 hmem with rfl | hmem
    · exact .inr ⟨_, hline, rfl⟩
    · exact ih hmem

/-- A text has as many lines as it is made of. -/
theorem countLines_flatten (h : AreLines lines) : countLines lines.flatten = lines.length := by
  induction h with
  | nil => rfl
  | @unended line hne hline =>
    rw [List.flatten_singleton, countLines_eq hne, List.count_eq_zero_of_not_mem]
    · rfl
    · exact fun h => hline (List.mem_of_mem_dropLast h)
  | @ended line lines hline hlines ih =>
    rw [List.flatten_cons, List.append_assoc, List.singleton_append, List.length_cons, ← ih]
    cases hrest : lines.flatten with
    | nil =>
      rw [countLines_eq (by simp)]
      simp [List.count_eq_zero_of_not_mem hline, countLines]
    | cons c rest =>
      rw [countLines_eq (by simp), countLines_eq (by simp)]
      rw [List.dropLast_append_of_ne_nil (by simp), List.dropLast_cons_of_ne_nil (by simp)]
      simp [List.count_eq_zero_of_not_mem hline]

end AreLines

/-- A text has as many lines as it is split into. -/
theorem length_linesWithEnds (t : Text) : t.linesWithEnds.length = t.countLines := by
  rw [← (areLines_linesWithEnds t).countLines_flatten, flatten_linesWithEnds]

/-! ### Consecutive lines -/

/-- Consecutive lines of a text, from one to another, both counted from 0 and the other left out. -/
def stretch (lines : List Text) (i j : Nat) : List Text := (lines.take j).drop i

section Stretch

variable {lines : List Text} {i j k : Nat}

theorem stretch_append_stretch (hij : i ≤ j) (hjk : j ≤ k) (hk : k ≤ lines.length) :
    stretch lines i j ++ stretch lines j k = stretch lines i k := by
  have hlength : i ≤ (lines.take j).length := by
    rw [List.length_take]
    omega
  have hsplit : lines.take k = lines.take j ++ (lines.take k).drop j := by
    conv_lhs => rw [← List.take_append_drop j (lines.take k), List.take_take, Nat.min_eq_left hjk]
  unfold stretch
  conv_rhs => rw [hsplit, List.drop_append_of_le_length hlength]

theorem length_stretch (hj : j ≤ lines.length) : (stretch lines i j).length = j - i := by
  rw [stretch, List.length_drop, List.length_take, Nat.min_eq_left hj]

theorem stretch_sublist (lines : List Text) (i j : Nat) : List.Sublist (stretch lines i j) lines :=
  (List.drop_sublist i _).trans (List.take_sublist j lines)

theorem take_append_stretch_append_drop (hij : i ≤ j) (hj : j ≤ lines.length) :
    lines.take i ++ stretch lines i j ++ lines.drop j = lines := by
  have hhead : lines.take i ++ stretch lines i j = lines.take j := by
    simpa [stretch] using stretch_append_stretch (Nat.zero_le i) hij hj
  rw [hhead, List.take_append_drop]

end Stretch

end Glossator.Text
