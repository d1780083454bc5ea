import Mathlib
import Glossator.Text.Basic

/-!
# Trimming texts

Trimming a text takes away blanks and nothing else.

* `Text.solid_trim`: the characters that are not blank are still there, in order.
-/

set_option autoImplicit false

namespace Glossator.Text

variable {t : Text}

/-- The characters of a text that are not blank. -/
def solid (t : Text) : Text := t.filter fun c => !isBlank c

theorem solid_append (t u : Text) : solid (t ++ u) = solid t ++ solid u := List.filter_append ..

theorem solid_eq_nil (h : ∀ c ∈ t, isBlank c = true) : solid t = [] := by
  rw [solid, List.filter_eq_nil_iff]
  intro c hc
  simp [h c hc]

/-- A text is the blanks it starts with and what is left without them. -/
theorem exists_blanks_append_trimStart (t : Text) :
    ∃ blanks, (∀ c ∈ blanks, isBlank c = true) ∧ t = blanks ++ trimStart t :=
  ⟨t.takeWhile isBlank, fun _ hc => List.mem_takeWhile_imp hc,
    List.takeWhile_append_dropWhile.symm⟩

/-- A text is what is left without the blanks it ends with, and these. -/
theorem exists_trimEnd_append_blanks (t : Text) :
    ∃ blanks, (∀ c ∈ blanks, isBlank c = true) ∧ t = trimEnd t ++ blanks :=
  ⟨t.rtakeWhile isBlank, fun _ hc => List.mem_rtakeWhile_imp hc,
    List.rdropWhile_append_rtakeWhile.symm⟩

theorem solid_trimStart (t : Text) : solid (trimStart t) = solid t := by
  obtain ⟨blanks, hblanks, ht⟩ := exists_blanks_append_trimStart t
  conv_rhs => rw [ht, solid_append, solid_eq_nil hblanks, List.nil_append]

theorem solid_trimEnd (t : Text) : solid (trimEnd t) = solid t := by
  obtain ⟨blanks, hblanks, ht⟩ := exists_trimEnd_append_blanks t
  conv_rhs => rw [ht, solid_append, solid_eq_nil hblanks, List.append_nil]

/-- Trimming keeps the characters that are not blank, in order. -/
theorem solid_trim (t : Text) : solid (trim t) = solid t := by
  rw [trim, solid_trimEnd, solid_trimStart]

theorem mem_of_mem_trim {c : Char} (h : c ∈ trim t) : c ∈ t := by
  obtain ⟨blanks, -, ht⟩ := exists_blanks_append_trimStart t
  obtain ⟨blanks', -, ht'⟩ := exists_trimEnd_append_blanks (trimStart t)
  rw [ht, ht']
  exact List.mem_append_right _ (List.mem_append_left _ h)

/-- Something is left of a text that is not blank throughout. -/
theorem trim_ne_nil {c : Char} (hc : c ∈ t) (h : isBlank c = false) : trim t ≠ [] := by
  intro hnil
  have hsolid : c ∈ solid (trim t) := by
    rw [solid_trim, solid, List.mem_filter]
    exact ⟨hc, by simp [h]⟩
  rw [hnil] at hsolid
  exact List.not_mem_nil hsolid

/-- A text that starts with blanks and then something else is trimmed to the latter. -/
theorem trimStart_append {blanks rest : Text} {c : Char} (hblanks : ∀ c ∈ blanks, isBlank c = true)
    (hc : isBlank c = false) : trimStart (blanks ++ c :: rest) = c :: rest := by
  rw [trimStart, List.dropWhile_append_of_pos hblanks, List.dropWhile_cons_of_neg]
  simp [hc]

/-! ### Blanks around a text -/

theorem isBlank_head?_trimStart {c : Char} (h : c ∈ (trimStart t).head?) : isBlank c = false := by
  have hhead := List.head?_dropWhile_not isBlank t
  rw [show (t.dropWhile isBlank).head? = some c from h] at hhead
  simpa using hhead

theorem trimStart_blanks_append {blanks : Text} (h : ∀ c ∈ blanks, isBlank c = true) (t : Text) :
    trimStart (blanks ++ t) = trimStart t := List.dropWhile_append_of_pos h

theorem trimEnd_append_blanks {blanks : Text} (h : ∀ c ∈ blanks, isBlank c = true) (t : Text) :
    trimEnd (t ++ blanks) = trimEnd t := by
  have hreverse : ∀ c ∈ blanks.reverse, isBlank c = true := fun c hc => h c (List.mem_reverse.1 hc)
  rw [trimEnd, dropEndWhile, List.reverse_append, List.dropWhile_append_of_pos hreverse]
  rfl

theorem trim_blanks_append {blanks : Text} (h : ∀ c ∈ blanks, isBlank c = true) (t : Text) :
    trim (blanks ++ t) = trim t := by
  rw [trim, trimStart_blanks_append h, trim]

theorem trim_append_blanks {blanks : Text} (h : ∀ c ∈ blanks, isBlank c = true) (t : Text) :
    trim (t ++ blanks) = trim t := by
  obtain ⟨front, hfront, ht⟩ := exists_blanks_append_trimStart t
  rw [trim, trim]
  cases hcore : trimStart t with
  | nil =>
    have hall : ∀ c ∈ t ++ blanks, isBlank c = true := by
      rw [ht, hcore, List.append_nil]
      exact fun c hc => (List.mem_append.1 hc).elim (hfront c) (h c)
    have hnone : trimStart (t ++ blanks) = [] := List.dropWhile_eq_nil_iff.2 hall
    rw [hnone]
  | cons c core =>
    have hc : isBlank c = false := isBlank_head?_trimStart (t := t) (by rw [hcore]; rfl)
    rw [← trimEnd_append_blanks h (c :: core)]
    conv_lhs => rw [ht, hcore, List.append_assoc, List.cons_append, trimStart_append hfront hc]
    rfl

theorem trim_trimEnd (t : Text) : trim (trimEnd t) = trim t := by
  obtain ⟨blanks, hblanks, ht⟩ := exists_trimEnd_append_blanks t
  conv_rhs => rw [ht, trim_append_blanks hblanks]

theorem isBlank_getLast?_trimEnd {c : Char} (h : c ∈ (trimEnd t).getLast?) : isBlank c = false := by
  rw [trimEnd, dropEndWhile, List.getLast?_reverse] at h
  exact isBlank_head?_trimStart h

theorem trimEnd_eq_self (h : ∀ c ∈ t.getLast?, isBlank c = false) : trimEnd t = t := by
  obtain ⟨blanks, hblanks, ht⟩ := exists_trimEnd_append_blanks t
  rcases List.eq_nil_or_concat blanks with rfl | ⟨blanks, c, rfl⟩
  · rw [List.append_nil] at ht
    exact ht.symm
  · have hlast : c ∈ t.getLast? := by
      rw [ht, List.concat_eq_append, ← List.append_assoc, List.getLast?_concat]
      rfl
    simpa [h c hlast] using hblanks c (by simp)

/-- Only what stands behind a character that is not blank is trimmed at the end. -/
theorem trimEnd_append_cons {c : Char} (hc : isBlank c = false) (a b : Text) :
    trimEnd (a ++ c :: b) = a ++ c :: trimEnd b := by
  obtain ⟨blanks, hblanks, hb⟩ := exists_trimEnd_append_blanks b
  have hsplit : a ++ c :: b = a ++ c :: trimEnd b ++ blanks := by
    conv_lhs => rw [hb]
    simp
  rw [hsplit, trimEnd_append_blanks hblanks, trimEnd_eq_self]
  intro d hd
  rw [List.getLast?_append_of_ne_nil _ (List.cons_ne_nil c _), List.getLast?_cons] at hd
  cases hlast : (trimEnd b).getLast? with
  | none =>
    rw [hlast] at hd
    obtain rfl : c = d := by simpa using hd
    exact hc
  | some e =>
    rw [hlast] at hd
    obtain rfl : e = d := by simpa using hd
    exact isBlank_getLast?_trimEnd hlast

theorem trim_cons {c : Char} (hc : isBlank c = false) (t : Text) :
    trim (c :: t) = c :: trimEnd t := by
  have hstart : trimStart (c :: t) = c :: t := List.dropWhile_cons_of_neg (by simp [hc])
  rw [trim, hstart]
  exact trimEnd_append_cons hc [] t

theorem count_trim {c : Char} (hc : isBlank c = false) (t : Text) :
    (trim t).count c = t.count c := by
  have hsolid (u : Text) : (solid u).count c = u.count c := List.count_filter (by simp [hc])
  rw [← hsolid (trim t), solid_trim, hsolid]

/-- What stands between blanks is what is left of a text. -/
theorem trim_eq {before core behind : Text} (hbefore : ∀ c ∈ before, isBlank c = true)
    (hbehind : ∀ c ∈ behind, isBlank c = true) (hhead : ∀ c ∈ core.head?, isBlank c = false)
    (hlast : ∀ c ∈ core.getLast?, isBlank c = false) :
    trim (before ++ (core ++ behind)) = core := by
  rw [trim_blanks_append hbefore, trim_append_blanks hbehind, trim]
  have hstart : trimStart core = core := by
    cases core with
    | nil => rfl
    | cons c core => exact List.dropWhile_cons_of_neg (by simp [hhead c rfl])
  rw [hstart, trimEnd_eq_self hlast]

end Glossator.Text
