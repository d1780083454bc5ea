import Mathlib
import Glossator.Text.Basic

/-!
# Splitting texts

A text is split at its separators, and what stands before and behind one of them is split apart.
From this one equation follow the words of a text, which stand between blanks.

* `Text.splitAt_append_cons`: the pieces of a text on both sides of a separator.
* `Text.words_append_cons`: the words of a text on both sides of a blank.
* `Text.eq_of_append_cons`: a text is cut in one way at the first character of a kind.
-/

set_option autoImplicit false

namespace Glossator.Text

/-- A text is split at a separator into what is split before it and what is split behind it. -/
theorem splitAt_append_cons {p : Char → Bool} {c : Char} (hc : p c = true) (a b : Text) :
    splitAt p (a ++ c :: b) = splitAt p a ++ splitAt p b := by
  induction a with
  | nil => simp [splitAt, hc]
  | cons d a ih =>
    rw [List.cons_append, splitAt, splitAt, ih]
    by_cases hd : p d
    · simp [hd]
    · cases hsplit : splitAt p a with
      | nil =>
        cases a with
        | nil => simp [splitAt] at hsplit
        | cons e a =>
          rw [splitAt] at hsplit
          split at hsplit
          · cases hsplit
          · split at hsplit <;> cases hsplit
      | cons piece pieces => simp [hd]

/-- A text without separators is one piece. -/
theorem splitAt_eq_singleton {p : Char → Bool} {t : Text} (h : ∀ c ∈ t, p c = false) :
    splitAt p t = [t] := by
  induction t with
  | nil => rfl
  | cons c t ih =>
    have hc : p c = false := h c List.mem_cons_self
    rw [splitAt, ih fun d hd => h d (List.mem_cons_of_mem c hd)]
    simp [hc]

/-- Characters are replaced piece by piece if separators are replaced by separators only. -/
theorem splitAt_map {p : Char → Bool} {f : Char → Char} (h : ∀ c, p (f c) = p c) (t : Text) :
    splitAt p (t.map f) = (splitAt p t).map (·.map f) := by
  induction t with
  | nil => rfl
  | cons c t ih =>
    rw [List.map_cons, splitAt, splitAt, ih, h]
    by_cases hc : p c
    · simp [hc]
    · cases splitAt p t <;> simp [hc]

/-- What stands between separators is one of the pieces that a text is split into. -/
theorem mem_splitAt {p : Char → Bool} {a w b : Text} (hw : ∀ c ∈ w, p c = false)
    (ha : ∀ c ∈ a.getLast?, p c = true) (hb : ∀ c ∈ b.head?, p c = true) :
    w ∈ splitAt p (a ++ w ++ b) := by
  -- the end of the text behind the word is split off
  have hend : w ∈ splitAt p (w ++ b) := by
    cases b with
    | nil => simp [splitAt_eq_singleton hw]
    | cons c b =>
      rw [splitAt_append_cons (hb c rfl), splitAt_eq_singleton hw]
      exact List.mem_append_left _ List.mem_cons_self
  rcases List.eq_nil_or_concat a with rfl | ⟨a, c, rfl⟩
  · exact hend
  · have hlist : a ++ [c] ++ w ++ b = a ++ c :: (w ++ b) := by simp
    rw [List.concat_eq_append, hlist, splitAt_append_cons (ha c (by simp))]
    exact List.mem_append_right _ hend

@[simp] theorem words_nil : words [] = [] := rfl

/-- The words on both sides of a blank. -/
theorem words_append_cons {c : Char} (hc : isBlank c = true) (a b : Text) :
    words (a ++ c :: b) = words a ++ words b := by
  rw [words, words, words, splitAt_append_cons hc, List.filter_append]

/-- A text without blanks is one word. -/
theorem words_eq_singleton {w : Text} (hne : w ≠ []) (hw : ∀ c ∈ w, isBlank c = false) :
    words w = [w] := by
  rw [words, splitAt_eq_singleton hw]
  simp [hne]

theorem words_blanks_append {gap : Text} (hgap : ∀ c ∈ gap, isBlank c = true) (t : Text) :
    words (gap ++ t) = words t := by
  induction gap with
  | nil => rfl
  | cons c gap ih =>
    have hc := words_append_cons (hgap c List.mem_cons_self) [] (gap ++ t)
    rw [List.nil_append, words_nil, List.nil_append] at hc
    rw [List.cons_append, hc]
    exact ih fun d hd => hgap d (List.mem_cons_of_mem c hd)

/-- A text is cut in one way only at a character that is the first of its kind. -/
theorem eq_of_append_cons {a b r s : Text} {x y : Char} (h : a ++ x :: r = b ++ y :: s)
    (hx : x ∉ b) (hy : y ∉ a) : a = b ∧ x = y ∧ r = s := by
  rcases List.append_eq_append_iff.1 h with ⟨more, rfl, hmore⟩ | ⟨more, rfl, hmore⟩
  · cases more with
    | nil =>
      obtain ⟨rfl, rfl⟩ := List.cons.inj hmore
      exact ⟨(List.append_nil a).symm, rfl, rfl⟩
    | cons c more =>
      obtain ⟨rfl, -⟩ := List.cons.inj hmore
      exact absurd (List.mem_append_right a List.mem_cons_self) hx
  · cases more with
    | nil =>
      obtain ⟨rfl, rfl⟩ := List.cons.inj hmore
      exact ⟨List.append_nil b, rfl, rfl⟩
    | cons c more =>
      obtain ⟨rfl, -⟩ := List.cons.inj hmore
      exact absurd (List.mem_append_right b List.mem_cons_self) hy

end Glossator.Text
