import Glossator.Proofs.Java.PlainHeader

/-!
# Pieces of text without headers

The searches for headers pass over the pieces of a class tree's text in which no header starts.

* `Java.typeHeader_matchAt?_eq_none`: no type header starts in a piece without keywords.
* `Java.methodHeader_matchAt?_eq_none`: no method header starts in a piece without parentheses.
-/

set_option autoImplicit false

namespace Glossator

namespace Java

open Pattern

section

variable {before piece rest : Text}

theorem getElem?_piece {i : Nat} (hle : before.length ≤ i)
    (hlt : i < before.length + piece.length) :
    (before ++ piece ++ rest)[i]? = piece[i - before.length]? := by
  rw [List.append_assoc, List.getElem?_append_right hle, List.getElem?_append_left (by omega)]

/-- No type header starts in a piece without keywords that ends with what is neither a word
character nor a blank. -/
theorem typeHeader_matchAt?_eq_none (ht : ∀ c ∈ before ++ piece ++ rest, isTreeChar c = true)
    (hpiece : Keywordless piece) {z : Char} (hz : piece.getLast? = some z)
    (hword : isWord z = false) (hblank : isBlank z = false) {i : Nat} (hle : before.length ≤ i)
    (hlt : i < (before ++ piece).length) :
    typeHeader.matchAt? (before ++ piece ++ rest) i = none := by
  rw [List.length_append] at hlt
  have hlen : before.length + piece.length ≤ (before ++ piece ++ rest).length := by simp
  have hlast : (before ++ piece ++ rest)[before.length + piece.length - 1]? = some z := by
    rw [getElem?_piece (by omega) (by omega), ← hz, List.getLast?_eq_getElem?]
    congr 1
    omega
  rw [matchAt?_eq_none_iff, List.eq_nil_iff_forall_not_mem]
  intro o ho
  obtain ⟨j, w, hij, hw, hinitial, hbefore, ⟨b, hb, hbblank⟩, hchars⟩ :=
    exists_keyword_of_mem_outcomes ht (by omega) ho
  have hwword : ∀ c ∈ w, isWord c = true := fun c hc => isWord_of_mem_keyword hw hc
  -- the keyword stands in the piece, before its last character
  have hj : j < before.length + piece.length := by
    by_contra hge
    rcases hchars _ z (by omega : i ≤ before.length + piece.length - 1) (by omega) hlast with h | h
    · exact Bool.false_ne_true (hword.symm.trans h)
    · exact Bool.false_ne_true (hblank.symm.trans h)
  have hwlen : j + w.length < before.length + piece.length := by
    by_contra hge
    obtain ⟨tail, htail⟩ := hinitial
    have hadd : j + (before.length + piece.length - 1 - j) = before.length + piece.length - 1 := by
      omega
    rw [← hadd, ← List.getElem?_drop, ← htail, List.getElem?_append_left (by omega)] at hlast
    exact Bool.false_ne_true (hword.symm.trans (hwword z (List.mem_of_getElem? hlast)))
  have hp : before.length ≤ j := hle.trans hij
  obtain ⟨k, rfl⟩ : ∃ k, j = before.length + k := ⟨j - before.length, by omega⟩
  have hdrop : w <+: piece.drop k := by
    rw [List.append_assoc, ← List.drop_drop, List.drop_left,
      List.drop_append_of_le_length (by omega)] at hinitial
    exact List.prefix_of_prefix_length_le hinitial (List.prefix_append _ _)
      (by rw [List.length_drop]; omega)
  obtain ⟨tail, htail⟩ := hdrop
  have hsplit : piece = piece.take k ++ w ++ tail := by
    rw [List.append_assoc, htail, List.take_append_drop]
  refine hpiece w ?_ hw
  rw [hsplit, wholeWords]
  refine Text.mem_splitAt ?_ ?_ ?_
  · intro c hc
    simp [hwword c hc]
  · intro c hc
    have hprevious : c ∈ ((before ++ piece ++ rest).take (before.length + k)).getLast? := by
      rw [List.append_assoc, List.take_length_add_append, List.take_append_of_le_length (by omega),
        List.getLast?_append, Option.mem_def.1 hc]
      rfl
    simp [hbefore c hprevious]
  · intro c hc
    have hnext : (before ++ piece ++ rest)[before.length + k + w.length]? = some c := by
      rw [getElem?_piece (by omega) (by omega), hsplit]
      have hindex : before.length + k + w.length - before.length = (piece.take k ++ w).length := by
        rw [List.length_append, List.length_take]
        omega
      rw [hindex, List.getElem?_append_right le_rfl, Nat.sub_self, ← List.head?_eq_getElem?]
      exact hc
    obtain rfl : c = b := Option.some.inj (hnext.symm.trans hb)
    simp [isWord_eq_false_of_isBlank hbblank]

/-- No type header starts where no word character follows. -/
theorem typeHeader_matchAt?_eq_none_of_blank {t : Text} (ht : ∀ c ∈ t, isTreeChar c = true)
    {offset i : Nat} (hblank : ∀ c ∈ t.drop offset, isWord c = false) (hle : offset ≤ i)
    (hlen : i ≤ t.length) : typeHeader.matchAt? t i = none := by
  rw [matchAt?_eq_none_iff, List.eq_nil_iff_forall_not_mem]
  intro o ho
  obtain ⟨j, w, hij, hw, ⟨tail, htail⟩, -⟩ := exists_keyword_of_mem_outcomes ht hlen ho
  have hne : typeKeywords.all (fun w => w ≠ []) = true := by decide
  obtain ⟨c, w, rfl⟩ := List.exists_cons_of_ne_nil (of_decide_eq_true (List.all_eq_true.1 hne w hw))
  have hmem : c ∈ t.drop offset := by
    have hadd : offset + (j - offset) = j := by omega
    rw [← hadd, ← List.drop_drop] at htail
    apply List.mem_of_mem_drop
    rw [← htail]
    exact List.mem_cons_self
  have hword := isWord_of_mem_keyword hw List.mem_cons_self
  exact Bool.false_ne_true ((hblank c hmem).symm.trans hword)

/-- No method header starts in a piece without parentheses that ends with what it cannot lead
over. -/
theorem methodHeader_matchAt?_eq_none (ht : ∀ c ∈ before ++ piece ++ rest, isTreeChar c = true)
    (hpiece : '(' ∉ piece) {z : Char} (hz : piece.getLast? = some z) (hword : isWord z = false)
    (hblank : isBlank z = false) (hcomma : z ≠ ',') {i : Nat} (hle : before.length ≤ i)
    (hlt : i < (before ++ piece).length) :
    methodHeader.matchAt? (before ++ piece ++ rest) i = none := by
  rw [List.length_append] at hlt
  have hlen : before.length + piece.length ≤ (before ++ piece ++ rest).length := by simp
  have hlast : (before ++ piece ++ rest)[before.length + piece.length - 1]? = some z := by
    rw [getElem?_piece (by omega) (by omega), ← hz, List.getLast?_eq_getElem?]
    congr 1
    omega
  rw [matchAt?_eq_none_iff, List.eq_nil_iff_forall_not_mem]
  intro o ho
  obtain ⟨-, j, hij, hj, hchars⟩ := exists_parenthesis_of_mem_outcomes ht (by omega) ho
  by_cases hjlt : j < before.length + piece.length
  · rw [getElem?_piece (by omega) hjlt] at hj
    exact hpiece (List.mem_of_getElem? hj)
  · rcases hchars _ z (by omega : i ≤ before.length + piece.length - 1) (by omega) hlast with
      h | h | h
    · exact Bool.false_ne_true (hword.symm.trans h)
    · exact Bool.false_ne_true (hblank.symm.trans h)
    · exact hcomma h

/-- No method header starts where no parenthesis follows. -/
theorem methodHeader_matchAt?_eq_none_of_drop {t : Text} (ht : ∀ c ∈ t, isTreeChar c = true)
    {offset i : Nat} (hparenthesis : '(' ∉ t.drop offset) (hle : offset ≤ i) (hlen : i ≤ t.length) :
    methodHeader.matchAt? t i = none := by
  rw [matchAt?_eq_none_iff, List.eq_nil_iff_forall_not_mem]
  intro o ho
  obtain ⟨-, j, hij, hj, -⟩ := exists_parenthesis_of_mem_outcomes ht hlen ho
  have hadd : offset + (j - offset) = j := by omega
  rw [← hadd, ← List.getElem?_drop] at hj
  exact hparenthesis (List.mem_of_getElem? hj)

/-- No method header starts within a line. -/
theorem methodHeader_matchAt?_eq_none_of_previous (ht : ∀ c ∈ before ++ rest, isTreeChar c = true)
    {z : Char} (hz : before.getLast? = some z) (hline : z ≠ '\n') :
    methodHeader.matchAt? (before ++ rest) before.length = none := by
  rw [matchAt?_eq_none_iff, List.eq_nil_iff_forall_not_mem]
  intro o ho
  obtain ⟨hstart, -⟩ := exists_parenthesis_of_mem_outcomes ht (by simp) ho
  rw [Cursor.inText_append, Cursor.atLineStart, Cursor.between_previous, hz] at hstart
  exact hline (by simpa using hstart)

end

end Java

end Glossator
