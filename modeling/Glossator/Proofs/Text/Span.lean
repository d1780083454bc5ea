import Mathlib
import Glossator.Text.Basic

/-!
# Pieces of texts

What a span of a text covers: the text that stands there, character by character.
-/

set_option autoImplicit false

namespace Glossator

/-- What a span covers that a piece of the text takes up. -/
theorem Span.slice_eq {before piece t : Text} (h : before ++ piece <+: t) :
    Span.slice ⟨before.length, (before ++ piece).length⟩ t = piece := by
  obtain ⟨rest, rfl⟩ := h
  rw [slice, List.append_assoc, List.drop_left, List.length_append, Nat.add_sub_cancel_left,
    List.take_left]

theorem Span.mem_slice {span : Span} {t : Text} {i : Nat} {c : Char} (h : span.contains i = true)
    (hc : t[i]? = some c) : c ∈ span.slice t := by
  rw [contains_iff] at h
  have hsub : i - span.start < span.stop - span.start := by omega
  have hadd : span.start + (i - span.start) = i := by omega
  rw [Span.slice, List.mem_iff_getElem?]
  exact ⟨i - span.start, by rw [List.getElem?_take, if_pos hsub, List.getElem?_drop, hadd, hc]⟩

theorem Span.slice_isInfix {inner outer : Span} (hstart : outer.start ≤ inner.start)
    (hstop : inner.stop ≤ outer.stop) (t : Text) : inner.slice t <:+: outer.slice t := by
  have hinner : inner.slice t =
      ((outer.slice t).drop (inner.start - outer.start)).take (inner.stop - inner.start) := by
    have hadd : outer.start + (inner.start - outer.start) = inner.start := by omega
    have hmin : min (inner.stop - inner.start)
        (outer.stop - outer.start - (inner.start - outer.start)) = inner.stop - inner.start := by
      omega
    rw [Span.slice, Span.slice, List.drop_take, List.drop_drop, List.take_take, hadd, hmin]
  rw [hinner]
  exact (List.take_prefix _ _).isInfix.trans (List.drop_suffix _ _).isInfix

theorem Span.getElem?_slice {span : Span} {t : Text} {i : Nat} (h : i < span.stop - span.start) :
    (span.slice t)[i]? = t[span.start + i]? := by
  rw [slice, List.getElem?_take, if_pos h, List.getElem?_drop]

theorem Span.head?_slice {i j : Nat} (h : i < j) (t : Text) :
    (Span.slice ⟨i, j⟩ t).head? = t[i]? := by
  rw [slice, List.head?_take, if_neg (Nat.sub_ne_zero_of_lt h), List.head?_drop]

/-- A text around the piece that a span of it covers. -/
theorem Span.eq_append_slice {i j : Nat} (t : Text) (hle : i ≤ j) :
    t = t.take i ++ Span.slice ⟨i, j⟩ t ++ t.drop j := by
  rw [slice, ← List.take_add, Nat.add_sub_cancel' hle, List.take_append_drop]

end Glossator
