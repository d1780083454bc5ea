import Glossator.Proofs.Text.Lines
import Glossator.Proofs.Text.Span

/-!
# Cutting lines out of a text

When some of the lines of a text are cut out, what remains are a stretch before them and a stretch
behind them. A piece of the text remains whole if none of it is on a line that is cut out, and the
pieces that remain stay in order.

* `Text.lineStart_le_iff`: where lines start.
* `Remainder.keeps_aroundLines_iff`: the pieces that remain.
* `Remainder.occurInOrder`: their order.
-/

set_option autoImplicit false

namespace Glossator

namespace Text

variable {t : Text} {i j : Nat}

/-! ### Where lines start -/

/-- The offset behind so many lines. -/
def lineStart (t : Text) (i : Nat) : Nat := (t.linesWithEnds.take i).flatten.length

theorem AreLines.length_take_le_iff {lines : List Text} (h : AreLines lines) {i offset : Nat}
    (hoffset : offset < lines.flatten.length) :
    (lines.take i).flatten.length ≤ offset ↔ i < lineAt lines.flatten offset := by
  induction h generalizing i offset with
  | nil => cases hoffset
  | @unended line _ hline =>
    have hfirst : lineAt line offset = 1 := by
      rw [lineAt, List.count_eq_zero_of_not_mem fun h => hline (List.mem_of_mem_take h)]
    simp only [List.flatten_singleton] at hoffset ⊢
    rw [hfirst]
    cases i with
    | zero => simp
    | succ i => simp [hoffset]
  | @ended line lines hline _ ih =>
    cases i with
    | zero => simp [lineAt]
    | succ i =>
      rw [List.take_succ_cons, List.flatten_cons, List.flatten_cons, List.length_append]
      rw [List.flatten_cons, List.length_append] at hoffset
      set first := line ++ ['\n'] with hfirst
      by_cases hle : first.length ≤ offset
      · -- the offset is on a later line
        have hlater : lineAt (first ++ lines.flatten) offset =
            lineAt lines.flatten (offset - first.length) + 1 := by
          rw [lineAt, List.take_append, List.take_of_length_le hle, List.count_append, hfirst,
            List.count_append, List.count_eq_zero_of_not_mem hline, lineAt]
          simp only [List.count_singleton_self]
          omega
        have hih := ih (i := i) (show offset - first.length < lines.flatten.length by omega)
        rw [hlater]
        omega
      · have hnone : '\n' ∉ (first ++ lines.flatten).take offset := by
          have hlength : offset ≤ line.length := by
            rw [hfirst, List.length_append, List.length_singleton] at hle
            omega
          rw [hfirst, List.append_assoc, List.take_append_of_le_length hlength]
          exact fun h => hline (List.mem_of_mem_take h)
        rw [lineAt, List.count_eq_zero_of_not_mem hnone]
        omega

/-- A character stands behind so many lines if its line is a later one. -/
theorem lineStart_le_iff {offset : Nat} (h : offset < t.length) :
    lineStart t i ≤ offset ↔ i < lineAt t offset := by
  rw [← flatten_linesWithEnds t] at h
  have hiff := (areLines_linesWithEnds t).length_take_le_iff (i := i) h
  rwa [flatten_linesWithEnds] at hiff

theorem lineStart_mono (hle : i ≤ j) : lineStart t i ≤ lineStart t j := by
  have hsub : List.Sublist (t.linesWithEnds.take i).flatten (t.linesWithEnds.take j).flatten :=
    (List.take_sublist_take_left hle).flatten
  exact hsub.length_le

/-- Consecutive lines are the part of the text from where the first starts to behind the last. -/
theorem flatten_stretch (hij : i ≤ j) :
    (stretch t.linesWithEnds i j).flatten = Span.slice ⟨lineStart t i, lineStart t j⟩ t := by
  have hsplit : (t.linesWithEnds.take i).flatten ++ (stretch t.linesWithEnds i j).flatten =
      (t.linesWithEnds.take j).flatten := by
    conv_lhs => rw [← Nat.min_eq_left hij, ← List.take_take, Nat.min_eq_left hij]
    rw [← List.flatten_append, stretch, List.take_append_drop]
  have hprefix : (t.linesWithEnds.take j).flatten <+: t := by
    conv_rhs => rw [← flatten_linesWithEnds t]
    exact (List.take_prefix j _).flatten
  rw [← hsplit] at hprefix
  rw [lineStart, lineStart, ← hsplit, Span.slice_eq hprefix]

/-! ### Pieces in order -/

/-- The pieces occur in the text, each behind the one before. -/
inductive OccurInOrder : List Text → Text → Prop where
  | nil {t : Text} : OccurInOrder [] t
  | cons {rest : Text} {pieces : List Text} (skipped piece : Text) :
      OccurInOrder pieces rest → OccurInOrder (piece :: pieces) (skipped ++ piece ++ rest)

end Text

/-- A part of a text is what it holds before a piece, the piece, and what it holds behind. -/
theorem Span.slice_eq_append (t : Text) {outer inner : Span} (hstart : outer.start ≤ inner.start)
    (hle : inner.start ≤ inner.stop) (hstop : inner.stop ≤ outer.stop) :
    outer.slice t = Span.slice ⟨outer.start, inner.start⟩ t ++ inner.slice t ++
      Span.slice ⟨inner.stop, outer.stop⟩ t := by
  have hbefore : outer.start + (inner.start - outer.start) = inner.start := by omega
  have hpiece : outer.start + (inner.stop - outer.start) = inner.stop := by omega
  have hfirst : Span.slice ⟨outer.start, inner.stop⟩ t =
      Span.slice ⟨outer.start, inner.start⟩ t ++ inner.slice t := by
    have hsum : inner.stop - outer.start =
        (inner.start - outer.start) + (inner.stop - inner.start) := by omega
    rw [slice, slice, slice, hsum, List.take_add, List.drop_drop, hbefore]
  have hsum : outer.stop - outer.start =
      (inner.stop - outer.start) + (outer.stop - inner.stop) := by omega
  rw [← hfirst, slice, slice, slice, hsum, List.take_add, List.drop_drop, hpiece]

open Text (lineAt lineStart OccurInOrder)

/-- What remains of a text when something is cut out: a stretch before it and a stretch behind. -/
structure Remainder where
  head : Span
  tail : Span

namespace Remainder

/-- The text that remains. -/
def text (r : Remainder) (t : Text) : Text := r.head.slice t ++ r.tail.slice t

/-- A piece of the text remains. -/
def keeps (r : Remainder) (piece : Span) : Bool :=
  r.head.start ≤ piece.start && piece.stop ≤ r.head.stop ||
    r.tail.start ≤ piece.start && piece.stop ≤ r.tail.stop

theorem keeps_iff {r : Remainder} {piece : Span} : r.keeps piece = true ↔
    r.head.start ≤ piece.start ∧ piece.stop ≤ r.head.stop ∨
      r.tail.start ≤ piece.start ∧ piece.stop ≤ r.tail.stop := by
  simp [keeps]

/-- What remains of some consecutive lines when lines in between are cut out. -/
def aroundLines (t : Text) (first cut next last : Nat) : Remainder :=
  ⟨⟨lineStart t first, lineStart t cut⟩, ⟨lineStart t next, lineStart t last⟩⟩

section Lines

variable {t : Text} {first cut next last : Nat}

theorem text_aroundLines (hcut : first ≤ cut) (hlast : next ≤ last) :
    (aroundLines t first cut next last).text t =
      (Text.stretch t.linesWithEnds first cut ++
        Text.stretch t.linesWithEnds next last).flatten := by
  rw [List.flatten_append, Text.flatten_stretch hcut, Text.flatten_stretch hlast]
  rfl

/-- A piece on the consecutive lines remains if it ends before the lines that are cut out or starts
behind them. -/
theorem keeps_aroundLines_iff {piece : Span} (hlt : piece.start < piece.stop)
    (hle : piece.stop ≤ t.length) (hfirst : first < lineAt t piece.start)
    (hlast : lineAt t (piece.stop - 1) ≤ last) :
    (aroundLines t first cut next last).keeps piece = true ↔
      lineAt t (piece.stop - 1) ≤ cut ∨ next < lineAt t piece.start := by
  have hstart (i : Nat) : lineStart t i ≤ piece.start ↔ i < lineAt t piece.start :=
    Text.lineStart_le_iff (hlt.trans_le hle)
  have hstop (i : Nat) : piece.stop ≤ lineStart t i ↔ lineAt t (piece.stop - 1) ≤ i := by
    have hiff := Text.lineStart_le_iff (i := i) (show piece.stop - 1 < t.length by omega)
    omega
  rw [keeps_iff]
  simp only [aroundLines, hstart, hstop, hfirst, hlast, true_and, and_true]

end Lines

/-- The pieces that remain occur in the text that remains, in their order. -/
theorem occurInOrder {t : Text} {pieces : List Span} {r : Remainder}
    (hapart : r.head.stop ≤ r.tail.start)
    (hlt : ∀ piece ∈ pieces, piece.start < piece.stop)
    (hordered : pieces.Pairwise fun a b => a.stop ≤ b.start)
    (hkeeps : ∀ piece ∈ pieces, r.keeps piece = true) :
    OccurInOrder (pieces.map (Span.slice · t)) (r.text t) := by
  induction pieces generalizing r with
  | nil => exact .nil
  | cons piece pieces ih =>
    obtain ⟨hbehind, hordered⟩ := List.pairwise_cons.1 hordered
    have hpiece := hlt piece List.mem_cons_self
    have hlt' : ∀ p ∈ pieces, p.start < p.stop := fun p hp => hlt p (List.mem_cons_of_mem piece hp)
    have hkeeps' (p : Span) (hp : p ∈ pieces) :=
      keeps_iff.1 (hkeeps p (List.mem_cons_of_mem piece hp))
    rcases keeps_iff.1 (hkeeps piece List.mem_cons_self) with ⟨hstart, hstop⟩ | ⟨hstart, hstop⟩
    · -- the pieces behind one in the head are in the rest of the head or in the tail
      have hrest := ih (r := ⟨⟨piece.stop, r.head.stop⟩, r.tail⟩) hapart hlt' hordered (by
        intro p hp
        have hle := hbehind p hp
        have hor := hkeeps' p hp
        rw [keeps_iff]
        simp only
        omega)
      have hhead := Span.slice_eq_append t hstart hpiece.le hstop
      have hcons := OccurInOrder.cons
        (Span.slice ⟨r.head.start, piece.start⟩ t) (piece.slice t) hrest
      simpa [text, hhead] using hcons
    · -- those behind one in the tail are in the rest of the tail
      have hrest := ih (r := ⟨⟨r.head.stop, r.head.stop⟩, ⟨piece.stop, r.tail.stop⟩⟩)
        (by simp only; omega) hlt' hordered (by
        intro p hp
        have hle := hbehind p hp
        have hor := hkeeps' p hp
        have hne := hlt' p hp
        rw [keeps_iff]
        simp only
        omega)
      have htail := Span.slice_eq_append t hstart hpiece.le hstop
      have hnil : Span.slice ⟨r.head.stop, r.head.stop⟩ t = [] := by simp [Span.slice]
      have hcons := OccurInOrder.cons
        (r.head.slice t ++ Span.slice ⟨r.tail.start, piece.start⟩ t) (piece.slice t) hrest
      simpa [text, htail, hnil] using hcons

end Remainder

end Glossator
