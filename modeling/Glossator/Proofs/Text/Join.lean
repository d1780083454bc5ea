import Glossator.Proofs.Text.Lines
import Glossator.Proofs.Text.Split
import Glossator.Proofs.Text.Trim

/-!
# Putting lines together

Joining is the inverse of splitting: a text is its pieces joined by the separator, and lines without
the separator are the pieces of what they are joined to. Leaving out lines, or characters of lines,
leaves out characters of the text.

* `Text.join_splitAt`, `Text.splitAt_join`: joining and splitting.
* `Text.join_sublist`: joining less gives less.
* `Text.IsTrimmed`: lines without the empty ones at both ends.
-/

set_option autoImplicit false

namespace Glossator.Text

variable {a : Text} {l l' lines kept : List Text}

@[simp] theorem join_nil (separator : Text) : join separator [] = [] := rfl

/-- All pieces but the first stand behind a separator. -/
theorem join_cons (separator a : Text) (l : List Text) :
    join separator (a :: l) = a ++ l.flatMap (separator ++ ·) := by
  unfold join
  induction l generalizing a with
  | nil => simp
  | cons b l ih =>
    rw [List.intersperse_cons_cons, List.flatten_cons, List.flatten_cons, ih b, List.flatMap_cons,
      List.append_assoc]

/-! ### Joining and splitting -/

theorem splitAt_ne_nil (p : Char → Bool) (t : Text) : splitAt p t ≠ [] := by
  cases t with
  | nil => simp [splitAt]
  | cons c t =>
    rw [splitAt]
    split
    · simp
    · split <;> simp

/-- A text is the pieces that it is split into, joined again. -/
theorem join_splitAt (separator : Char) (t : Text) :
    join [separator] (splitAt (· = separator) t) = t := by
  induction t with
  | nil => rfl
  | cons c t ih =>
    rw [splitAt]
    by_cases hc : c = separator
    · obtain ⟨piece, pieces, hpieces⟩ :=
        List.exists_cons_of_ne_nil (splitAt_ne_nil (· = separator) t)
      rw [hpieces, join_cons] at ih
      rw [if_pos (by simpa using hc), hpieces, join_cons, List.flatMap_cons, List.append_assoc, ih,
        hc]
      rfl
    · rw [if_neg (by simpa using hc)]
      cases hpieces : splitAt (· = separator) t with
      | nil => exact absurd hpieces (splitAt_ne_nil _ t)
      | cons piece pieces =>
        rw [hpieces, join_cons] at ih
        rw [join_cons, List.cons_append, ih]

theorem eq_false_of_mem_splitAt {p : Char → Bool} {t piece : Text} (h : piece ∈ splitAt p t) :
    ∀ c ∈ piece, p c = false := by
  induction t generalizing piece with
  | nil => simp_all [splitAt]
  | cons c t ih =>
    rw [splitAt] at h
    split at h
    · rcases List.mem_cons.1 h with rfl | h
      · simp
      · exact ih h
    · next hc =>
      split at h
      · next hnil => exact absurd hnil (splitAt_ne_nil p t)
      · next first pieces hpieces =>
        rw [hpieces] at ih
        rcases List.mem_cons.1 h with rfl | h
        · simpa [hc] using ih List.mem_cons_self
        · exact ih (List.mem_cons_of_mem _ h)

/-- Lines in which the separator does not occur are split again where they were joined. -/
theorem splitAt_join {separator : Char} (hne : lines ≠ [])
    (h : ∀ line ∈ lines, separator ∉ line) :
    splitAt (· = separator) (join [separator] lines) = lines := by
  induction lines with
  | nil => exact absurd rfl hne
  | cons a l ih =>
    obtain ⟨ha, hl⟩ := List.forall_mem_cons.1 h
    have hplain : ∀ c ∈ a, decide (c = separator) = false := by
      intro c hc
      rw [decide_eq_false_iff_not]
      rintro rfl
      exact ha hc
    cases l with
    | nil => rw [join_cons, List.flatMap_nil, List.append_nil, splitAt_eq_singleton hplain]
    | cons b l =>
      have hjoin : join [separator] (a :: b :: l) =
          a ++ separator :: join [separator] (b :: l) := by
        rw [join_cons, join_cons, List.flatMap_cons, List.append_assoc]
        rfl
      rw [hjoin, splitAt_append_cons (by simp), splitAt_eq_singleton hplain,
        ih (List.cons_ne_nil b l) hl, List.singleton_append]

/-! ### Lines and pieces -/

/-- The line end that a line carries is blank. -/
theorem trim_withoutLineEnd (line : Text) : trim (withoutLineEnd line) = trim line := by
  obtain ⟨gap, hgap, hline⟩ : ∃ gap, (∀ c ∈ gap, isBlank c = true) ∧
      line = withoutLineEnd line ++ gap := by
    rw [withoutLineEnd]
    split
    · next rest hrest =>
      exact ⟨['\r', '\n'], by simpa using ⟨rfl, rfl⟩, by simpa using congrArg List.reverse hrest⟩
    · next rest _ hrest =>
      exact ⟨['\n'], List.forall_mem_singleton.2 rfl, by simpa using congrArg List.reverse hrest⟩
    · exact ⟨[], by simp, by simp⟩
  conv_rhs => rw [hline, trim_append_blanks hgap]

theorem splitAt_newline_eq_singleton {line : Text} (h : '\n' ∉ line) :
    splitAt (· = '\n') line = [line] := by
  apply splitAt_eq_singleton
  intro c hc
  rw [decide_eq_false_iff_not]
  rintro rfl
  exact h hc

/-- Trimmed, the lines of a text are its pieces between line ends, but for empty ones at the end. -/
theorem exists_map_trim_splitAt (t : Text) : ∃ more, (∀ line ∈ more, line = []) ∧
    (splitAt (· = '\n') t).map trim = t.lines.map trim ++ more := by
  have hlines (ended : List Text) (h : AreLines ended) : ∃ more, (∀ line ∈ more, line = []) ∧
      (splitAt (· = '\n') ended.flatten).map trim =
        (ended.map withoutLineEnd).map trim ++ more := by
    induction h with
    | nil => exact ⟨[[]], by simp, rfl⟩
    | @unended line _ hline =>
      refine ⟨[], by simp, ?_⟩
      rw [List.flatten_singleton, splitAt_newline_eq_singleton hline, List.append_nil,
        List.map_singleton, List.map_singleton, List.map_singleton, trim_withoutLineEnd]
    | @ended line lines hline _ ih =>
      obtain ⟨more, hmore, heq⟩ := ih
      refine ⟨more, hmore, ?_⟩
      rw [List.flatten_cons, List.append_assoc, List.singleton_append,
        splitAt_append_cons (by rfl), List.map_append, heq, splitAt_newline_eq_singleton hline,
        List.map_cons, List.map_cons, List.map_cons, trim_withoutLineEnd,
        trim_append_blanks (List.forall_mem_singleton.2 rfl)]
      rfl
  simpa [flatten_linesWithEnds, lines] using hlines _ (areLines_linesWithEnds t)

/-! ### Joining less -/

/-- The characters of the lines that are not blank are those of the text. -/
theorem solid_join {separator : Text} (h : solid separator = []) (lines : List Text) :
    solid (join separator lines) = lines.flatMap solid := by
  cases lines with
  | nil => rfl
  | cons a l =>
    rw [join_cons, solid_append, List.flatMap_cons]
    congr 1
    induction l with
    | nil => rfl
    | cons b l ih => rw [List.flatMap_cons, solid_append, solid_append, h, ih]; rfl

theorem flatMap_sublist (separator : Text) (h : List.SublistForall₂ List.Sublist l l') :
    (l.flatMap (separator ++ ·)).Sublist (l'.flatMap (separator ++ ·)) := by
  induction h with
  | nil => exact List.nil_sublist _
  | cons hab _ ih => exact ((List.Sublist.refl separator).append hab).append ih
  | cons_right _ ih => exact ih.trans (List.sublist_append_right _ _)

theorem join_sublist_flatMap (separator : Text) (l : List Text) :
    (join separator l).Sublist (l.flatMap (separator ++ ·)) := by
  cases l with
  | nil => exact List.nil_sublist _
  | cons a l =>
    rw [join_cons, List.flatMap_cons, List.append_assoc]
    exact List.sublist_append_right _ _

/-- Leaving out lines, or characters of lines, leaves out characters of the text. -/
theorem join_sublist (separator : Text) (h : List.SublistForall₂ List.Sublist l l') :
    (join separator l).Sublist (join separator l') := by
  induction h with
  | nil => exact List.nil_sublist _
  | cons hab h _ =>
    rw [join_cons, join_cons]
    exact hab.append (flatMap_sublist separator h)
  | @cons_right b l l' _ ih =>
    rw [join_cons]
    exact (ih.trans (join_sublist_flatMap separator l')).trans (List.sublist_append_right _ _)

/-! ### Empty lines at both ends -/

/-- What is left of lines without the empty ones at both ends. -/
structure IsTrimmed (lines kept : List Text) : Prop where
  parts : ∃ above below, (∀ line ∈ above ++ below, line = []) ∧ lines = above ++ (kept ++ below)
  head : ∀ line ∈ kept.head?, line ≠ []
  last : ∀ line ∈ kept.getLast?, line ≠ []

theorem eq_nil_of_mem_takeWhile {line : Text} (h : line ∈ lines.takeWhile List.isEmpty) :
    line = [] := by
  simpa using List.mem_takeWhile_imp h

theorem eq_nil_of_mem_rtakeWhile {line : Text} (h : line ∈ lines.rtakeWhile List.isEmpty) :
    line = [] := by
  simpa using List.mem_rtakeWhile_imp h

theorem ne_nil_of_mem_head?_dropWhile {line : Text}
    (h : line ∈ (lines.dropWhile List.isEmpty).head?) : line ≠ [] := by
  have hhead := List.head?_dropWhile_not List.isEmpty lines
  rw [h] at hhead
  simpa using hhead

theorem ne_nil_of_mem_getLast?_rdropWhile {line : Text}
    (h : line ∈ (lines.rdropWhile List.isEmpty).getLast?) : line ≠ [] := by
  rw [List.rdropWhile, List.getLast?_reverse] at h
  exact ne_nil_of_mem_head?_dropWhile h

/-- The empty lines at the end are left out first. -/
theorem isTrimmed_dropWhile_rdropWhile (lines : List Text) :
    IsTrimmed lines ((lines.rdropWhile List.isEmpty).dropWhile List.isEmpty) := by
  refine ⟨⟨(lines.rdropWhile List.isEmpty).takeWhile List.isEmpty,
    lines.rtakeWhile List.isEmpty, ?_, ?_⟩, fun _ => ne_nil_of_mem_head?_dropWhile, ?_⟩
  · intro line hline
    rcases List.mem_append.1 hline with h | h
    · exact eq_nil_of_mem_takeWhile h
    · exact eq_nil_of_mem_rtakeWhile h
  · rw [← List.append_assoc, List.takeWhile_append_dropWhile, List.rdropWhile_append_rtakeWhile]
  · intro line hline
    have hlast : line ∈ (lines.rdropWhile List.isEmpty).getLast? := by
      rw [← List.takeWhile_append_dropWhile (p := List.isEmpty)
        (l := lines.rdropWhile List.isEmpty)]
      exact List.mem_getLast?_append_of_mem_getLast? hline
    exact ne_nil_of_mem_getLast?_rdropWhile hlast

/-- The empty lines at the start are left out first. -/
theorem isTrimmed_rdropWhile_dropWhile (lines : List Text) :
    IsTrimmed lines ((lines.dropWhile List.isEmpty).rdropWhile List.isEmpty) := by
  refine ⟨⟨lines.takeWhile List.isEmpty, (lines.dropWhile List.isEmpty).rtakeWhile List.isEmpty,
    ?_, ?_⟩, ?_, fun _ => ne_nil_of_mem_getLast?_rdropWhile⟩
  · intro line hline
    rcases List.mem_append.1 hline with h | h
    · exact eq_nil_of_mem_takeWhile h
    · exact eq_nil_of_mem_rtakeWhile h
  · rw [List.rdropWhile_append_rtakeWhile, List.takeWhile_append_dropWhile]
  · intro line hline
    have hhead : line ∈ (lines.dropWhile List.isEmpty).head? := by
      rw [← List.rdropWhile_append_rtakeWhile (p := List.isEmpty)
        (l := lines.dropWhile List.isEmpty), List.head?_append, hline]
      rfl
    exact ne_nil_of_mem_head?_dropWhile hhead

namespace IsTrimmed

theorem sublist (h : IsTrimmed lines kept) : kept.Sublist lines := by
  obtain ⟨above, below, -, rfl⟩ := h.parts
  exact (List.sublist_append_left _ _).trans (List.sublist_append_right _ _)

/-- The lines that are not empty are all kept, in order. -/
theorem filter_eq (h : IsTrimmed lines kept) {p : Text → Bool} (hp : p [] = false) :
    kept.filter p = lines.filter p := by
  obtain ⟨above, below, hempty, rfl⟩ := h.parts
  have hnone : ∀ l : List Text, (∀ line ∈ l, line = []) → l.filter p = [] := by
    intro l hl
    rw [List.filter_eq_nil_iff]
    intro line hline
    simp [hl line hline, hp]
  rw [List.filter_append, List.filter_append, hnone above fun line h => hempty line (by simp [h]),
    hnone below fun line h => hempty line (by simp [h]), List.nil_append, List.append_nil]

theorem eq_nil_iff (h : IsTrimmed lines kept) : kept = [] ↔ ∀ line ∈ lines, line = [] := by
  obtain ⟨above, below, hempty, rfl⟩ := h.parts
  constructor
  · rintro rfl
    simpa using hempty
  · intro hall
    by_contra hne
    obtain ⟨line, rest, rfl⟩ := List.exists_cons_of_ne_nil hne
    exact h.head line rfl (hall line (by simp))

end IsTrimmed

end Glossator.Text
