import Glossator.Proofs.Text.Join
import Glossator.Python.Docstring

/-!
# Dedented docstrings

A docstring is dedented by steps that are described here one by one: tabs become spaces up to the
next tab stop, the margin is the smallest indentation of the lines behind the first that are not
blank, it is cut off those lines, and the empty lines at both ends are dropped. What holds of the
result follows from this description alone.

* `Python.Dedenting`: the steps.
* `Python.Dedenting.keepsText`: what the steps keep of a text.
* `Python.dedent_steps`: dedenting takes these steps.
-/

set_option autoImplicit false

namespace Glossator.Python

open Text (solid join trimStart IsTrimmed)

/-! ### The steps -/

/-- The character ends a line, as far as columns go. -/
def endsColumn (c : Char) : Bool := c = '\n' || c = '\r'

/-- The column behind a text. -/
def column (t : Text) : Nat := (t.rtakeWhile fun c => !endsColumn c).length

/-- The text with its tabs expanded: in place of each there are as many spaces as lead to the next
column that is a multiple of eight. -/
inductive TabsExpanded : Text → Text → Prop where
  | nil : TabsExpanded [] []
  | tab {t out : Text} {width : Nat} : TabsExpanded t out → 0 < width → width ≤ 8 →
      8 ∣ column out + width → TabsExpanded (t ++ ['\t']) (out ++ List.replicate width ' ')
  | other {t out : Text} {c : Char} : TabsExpanded t out → c ≠ '\t' →
      TabsExpanded (t ++ [c]) (out ++ [c])

/-- The smallest indentation of the lines that are not blank, and zero if all of them are. -/
structure IsMargin (lines : List Text) (margin : Nat) : Prop where
  le : ∀ line ∈ lines, solid line ≠ [] → margin ≤ indentation line
  eq : (∃ line ∈ lines, solid line ≠ [] ∧ indentation line = margin) ∨
    (∀ line ∈ lines, solid line = []) ∧ margin = 0

/-- The steps by which a text is dedented. -/
structure Dedenting (t result : Text) where
  /-- The text with its tabs expanded. -/
  expanded : Text
  first : Text
  later : List Text
  margin : Nat
  /-- The lines of the result. -/
  kept : List Text
  expands : TabsExpanded t expanded
  joins : join ['\n'] (first :: later) = expanded
  unbroken : ∀ line ∈ first :: later, '\n' ∉ line
  isMargin : IsMargin later margin
  trims : IsTrimmed (trimStart first :: later.map (List.drop margin)) kept
  result_eq : result = join ['\n'] kept

/-- What the steps keep of a text. -/
structure Dedenting.KeepsText {t result : Text} (d : Dedenting t result) : Prop where
  no_tab : '\t' ∉ result
  ends : result = [] ∨ ∀ line, line ∈ (Text.splitAt (· = '\n') result).head? ∨
    line ∈ (Text.splitAt (· = '\n') result).getLast? → line ≠ []
  only_blanks : result.Sublist d.expanded ∧ solid result = solid t
  lines : d.kept.filter (solid · ≠ []) =
    (trimStart d.first :: d.later.map (List.drop d.margin)).filter (solid · ≠ [])
  indentation : ∀ line ∈ d.later, solid line ≠ [] →
    indentation line = d.margin + indentation (line.drop d.margin)
  flush : (∃ line ∈ d.later, solid line ≠ []) →
    ∃ line ∈ d.later, solid line ≠ [] ∧ Python.indentation (line.drop d.margin) = 0

/-! ### Tabs -/

variable {t out result : Text} {lines : List Text} {margin : Nat} {c : Char}

theorem TabsExpanded.tab_notMem (h : TabsExpanded t out) : '\t' ∉ out := by
  induction h with
  | nil => exact List.not_mem_nil
  | tab _ _ _ _ ih => simpa [List.mem_replicate] using ih
  | other _ hc ih => simpa using ⟨ih, hc.symm⟩

theorem TabsExpanded.solid_eq (h : TabsExpanded t out) : solid out = solid t := by
  have hspaces (width : Nat) : solid (List.replicate width ' ') = [] := by
    apply Text.solid_eq_nil
    intro c hc
    rw [(List.mem_replicate.1 hc).2]
    decide
  induction h with
  | nil => rfl
  | tab _ _ _ _ ih =>
    rw [Text.solid_append, Text.solid_append, ih, hspaces]
    rfl
  | other _ _ ih => rw [Text.solid_append, Text.solid_append, ih]

theorem column_concat (t : Text) (c : Char) :
    column (t ++ [c]) = if endsColumn c then 0 else column t + 1 := by
  unfold column
  by_cases hc : endsColumn c <;> simp [hc]

theorem column_append_spaces (t : Text) (width : Nat) :
    column (t ++ List.replicate width ' ') = column t + width := by
  induction width with
  | zero => simp
  | succ width ih =>
    rw [List.replicate_succ', ← List.append_assoc, column_concat, ih]
    rfl

/-- What is behind an expanded text is expanded from the column that it ends in. -/
theorem TabsExpanded.append (h : TabsExpanded t out) (rest : Text) :
    TabsExpanded (t ++ rest) (out ++ expandTabs (column out) rest) := by
  induction rest generalizing t out with
  | nil => simpa [expandTabs] using h
  | cons c rest ih =>
    rw [expandTabs]
    split
    · next hc =>
      subst hc
      have hwidth : column out % 8 < 8 := Nat.mod_lt _ (by decide)
      have htab : TabsExpanded (t ++ ['\t'])
          (out ++ List.replicate (tabWidth - column out % tabWidth) ' ') := by
        apply h.tab <;> (simp only [tabWidth]; omega)
      have hstep := ih htab
      rw [column_append_spaces] at hstep
      simpa using hstep
    · next hc =>
      have hstep := ih (h.other hc)
      rw [column_concat, endsColumn] at hstep
      split
      · next hend => simpa [hend] using hstep
      · next hend => simpa [hend] using hstep

/-! ### Margins -/

theorem isEmpty_trimStart_iff {line : Text} :
    (trimStart line).isEmpty = true ↔ solid line = [] := by
  rw [List.isEmpty_iff, trimStart, List.dropWhile_eq_nil_iff, solid, List.filter_eq_nil_iff]
  simp

theorem isMargin_commonIndentation (lines : List Text) :
    IsMargin lines (commonIndentation lines) := by
  have hmem (line : Text) : line ∈ lines.filter (fun l => !(trimStart l).isEmpty) ↔
      line ∈ lines ∧ solid line ≠ [] := by
    rw [List.mem_filter, Bool.not_eq_true', Bool.eq_false_iff, ne_eq, isEmpty_trimStart_iff]
  rw [commonIndentation]
  cases hmin : ((lines.filter fun l => !(trimStart l).isEmpty).map indentation).min? with
  | none =>
    rw [List.min?_eq_none_iff, List.map_eq_nil_iff, List.eq_nil_iff_forall_not_mem] at hmin
    have hblank : ∀ line ∈ lines, solid line = [] := by
      intro line hline
      by_contra hne
      exact hmin line ((hmem line).2 ⟨hline, hne⟩)
    exact ⟨fun line hline hne => absurd (hblank line hline) hne, .inr ⟨hblank, rfl⟩⟩
  | some margin =>
    obtain ⟨hfound, hle⟩ := List.min?_eq_some_iff.1 hmin
    refine ⟨fun line hline hne => ?_, .inl ?_⟩
    · exact hle _ (List.mem_map_of_mem ((hmem line).2 ⟨hline, hne⟩))
    · obtain ⟨line, hline, hmargin⟩ := List.mem_map.1 hfound
      exact ⟨line, ((hmem line).1 hline).1, ((hmem line).1 hline).2, hmargin⟩

/-- Up to its indentation a line is blank. -/
theorem solid_drop {line : Text} (h : solid line = [] ∨ margin ≤ indentation line) :
    solid (line.drop margin) = solid line := by
  have hsplit : solid (line.take margin) ++ solid (line.drop margin) = solid line := by
    rw [← Text.solid_append, List.take_append_drop]
  rcases h with hblank | hle
  · rw [hblank, List.append_eq_nil_iff] at hsplit
    rw [hsplit.2, hblank]
  · have hpre : line.take margin <+: line.takeWhile isBlank :=
      List.prefix_of_prefix_length_le (List.take_prefix _ _) (List.takeWhile_prefix _)
        ((List.length_take_le _ _).trans hle)
    rw [← hsplit, Text.solid_eq_nil fun c hc => List.mem_takeWhile_imp (hpre.mem hc),
      List.nil_append]

theorem indentation_drop {line : Text} (h : margin ≤ indentation line) :
    indentation line = margin + indentation (line.drop margin) := by
  have hsplit : line.takeWhile isBlank =
      line.take margin ++ (line.drop margin).takeWhile isBlank := by
    have hpre : line.take margin <+: line.takeWhile isBlank :=
      List.prefix_of_prefix_length_le (List.take_prefix _ _) (List.takeWhile_prefix _)
        ((List.length_take_le _ _).trans h)
    conv_lhs => rw [← List.take_append_drop margin line]
    rw [List.takeWhile_append_of_pos fun c hc => List.mem_takeWhile_imp (hpre.mem hc)]
  have hlength : (line.take margin).length = margin := by
    have := (List.takeWhile_prefix (l := line) isBlank).length_le
    rw [List.length_take]
    exact Nat.min_eq_left (h.trans this)
  rw [indentation, hsplit, List.length_append, hlength]
  rfl

/-! ### The result -/

namespace Dedenting

variable (d : Dedenting t result)

theorem solid_drop_margin {line : Text} (hline : line ∈ d.later) :
    solid (line.drop d.margin) = solid line := by
  by_cases hblank : solid line = []
  · exact solid_drop (.inl hblank)
  · exact solid_drop (.inr (d.isMargin.le line hline hblank))

theorem unbroken_kept : ∀ line ∈ d.kept, '\n' ∉ line := by
  obtain ⟨hfirst, hlater⟩ := List.forall_mem_cons.1 d.unbroken
  intro line hline hmem
  rcases List.mem_cons.1 (d.trims.sublist.subset hline) with rfl | hline
  · exact hfirst ((List.dropWhile_sublist _).subset hmem)
  · obtain ⟨whole, hwhole, rfl⟩ := List.mem_map.1 hline
    exact hlater whole hwhole (List.mem_of_mem_drop hmem)

/-- Characters are only taken out. -/
theorem result_sublist : result.Sublist d.expanded := by
  have hkept : (join ['\n'] d.kept).Sublist
      (join ['\n'] (trimStart d.first :: d.later.map (List.drop d.margin))) :=
    Text.join_sublist _ (List.sublistForall₂_iff.2
      ⟨d.kept, List.forall₂_same.2 fun line _ => List.Sublist.refl line, d.trims.sublist⟩)
  have hcut : (join ['\n'] (trimStart d.first :: d.later.map (List.drop d.margin))).Sublist
      (join ['\n'] (d.first :: d.later)) := by
    refine Text.join_sublist _ (List.SublistForall₂.cons (List.dropWhile_sublist _) ?_)
    refine List.sublistForall₂_iff.2 ⟨d.later, ?_, List.Sublist.refl _⟩
    rw [List.forall₂_map_left_iff]
    exact List.forall₂_same.2 fun line _ => List.drop_sublist _ _
  have hsublist := hkept.trans hcut
  rwa [← d.result_eq, d.joins] at hsublist

/-- The characters that are taken out are blank. -/
theorem solid_result (d : Dedenting t result) : solid result = solid t := by
  obtain ⟨above, below, hempty, hlines⟩ := d.trims.parts
  have hends : above.flatMap solid = [] ∧ below.flatMap solid = [] := by
    simp only [List.flatMap_eq_nil_iff]
    exact ⟨fun line h => by rw [hempty line (List.mem_append_left _ h)]; rfl,
      fun line h => by rw [hempty line (List.mem_append_right _ h)]; rfl⟩
  have hlater : (d.later.map (List.drop d.margin)).flatMap solid = d.later.flatMap solid := by
    rw [List.flatMap_map]
    exact List.flatMap_congr fun line hline => d.solid_drop_margin hline
  have hkept : d.kept.flatMap solid = (d.first :: d.later).flatMap solid := by
    have hall := congrArg (List.flatMap solid) hlines
    rw [List.flatMap_append, List.flatMap_append, hends.1, hends.2, List.nil_append,
      List.append_nil, List.flatMap_cons, Text.solid_trimStart, hlater] at hall
    rw [← hall, List.flatMap_cons]
  have hnewline : solid ['\n'] = [] := rfl
  rw [d.result_eq, Text.solid_join hnewline, hkept, ← Text.solid_join hnewline, d.joins,
    d.expands.solid_eq]

/-- Dedenting loses no text: it takes out blanks only, and the lines keep their indentation against
each other. -/
theorem keepsText : d.KeepsText where
  no_tab h := d.expands.tab_notMem (d.result_sublist.subset h)
  ends := by
    by_cases hnil : d.kept = []
    · left
      rw [d.result_eq, hnil, Text.join_nil]
    · right
      intro line hline
      rw [d.result_eq, Text.splitAt_join hnil d.unbroken_kept] at hline
      exact hline.elim (d.trims.head line) (d.trims.last line)
  only_blanks := ⟨d.result_sublist, d.solid_result⟩
  lines := d.trims.filter_eq (by simp [solid])
  indentation line hline hsolid := indentation_drop (d.isMargin.le line hline hsolid)
  flush := by
    rintro ⟨line, hline, hsolid⟩
    rcases d.isMargin.eq with ⟨flush, hflush, hsolid, heq⟩ | ⟨hblank, -⟩
    · refine ⟨flush, hflush, hsolid, ?_⟩
      have := indentation_drop (d.isMargin.le flush hflush hsolid)
      omega
    · exact absurd (hblank line hline) hsolid

end Dedenting

/-- Dedenting a text takes the steps described, and so it keeps the text. -/
theorem dedent_steps (t : Text) : ∃ d : Dedenting t (dedent t), d.KeepsText := by
  have hexpands : TabsExpanded t (expandTabs 0 t) := TabsExpanded.nil.append t
  obtain ⟨first, later, hlines⟩ :=
    List.exists_cons_of_ne_nil (Text.splitAt_ne_nil (· = '\n') (expandTabs 0 t))
  have hunbroken : ∀ line ∈ first :: later, '\n' ∉ line := by
    intro line hline hmem
    rw [← hlines] at hline
    simpa using Text.eq_false_of_mem_splitAt hline _ hmem
  refine ⟨⟨expandTabs 0 t, first, later, commonIndentation later, _, hexpands, ?_, hunbroken,
    isMargin_commonIndentation later, Text.isTrimmed_dropWhile_rdropWhile _, ?_⟩,
    Dedenting.keepsText _⟩
  · rw [← hlines, Text.join_splitAt]
  · rw [dedent, hlines]
    rfl

end Glossator.Python
