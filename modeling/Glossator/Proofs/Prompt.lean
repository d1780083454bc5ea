import Glossator.Parsing
import Glossator.Proofs.Pattern.Search
import Glossator.Proofs.Text.Lines
import Glossator.Proofs.Text.Trim

/-!
# How a prompt is cut

A prompt is cut where the first line starts that matches the anchor pattern. The prose above and the
code from there on make up the prompt, and trimming them loses nothing but blanks.

* `Prompt.occursIn_anchor`: a line looks like code exactly if it matches the anchor pattern.
* `Prompt.cut_at_first_anchor`: where a prompt is cut, and what its record says.
-/

set_option autoImplicit false

namespace Glossator.Prompt

open Pattern

/-! ### The anchor pattern -/

/-- The character ends a statement, or stands around a block of them. -/
def isMark (c : Char) : Bool := c == '{' || c == '}' || c == ';'

/-- Any characters of a line. -/
def inLine : Pattern Empty := many (· ≠ '\n')

/-- A pattern anywhere in what is left of a line. -/
def ahead (p : Pattern Empty) : Pattern Empty := inLine ++ p ++ inLine

/-- What the line is made of that the code of a prompt starts with. -/
def anchor : Pattern Empty :=
  lineStart ++ blanks ++
    (text "@" ||| (anyText openingWords ++ one isBlank) ||| ahead (one isMark) |||
      ahead (text "->") ||| ahead (text "=>"))

variable {o : Outcome Empty} {line t : Text}

theorem mem_ahead {p : Pattern Empty} : (∃ o', o' ∈ (ahead p).outcomes o) ↔
    ∃ before, (∀ c ∈ before, c ≠ '\n') ∧ before <+: o.cursor.rest ∧
      ∃ o', o' ∈ p.outcomes ⟨o.cursor.behind before, o.parts⟩ := by
  simp only [ahead, inLine, append_eq, mem_outcomes_andThen, mem_outcomes_many, decide_eq_true_eq]
  constructor
  · rintro ⟨-, mid, ⟨-, ⟨before, hbefore, hpre, rfl⟩, hmid⟩, -⟩
    exact ⟨before, hbefore, hpre, mid, hmid⟩
  · rintro ⟨before, hbefore, hpre, mid, hmid⟩
    exact ⟨_, mid, ⟨_, ⟨before, hbefore, hpre, rfl⟩, hmid⟩, [], by simp, List.nil_prefix, rfl⟩

theorem mem_ahead_mark (h : '\n' ∉ o.cursor.rest) :
    (∃ o', o' ∈ (ahead (one isMark)).outcomes o) ↔ ∃ c ∈ o.cursor.rest, isMark c = true := by
  simp only [mem_ahead, mem_outcomes_one, Cursor.behind]
  constructor
  · rintro ⟨before, -, -, -, c, hc, hpre, -⟩
    exact ⟨c, List.mem_of_mem_drop (hpre.mem List.mem_cons_self), hc⟩
  · rintro ⟨c, hmem, hc⟩
    obtain ⟨before, behind, hrest⟩ := List.append_of_mem hmem
    refine ⟨before, ?_, ⟨_, hrest.symm⟩, _, c, hc, ⟨behind, ?_⟩, rfl⟩
    · rintro d hd rfl
      exact h (hrest ▸ List.mem_append_left _ hd)
    · rw [hrest, List.drop_left]
      rfl

theorem mem_ahead_text (h : '\n' ∉ o.cursor.rest) (s : String) :
    (∃ o', o' ∈ (ahead (text s)).outcomes o) ↔ s.toList <:+: o.cursor.rest := by
  simp only [mem_ahead, text, mem_outcomes_fixed, Cursor.behind]
  constructor
  · rintro ⟨before, -, -, -, hpre, -⟩
    exact hpre.isInfix.trans (List.drop_suffix _ _).isInfix
  · rintro ⟨before, behind, hrest⟩
    rw [List.append_assoc] at hrest
    refine ⟨before, ?_, ⟨_, hrest⟩, _, ⟨behind, ?_⟩, rfl⟩
    · rintro d hd rfl
      exact h (hrest ▸ List.mem_append_left _ hd)
    · rw [← hrest, List.drop_left]

theorem mem_opening :
    (∃ o', o' ∈ (anyText openingWords ++ one isBlank : Pattern Empty).outcomes o) ↔
      openingWords.any (startsWithWord o.cursor.rest) = true := by
  simp only [append_eq, mem_outcomes_andThen, mem_outcomes_anyText, mem_outcomes_one,
    List.any_eq_true, Cursor.behind]
  constructor
  · rintro ⟨-, -, ⟨w, hw, ⟨behind, hpre⟩, rfl⟩, c, hc, ⟨rest, hrest⟩, -⟩
    rw [← hpre, List.drop_left] at hrest
    refine ⟨w, hw, ?_⟩
    rw [startsWithWord, Text.after?, List.isPrefixOf?_eq_some_iff_append_eq.2 hpre]
    simp only at hrest
    rw [← hrest]
    exact hc
  · rintro ⟨w, hw, hstart⟩
    unfold startsWithWord at hstart
    split at hstart
    · next c rest hafter =>
      have hpre := List.isPrefixOf?_eq_some_iff_append_eq.1 hafter
      refine ⟨_, _, ⟨w, hw, ⟨_, hpre⟩, rfl⟩, c, hstart, ⟨rest, ?_⟩, rfl⟩
      rw [← hpre, List.drop_left]
      rfl
    · cases hstart

/-! ### Lines that look like code -/

theorem hasPair_iff {a b : Char} : hasPair a b t = true ↔ [a, b] <:+: t := by
  fun_induction hasPair a b t with
  | case1 x y rest ih =>
    rw [List.infix_cons_iff, Bool.or_eq_true, ih, List.cons_prefix_cons, List.cons_prefix_cons,
      Bool.and_eq_true, beq_iff_eq, beq_iff_eq, @eq_comm _ a x, @eq_comm _ b y]
    simp
  | case2 t hshort =>
    have hlength : t.length < 2 := by
      match t, hshort with
      | [], _ => simp
      | [_], _ => simp
      | x :: y :: rest, hshort => exact absurd rfl (hshort x y rest)
    simp only [Bool.false_eq_true, false_iff]
    intro hinfix
    have hle := hinfix.length_le
    simp only [List.length_cons, List.length_nil] at hle
    omega

/-- A word that opens a declaration starts with a letter. -/
theorem exists_cons_of_mem_openingWords {w : String} (hw : w ∈ openingWords) :
    ∃ c rest, w.toList = c :: rest ∧ isBlank c = false := by
  simp only [openingWords, List.mem_cons, List.not_mem_nil, or_false] at hw
  rcases hw with rfl | rfl | rfl | rfl | rfl | rfl | rfl
  all_goals exact ⟨_, _, rfl, by decide⟩

/-- What the code of a prompt may start with stands behind the blanks of its line. -/
theorem exists_blanks_iff {P : Text → Prop}
    (hP : ∀ rest, P rest → ∃ c tail, rest = c :: tail ∧ isBlank c = false) :
    (∃ blanks rest, (∀ c ∈ blanks, isBlank c = true) ∧ line = blanks ++ rest ∧ P rest) ↔
      P (Text.trimStart line) := by
  constructor
  · rintro ⟨blanks, rest, hblanks, rfl, hrest⟩
    obtain ⟨c, tail, rfl, hc⟩ := hP rest hrest
    rwa [Text.trimStart_append hblanks hc]
  · intro h
    obtain ⟨blanks, hblanks, hline⟩ := Text.exists_blanks_append_trimStart line
    exact ⟨blanks, _, hblanks, hline, h⟩

/-- A line starts nowhere but at its start. -/
theorem eq_zero_of_atLineStart (hline : '\n' ∉ line) {i : Nat} (hi : i ≤ line.length)
    (hstart : (Cursor.inText line i).atLineStart = true) : i = 0 := by
  by_contra hne
  have htake : line.take i ≠ [] := by
    rw [ne_eq, List.take_eq_nil_iff, not_or]
    refine ⟨hne, ?_⟩
    rintro rfl
    exact hne (Nat.le_zero.1 hi)
  have hlast := List.getLast?_eq_some_getLast htake
  simp only [Cursor.atLineStart, Cursor.inText, hlast, Option.all_some, decide_eq_true_eq] at hstart
  exact hline (List.mem_of_mem_take (hstart ▸ List.getLast_mem htake))

/-- What is read behind the blanks at the start of a line. -/
theorem mem_behind_blanks {p : Pattern Empty} (hline : '\n' ∉ line) :
    (lineStart ++ blanks ++ p).occursIn line = true ↔
      ∃ space rest, (∀ c ∈ space, isBlank c = true) ∧ line = space ++ rest ∧
        ∃ o', o' ∈ p.outcomes ⟨(Cursor.inText line 0).behind space, []⟩ := by
  rw [occursIn, Option.isSome_iff_ne_none, ne_eq, Pattern.find?, Finder.find?_eq_none_iff]
  simp only [matchAt?_eq_none_iff, List.eq_nil_iff_forall_not_mem, append_eq, blanks,
    mem_outcomes_andThen, mem_outcomes_lineStart, mem_outcomes_many, not_forall, not_not]
  constructor
  · rintro ⟨i, -, hi, o', mid, ⟨-, ⟨rfl, hstart⟩, space, hspace, ⟨rest, hrest⟩, rfl⟩, ho'⟩
    obtain rfl := eq_zero_of_atLineStart hline hi hstart
    exact ⟨space, rest, hspace, hrest.symm, o', ho'⟩
  · rintro ⟨space, rest, hspace, rfl, o', ho'⟩
    exact ⟨0, le_rfl, Nat.zero_le _, o', _, ⟨_, ⟨rfl, rfl⟩, space, hspace, ⟨rest, rfl⟩, rfl⟩, ho'⟩

/-- What stands behind the blanks of a line that looks like code. -/
def OpensCode (rest : Text) : Prop :=
  rest.head? = some '@' ∨ openingWords.any (startsWithWord rest) = true

/-- What stands in a line that looks like code. -/
def HoldsCode (rest : Text) : Prop :=
  (∃ c ∈ rest, isMark c = true) ∨ "->".toList <:+: rest ∨ "=>".toList <:+: rest

theorem mem_code {o : Outcome Empty} (h : '\n' ∉ o.cursor.rest) :
    (∃ o', o' ∈ (text "@" ||| (anyText openingWords ++ one isBlank) ||| ahead (one isMark) |||
      ahead (text "->") ||| ahead (text "=>")).outcomes o) ↔
    OpensCode o.cursor.rest ∨ HoldsCode o.cursor.rest := by
  have hat : (∃ o', o' ∈ (text "@" : Pattern Empty).outcomes o) ↔
      o.cursor.rest.head? = some '@' := by
    simp only [text, mem_outcomes_fixed]
    cases o.cursor.rest <;> simp [eq_comm]
  simp only [orOp_eq, mem_outcomes_orElse, exists_or, hat, mem_opening, mem_ahead_mark h,
    mem_ahead_text h, OpensCode, HoldsCode, or_assoc]

theorem OpensCode.exists_cons {rest : Text} (h : OpensCode rest) :
    ∃ c tail, rest = c :: tail ∧ isBlank c = false := by
  rcases h with h | h
  · obtain ⟨tail, rfl⟩ := List.head?_eq_some_iff.1 h
    exact ⟨'@', tail, rfl, by decide⟩
  · obtain ⟨w, hw, hstart⟩ := List.any_eq_true.1 h
    obtain ⟨c, tail, hword, hc⟩ := exists_cons_of_mem_openingWords hw
    unfold startsWithWord at hstart
    split at hstart
    · next hafter =>
      have hpre := List.isPrefixOf?_eq_some_iff_append_eq.1 hafter
      rw [hword] at hpre
      exact ⟨c, _, hpre.symm, hc⟩
    · cases hstart

theorem looksLikeCode_iff : looksLikeCode line = true ↔
    OpensCode (Text.trimStart line) ∨ HoldsCode line := by
  simp only [looksLikeCode, Bool.or_eq_true, beq_iff_eq, hasPair_iff, List.any_eq_true, OpensCode,
    HoldsCode, isMark, or_assoc]
  rfl

/-- A line looks like code exactly if it matches the anchor pattern. -/
theorem occursIn_anchor (hline : '\n' ∉ line) : anchor.occursIn line = looksLikeCode line := by
  rw [Bool.eq_iff_iff, looksLikeCode_iff, anchor, mem_behind_blanks hline,
    ← exists_blanks_iff fun _ => OpensCode.exists_cons]
  have hrest (space rest : Text) : ((Cursor.inText (space ++ rest) 0).behind space).rest = rest :=
    List.drop_left
  constructor
  · rintro ⟨space, rest, hspace, rfl, hcode⟩
    have hnot : '\n' ∉ rest := fun h => hline (List.mem_append_right _ h)
    rw [mem_code (by rwa [hrest]), hrest] at hcode
    rcases hcode with hopens | ⟨c, hc, hmark⟩ | harrow | harrow
    · exact .inl ⟨space, rest, hspace, rfl, hopens⟩
    · exact .inr (.inl ⟨c, List.mem_append_right _ hc, hmark⟩)
    · exact .inr (.inr (.inl (harrow.trans (List.suffix_append _ _).isInfix)))
    · exact .inr (.inr (.inr (harrow.trans (List.suffix_append _ _).isInfix)))
  · rintro (⟨space, rest, hspace, rfl, hopens⟩ | hholds)
    · have hnot : '\n' ∉ rest := fun h => hline (List.mem_append_right _ h)
      refine ⟨space, rest, hspace, rfl, ?_⟩
      rw [mem_code (by rwa [hrest]), hrest]
      exact .inl hopens
    · -- no blanks need be read before a part that may stand anywhere in the line
      refine ⟨[], line, by simp, rfl, ?_⟩
      have hwhole := hrest [] line
      rw [List.nil_append] at hwhole
      rw [mem_code (by rwa [hwhole]), hwhole]
      exact .inr hholds

theorem exists_of_looksLikeCode (h : looksLikeCode line = true) :
    ∃ c ∈ line, isBlank c = false := by
  rcases looksLikeCode_iff.1 h with hopens | ⟨c, hc, hmark⟩ | harrow | harrow
  · obtain ⟨c, tail, htrim, hc⟩ := hopens.exists_cons
    refine ⟨c, ?_, hc⟩
    rw [← List.takeWhile_append_dropWhile (p := isBlank) (l := line)]
    refine List.mem_append_right _ ?_
    change c ∈ Text.trimStart line
    rw [htrim]
    exact List.mem_cons_self
  · refine ⟨c, hc, ?_⟩
    simp only [isMark, Bool.or_eq_true, beq_iff_eq] at hmark
    rcases hmark with (rfl | rfl) | rfl
    all_goals decide
  · exact ⟨'>', harrow.mem (by decide), by decide⟩
  · exact ⟨'>', harrow.mem (by decide), by decide⟩

/-! ### Cutting -/

/-- A prompt is cut at the start of the first line that matches the anchor pattern. -/
structure IsCut (t prose code : Text) (above : List Text) (line : Text) (below : List Text) :
    Prop where
  lines : t.linesWithEnds = above ++ line :: below
  prose_eq : prose = above.flatten
  code_eq : code = (line :: below).flatten
  append : prose ++ code = t
  atLineStart : ∀ c ∈ prose.getLast?, c = '\n'
  anchored : anchor.occursIn (bareLine line) = true
  first : ∀ l ∈ above, anchor.occursIn (bareLine l) = false

theorem not_mem_bareLine {lines : List Text} (hlines : Text.AreLines lines) (hmem : line ∈ lines) :
    '\n' ∉ bareLine line := by
  have hbare (l : Text) (hl : '\n' ∉ l) : '\n' ∉ bareLine l := fun h =>
    hl ((List.rdropWhile_prefix _ l).mem h)
  induction hlines with
  | nil => cases hmem
  | unended _ hline => exact List.mem_singleton.1 hmem ▸ hbare _ hline
  | @ended l _ hline _ ih =>
    rcases List.mem_cons.1 hmem with rfl | hmem
    · have hend : bareLine (l ++ ['\n']) = bareLine l := List.rdropWhile_concat_pos _ _ _ rfl
      rw [hend]
      exact hbare l hline
    · exact ih hmem

/-- What stands above a line ends with a newline. -/
theorem newline_of_getLast? {above below : List Text}
    (hlines : Text.AreLines (above ++ line :: below)) : ∀ c ∈ above.flatten.getLast?, c = '\n' := by
  generalize hall : above ++ line :: below = lines at hlines
  induction hlines generalizing above with
  | nil => simp at hall
  | unended _ _ =>
    obtain ⟨rfl, -⟩ := List.append_eq_singleton_iff.1 hall |>.resolve_right (by simp)
    simp
  | @ended l rest _ _ ih =>
    cases above with
    | nil => simp
    | cons first above =>
      rw [List.cons_append, List.cons.injEq] at hall
      obtain ⟨rfl, hrest⟩ := hall
      intro c hc
      rw [List.flatten_cons, List.getLast?_append, Option.mem_def, Option.or_eq_some_iff] at hc
      rcases hc with hc | ⟨-, hc⟩
      · exact ih hrest c hc
      · simpa using hc.symm

theorem occursIn_bareLine (hmem : line ∈ t.linesWithEnds) :
    anchor.occursIn (bareLine line) = looksLikeCode (bareLine line) :=
  occursIn_anchor (not_mem_bareLine (Text.areLines_linesWithEnds t) hmem)

/-- A prompt is not cut if no line of it matches the anchor pattern, and else where the first such
line starts. -/
theorem split?_cases (t : Text) :
    split? t = none ∧ (∀ line ∈ t.linesWithEnds, anchor.occursIn (bareLine line) = false) ∨
      ∃ prose code above line below, split? t = some (prose, code) ∧
        IsCut t prose code above line below := by
  have hparts := List.takeWhile_append_dropWhile (p := fun l => !looksLikeCode (bareLine l))
    (l := t.linesWithEnds)
  cases hrest : t.linesWithEnds.dropWhile fun l => !looksLikeCode (bareLine l) with
  | nil =>
    left
    refine ⟨by simp only [split?, hrest], ?_⟩
    intro line hline
    rw [occursIn_bareLine hline]
    simpa using List.dropWhile_eq_nil_iff.1 hrest line hline
  | cons line below =>
    right
    have hsplit : split? t = some ((t.linesWithEnds.takeWhile fun l =>
        !looksLikeCode (bareLine l)).flatten, (line :: below).flatten) := by
      simp only [split?, hrest]
    rw [hrest] at hparts
    have hmem : line ∈ t.linesWithEnds := by
      rw [← hparts]
      exact List.mem_append_right _ List.mem_cons_self
    refine ⟨_, _, _, line, below, hsplit, hparts.symm, rfl, rfl, append_split? hsplit, ?_, ?_, ?_⟩
    · have hlines := Text.areLines_linesWithEnds t
      rw [← hparts] at hlines
      exact newline_of_getLast? hlines
    · have hhead := List.head?_dropWhile_not (fun l => !looksLikeCode (bareLine l)) t.linesWithEnds
      rw [hrest] at hhead
      rw [occursIn_bareLine hmem]
      simpa using hhead
    · intro l hl
      rw [occursIn_bareLine (List.takeWhile_sublist _ |>.mem hl)]
      simpa using List.mem_takeWhile_imp hl

/-- The record of a prompt that is cut: the trimmed halves, of which the code is not empty, and
nothing else. Together they hold every character of the prompt that is not blank, in order. -/
structure IsRecordOf (t prose code : Text) (r : FunctionRecord) : Prop where
  eq : r = { fullText := some (String.ofList (Text.trim code))
             docstring := some (String.ofList (Text.trim prose))
             docstringLineCount := none }
  code_ne_nil : Text.trim code ≠ []
  solid : Text.solid (Text.trim prose) ++ Text.solid (Text.trim code) = Text.solid t

theorem parse_prompt (t : Text) : parse .prompt t = match split? t with
    | none => .error .codeNotFound
    | some (prose, code) => .ok [{ fullText := some (String.ofList (Text.trim code))
                                   docstring := some (String.ofList (Text.trim prose))
                                   docstringLineCount := none }] := by
  rw [parse, record?]
  cases split? t <;> rfl

theorem IsCut.isRecordOf {prose code : Text} {above below : List Text}
    (h : IsCut t prose code above line below) {r : FunctionRecord}
    (hr : r = { fullText := some (String.ofList (Text.trim code))
                docstring := some (String.ofList (Text.trim prose))
                docstringLineCount := none }) : IsRecordOf t prose code r := by
  refine ⟨hr, ?_, ?_⟩
  · have hmem : line ∈ t.linesWithEnds := h.lines ▸ List.mem_append_right _ List.mem_cons_self
    have hlooks := (occursIn_bareLine hmem).symm.trans h.anchored
    obtain ⟨c, hc, hblank⟩ := exists_of_looksLikeCode hlooks
    refine Text.trim_ne_nil (c := c) ?_ hblank
    rw [h.code_eq, List.flatten_cons]
    exact List.mem_append_left _ ((List.rdropWhile_prefix _ line).mem hc)
  · rw [Text.solid_trim, Text.solid_trim, ← Text.solid_append, h.append]

/-- A prompt has no record exactly if no line of it matches the anchor pattern. Else it has one, of
the two halves between which the first such line starts. -/
theorem cut_at_first_anchor (t : Text) :
    (parse .prompt t = .error .codeNotFound ↔
      ¬∃ line ∈ t.linesWithEnds, anchor.occursIn (bareLine line) = true) ∧
    (parse .prompt t = .error .codeNotFound ∨ ∃ r prose code above line below,
      parse .prompt t = .ok [r] ∧ IsCut t prose code above line below ∧
        IsRecordOf t prose code r) := by
  rw [parse_prompt]
  rcases split?_cases t with ⟨hnone, hlines⟩ | ⟨prose, code, above, line, below, hsome, hcut⟩
  · rw [hnone]
    refine ⟨⟨fun _ => ?_, fun _ => rfl⟩, .inl rfl⟩
    rintro ⟨line, hline, hanchored⟩
    rw [hlines line hline] at hanchored
    cases hanchored
  · rw [hsome]
    refine ⟨⟨fun h => ?_, fun h => ?_⟩, .inr ⟨_, _, _, _, _, _, rfl, hcut, hcut.isRecordOf rfl⟩⟩
    · cases h
    · refine absurd ⟨line, ?_, hcut.anchored⟩ h
      exact hcut.lines ▸ List.mem_append_right _ List.mem_cons_self

end Glossator.Prompt
