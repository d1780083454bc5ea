import Glossator.Proofs.Text.Lines
import Glossator.Proofs.Text.Split

/-!
# Ends of lines

A text can have a carriage return before each newline. Then the places of the text move to the
right, and between a return and its newline there is one more place. What reads a return as it reads
a newline finds the same in both texts.

* `Text.crlf`: the text with the returns, and `Text.crlfOffset`: where its places are.
* `Text.exists_place`: the places of the text with the returns.
* `Text.lines_crlf`, `Text.words_crlf`: the lines and the words are the same.
-/

set_option autoImplicit false

namespace Glossator

namespace Text

variable {t u : Text} {c : Char} {i j : Nat}

/-- The text with a carriage return before each newline. -/
def crlf (t : Text) : Text := t.flatMap fun c => if c = '\n' then ['\r', '\n'] else [c]

@[simp] theorem crlf_nil : crlf [] = [] := rfl

@[simp] theorem crlf_newline (t : Text) : crlf ('\n' :: t) = '\r' :: '\n' :: crlf t := rfl

theorem crlf_cons (h : c ≠ '\n') (t : Text) : crlf (c :: t) = c :: crlf t := by
  rw [crlf, List.flatMap_cons, if_neg h]
  rfl

@[simp] theorem crlf_append (t u : Text) : crlf (t ++ u) = crlf t ++ crlf u := List.flatMap_append

theorem crlf_eq_self (h : '\n' ∉ t) : crlf t = t := by
  induction t with
  | nil => rfl
  | cons c t ih =>
    rw [List.mem_cons, not_or] at h
    rw [crlf_cons (Ne.symm h.1), ih h.2]

@[simp] theorem crlf_eq_nil_iff : crlf t = [] ↔ t = [] := by
  cases t with
  | nil => simp
  | cons c t => by_cases h : c = '\n' <;> simp [h, crlf_cons]

theorem length_le_length_crlf (t : Text) : t.length ≤ (crlf t).length := by
  induction t with
  | nil => exact le_rfl
  | cons c t ih =>
    by_cases h : c = '\n'
    · simp only [h, crlf_newline, List.length_cons]
      omega
    · simpa [crlf_cons h] using ih

/-- A return or the same character stands first. -/
theorem head?_crlf (t : Text) :
    (crlf t).head? = t.head?.map fun c => if c = '\n' then '\r' else c := by
  cases t with
  | nil => rfl
  | cons c t => by_cases h : c = '\n' <;> simp [h, crlf_cons]

@[simp] theorem getLast?_crlf (t : Text) : (crlf t).getLast? = t.getLast? := by
  rcases List.eq_nil_or_concat t with rfl | ⟨front, c, rfl⟩
  · rfl
  · rw [List.concat_eq_append, crlf_append, List.getLast?_append]
    by_cases h : c = '\n' <;> simp [h, crlf_cons]

theorem count_newline_crlf (t : Text) : (crlf t).count '\n' = t.count '\n' := by
  induction t with
  | nil => rfl
  | cons c t ih => by_cases h : c = '\n' <;> simp [h, crlf_cons, ih]

@[simp] theorem countLines_crlf (t : Text) : countLines (crlf t) = countLines t := by
  simp only [countLines, getLast?_crlf, count_newline_crlf]

/-! ### Places -/

/-- The offset in the text with the returns of a place of the text. -/
def crlfOffset (t : Text) (i : Nat) : Nat := (crlf (t.take i)).length

theorem crlfOffset_eq (t : Text) (i : Nat) : crlfOffset t i = (crlf (t.take i)).length := rfl

@[simp] theorem crlfOffset_zero (t : Text) : crlfOffset t 0 = 0 := rfl

theorem crlfOffset_of_length_le (h : t.length ≤ i) : crlfOffset t i = (crlf t).length := by
  rw [crlfOffset, List.take_of_length_le h]

@[simp] theorem crlfOffset_length (t : Text) : crlfOffset t t.length = (crlf t).length :=
  crlfOffset_of_length_le le_rfl

/-- A place behind another one, counted from there. -/
theorem crlfOffset_add (t : Text) (i j : Nat) :
    crlfOffset t (i + j) = crlfOffset t i + crlfOffset (t.drop i) j := by
  rw [crlfOffset, List.take_add, crlf_append, List.length_append]
  rfl

theorem crlfOffset_cons_succ (c : Char) (t : Text) (i : Nat) :
    crlfOffset (c :: t) (i + 1) = (crlf [c]).length + crlfOffset t i := by
  rw [Nat.add_comm i, crlfOffset_add]
  rfl

/-- The place behind a piece of the text. -/
theorem crlfOffset_add_length {w : Text} (h : w <+: t.drop i) :
    crlfOffset t (i + w.length) = crlfOffset t i + (crlf w).length := by
  rw [crlfOffset_add, crlfOffset_eq (t.drop i), ← List.prefix_iff_eq_take.1 h]

theorem crlf_take (t : Text) (i : Nat) : crlf (t.take i) = (crlf t).take (crlfOffset t i) := by
  conv_rhs => rw [← List.take_append_drop i t, crlf_append]
  rw [crlfOffset, List.take_append_drop, List.take_left]

theorem crlf_drop (t : Text) (i : Nat) : crlf (t.drop i) = (crlf t).drop (crlfOffset t i) := by
  conv_rhs => rw [← List.take_append_drop i t, crlf_append]
  rw [crlfOffset, List.take_append_drop, List.drop_left]

theorem crlfOffset_drop_one (h : t[i]? = some c) :
    crlfOffset (t.drop i) 1 = (crlf [c]).length := by
  rw [crlfOffset, List.take_one, List.head?_drop, h]
  rfl

theorem crlfOffset_succ_of_newline (h : t[i]? = some '\n') :
    crlfOffset t (i + 1) = crlfOffset t i + 2 := by
  rw [crlfOffset_add, crlfOffset_drop_one h]
  rfl

theorem crlfOffset_succ (h : t[i]? = some c) (hc : c ≠ '\n') :
    crlfOffset t (i + 1) = crlfOffset t i + 1 := by
  rw [crlfOffset_add, crlfOffset_drop_one h, crlf_cons hc]
  rfl

theorem crlfOffset_mono (t : Text) (h : i ≤ j) : crlfOffset t i ≤ crlfOffset t j := by
  rw [← Nat.add_sub_cancel' h, crlfOffset_add]
  exact Nat.le_add_right _ _

theorem crlfOffset_lt (hi : i < t.length) (h : i < j) : crlfOffset t i < crlfOffset t j := by
  have hnext : crlfOffset t i < crlfOffset t (i + 1) := by
    obtain ⟨c, hc⟩ : ∃ c, t[i]? = some c := ⟨_, List.getElem?_eq_getElem hi⟩
    by_cases hnew : c = '\n'
    · subst hnew
      rw [crlfOffset_succ_of_newline hc]
      omega
    · rw [crlfOffset_succ hc hnew]
      omega
  exact hnext.trans_le (crlfOffset_mono t h)

theorem crlfOffset_lt_iff (hj : j ≤ t.length) : crlfOffset t i < crlfOffset t j ↔ i < j := by
  refine ⟨fun h => ?_, fun h => crlfOffset_lt (by omega) h⟩
  by_contra hle
  have := crlfOffset_mono t (Nat.not_lt.1 hle)
  omega

theorem crlfOffset_le_iff (hi : i ≤ t.length) : crlfOffset t i ≤ crlfOffset t j ↔ i ≤ j := by
  rw [← Nat.not_lt, crlfOffset_lt_iff hi, Nat.not_lt]

theorem crlfOffset_le_length (t : Text) (i : Nat) : crlfOffset t i ≤ (crlf t).length := by
  rw [← crlfOffset_length]
  rcases Nat.le_total i t.length with h | h
  · exact crlfOffset_mono t h
  · rw [crlfOffset_of_length_le h, crlfOffset_length]

/-- A place of the text with the returns is one of the text, or it stands before a newline. -/
theorem exists_place {k : Nat} (h : k ≤ (crlf t).length) : ∃ i ≤ t.length,
    k = crlfOffset t i ∨ t[i]? = some '\n' ∧ k = crlfOffset t i + 1 := by
  induction t generalizing k with
  | nil => exact ⟨0, le_rfl, .inl (by simpa using h)⟩
  | cons c t ih =>
    have hsplit : (crlf (c :: t)).length = (crlf [c]).length + (crlf t).length := by
      rw [← List.length_append, ← crlf_append]
      rfl
    rcases Nat.lt_or_ge k (crlf [c]).length with hk | hk
    · refine ⟨0, Nat.zero_le _, ?_⟩
      by_cases hc : c = '\n'
      · subst hc
        have : k = 0 ∨ k = 1 := by
          have : (crlf ['\n']).length = 2 := rfl
          omega
        rcases this with rfl | rfl
        · exact .inl rfl
        · exact .inr ⟨rfl, rfl⟩
      · rw [crlf_cons hc, crlf_nil, List.length_singleton] at hk
        exact .inl (by rw [crlfOffset_zero]; omega)
    · obtain ⟨i, hi, hplace⟩ := ih (k := k - (crlf [c]).length) (by omega)
      refine ⟨i + 1, Nat.succ_le_succ hi, ?_⟩
      rw [crlfOffset_cons_succ]
      rcases hplace with hplace | ⟨hnew, hplace⟩
      · exact .inl (by omega)
      · exact .inr ⟨by simpa using hnew, by omega⟩

/-! ### Runs of characters -/

section Runs

variable {p : Char → Bool}

theorem takeWhile_crlf (h : p '\r' = p '\n') (t : Text) :
    (crlf t).takeWhile p = crlf (t.takeWhile p) := by
  induction t with
  | nil => rfl
  | cons c t ih =>
    by_cases hc : c = '\n'
    · subst hc
      by_cases hp : p '\n' = true <;> simp [hp, h, ih]
    · by_cases hp : p c = true <;> simp [hp, crlf_cons hc, ih]

theorem dropWhile_crlf (h : p '\r' = p '\n') (t : Text) :
    (crlf t).dropWhile p = crlf (t.dropWhile p) := by
  induction t with
  | nil => rfl
  | cons c t ih =>
    by_cases hc : c = '\n'
    · subst hc
      by_cases hp : p '\n' = true <;> simp [hp, h, ih]
    · by_cases hp : p c = true <;> simp [hp, crlf_cons hc, ih]

theorem dropEndWhile_crlf (h : p '\r' = p '\n') (t : Text) :
    dropEndWhile p (crlf t) = crlf (dropEndWhile p t) := by
  change (crlf t).rdropWhile p = crlf (t.rdropWhile p)
  induction t using List.reverseRecOn with
  | nil => rfl
  | append_singleton t c ih =>
    rw [crlf_append]
    by_cases hc : c = '\n'
    · subst hc
      have hsplit : crlf t ++ crlf ['\n'] = crlf t ++ ['\r'] ++ ['\n'] := by simp
      rw [hsplit]
      by_cases hp : p '\n' = true
      · rw [List.rdropWhile_concat_pos _ _ _ hp, List.rdropWhile_concat_pos _ _ _ (h.trans hp),
          List.rdropWhile_concat_pos _ _ _ hp, ih]
      · rw [List.rdropWhile_concat_neg _ _ _ hp, List.rdropWhile_concat_neg _ _ _ hp]
        simp
    · rw [crlf_cons hc, crlf_nil]
      by_cases hp : p c = true
      · rw [List.rdropWhile_concat_pos _ _ _ hp, List.rdropWhile_concat_pos _ _ _ hp, ih]
      · rw [List.rdropWhile_concat_neg _ _ _ hp, List.rdropWhile_concat_neg _ _ _ hp, crlf_append,
          crlf_cons hc, crlf_nil]

end Runs

theorem trimStart_crlf (t : Text) : trimStart (crlf t) = crlf (trimStart t) :=
  dropWhile_crlf (by decide) t

theorem trimEnd_crlf (t : Text) : trimEnd (crlf t) = crlf (trimEnd t) :=
  dropEndWhile_crlf (by decide) t

theorem trim_crlf (t : Text) : trim (crlf t) = crlf (trim t) := by
  rw [trim, trimStart_crlf, trimEnd_crlf]
  rfl

/-! ### Starts and ends -/

/-- A text has neither returns nor newlines. -/
def OnOneLine (w : Text) : Prop := ∀ c ∈ w, c ≠ '\r' ∧ c ≠ '\n'

theorem after?_eq_some_iff {w rest : Text} : after? w t = some rest ↔ t = w ++ rest := by
  rw [after?, List.isPrefixOf?_eq_some_iff_append_eq, eq_comm]

theorem before?_eq_some_iff {w front : Text} : before? w t = some front ↔ t = front ++ w := by
  rw [before?, Option.map_eq_some_iff]
  constructor
  · rintro ⟨rest, hrest, rfl⟩
    rw [List.isPrefixOf?_eq_some_iff_append_eq] at hrest
    rw [← List.reverse_reverse t, ← hrest, List.reverse_append, List.reverse_reverse]
  · rintro rfl
    exact ⟨front.reverse, List.isPrefixOf?_eq_some_iff_append_eq.2 (by simp), by simp⟩

/-- What stands on one line at the start of the text with the returns is at the start of the
text. -/
theorem exists_of_crlf_eq_append {w rest : Text} (h : OnOneLine w) (heq : crlf t = w ++ rest) :
    ∃ u, t = w ++ u ∧ rest = crlf u := by
  induction w generalizing t with
  | nil => exact ⟨t, rfl, heq.symm⟩
  | cons d w ih =>
    obtain ⟨hreturn, hnewline⟩ := h d List.mem_cons_self
    cases t with
    | nil => cases heq
    | cons c t =>
      by_cases hc : c = '\n'
      · subst hc
        exact absurd (List.cons.inj heq).1.symm hreturn
      · rw [crlf_cons hc] at heq
        obtain ⟨rfl, hrest⟩ := List.cons.inj heq
        obtain ⟨u, rfl, rfl⟩ := ih (fun c hc => h c (List.mem_cons_of_mem _ hc)) hrest
        exact ⟨u, rfl, rfl⟩

/-- What stands on one line at the end of the text with the returns is at the end of the text. -/
theorem exists_of_crlf_eq_append' {w front : Text} (h : OnOneLine w) (heq : crlf t = front ++ w) :
    ∃ u, t = u ++ w ∧ front = crlf u := by
  induction w using List.reverseRecOn generalizing t with
  | nil => exact ⟨t, by simp, by simpa using heq.symm⟩
  | append_singleton w d ih =>
    obtain ⟨-, hnewline⟩ := h d (by simp)
    have hlast : t.getLast? = some d := by
      rw [← getLast?_crlf, heq, ← List.append_assoc, List.getLast?_concat]
    obtain ⟨t, rfl⟩ := List.getLast?_eq_some_iff.1 hlast
    rw [crlf_append, crlf_cons hnewline, crlf_nil, ← List.append_assoc] at heq
    obtain ⟨u, rfl, rfl⟩ :=
      ih (fun c hc => h c (List.mem_append_left _ hc)) (List.append_inj' heq rfl).1
    exact ⟨u, by simp, rfl⟩

theorem prefix_crlf_iff {w : Text} (h : OnOneLine w) : w <+: crlf t ↔ w <+: t := by
  constructor
  · rintro ⟨rest, hrest⟩
    obtain ⟨u, rfl, -⟩ := exists_of_crlf_eq_append h hrest.symm
    exact List.prefix_append w u
  · rintro ⟨u, rfl⟩
    rw [crlf_append, crlf_eq_self fun hmem => (h _ hmem).2 rfl]
    exact List.prefix_append w _

theorem after?_crlf {w : Text} (h : OnOneLine w) (t : Text) :
    after? w (crlf t) = (after? w t).map crlf := by
  apply Option.ext
  intro rest
  rw [after?_eq_some_iff, Option.map_eq_some_iff]
  constructor
  · intro heq
    obtain ⟨u, rfl, rfl⟩ := exists_of_crlf_eq_append h heq
    exact ⟨u, after?_eq_some_iff.2 rfl, rfl⟩
  · rintro ⟨u, hu, rfl⟩
    rw [after?_eq_some_iff.1 hu, crlf_append, crlf_eq_self fun hmem => (h _ hmem).2 rfl]

theorem before?_crlf {w : Text} (h : OnOneLine w) (t : Text) :
    before? w (crlf t) = (before? w t).map crlf := by
  apply Option.ext
  intro front
  rw [before?_eq_some_iff, Option.map_eq_some_iff]
  constructor
  · intro heq
    obtain ⟨u, rfl, rfl⟩ := exists_of_crlf_eq_append' h heq
    exact ⟨u, before?_eq_some_iff.2 rfl, rfl⟩
  · rintro ⟨u, hu, rfl⟩
    rw [before?_eq_some_iff.1 hu, crlf_append, crlf_eq_self fun hmem => (h _ hmem).2 rfl]

/-! ### Words -/

/-- The words of a text are the same with the returns. -/
theorem words_crlf (t : Text) : words (crlf t) = words t := by
  have hpieces : ∃ piece pieces pieces', splitAt isBlank t = piece :: pieces ∧
      splitAt isBlank (crlf t) = piece :: pieces' ∧
        pieces'.filter (! ·.isEmpty) = pieces.filter (! ·.isEmpty) := by
    induction t with
    | nil => exact ⟨[], [], [], rfl, rfl, rfl⟩
    | cons c t ih =>
      obtain ⟨piece, pieces, pieces', hsplit, hsplit', hsame⟩ := ih
      by_cases hc : c = '\n'
      · subst hc
        have hreturn : isBlank '\r' = true := by decide
        have hnewline : isBlank '\n' = true := by decide
        refine ⟨[], piece :: pieces, [] :: piece :: pieces', ?_, ?_, ?_⟩
        · rw [splitAt, if_pos hnewline, hsplit]
        · rw [crlf_newline, splitAt, if_pos hreturn, splitAt, if_pos hnewline, hsplit']
        · simp [List.filter_cons, hsame]
      · rw [crlf_cons hc, splitAt, splitAt, hsplit, hsplit']
        by_cases hblank : isBlank c = true
        · refine ⟨[], piece :: pieces, piece :: pieces', if_pos hblank, if_pos hblank, ?_⟩
          simp [List.filter_cons, hsame]
        · exact ⟨c :: piece, pieces, pieces', if_neg hblank, if_neg hblank, hsame⟩
  obtain ⟨piece, pieces, pieces', hsplit, hsplit', hsame⟩ := hpieces
  rw [words, words, hsplit, hsplit', List.filter_cons, List.filter_cons, hsame]

/-! ### Lines -/

theorem linesWithEnds_crlf (t : Text) : linesWithEnds (crlf t) = (linesWithEnds t).map crlf := by
  induction t with
  | nil => rfl
  | cons c t ih =>
    by_cases hc : c = '\n'
    · subst hc
      simp [linesWithEnds, ih]
    · rw [crlf_cons hc, linesWithEnds, linesWithEnds, if_neg hc, if_neg hc, ih]
      cases linesWithEnds t with
      | nil => simp [crlf_cons hc]
      | cons line lines => simp [crlf_cons hc]

/-- A newline is taken off the end of a line, with the return before it. -/
theorem withoutLineEnd_newline {line : Text} (h : '\r' ∉ line) :
    withoutLineEnd (line ++ ['\n']) = line ∧ withoutLineEnd (line ++ ['\r', '\n']) = line := by
  refine ⟨?_, by simp [withoutLineEnd]⟩
  rw [withoutLineEnd, List.reverse_append]
  cases hreverse : line.reverse with
  | nil =>
    rw [List.reverse_eq_nil_iff.1 hreverse]
    rfl
  | cons c rest =>
    have hc : c ≠ '\r' := by
      rintro rfl
      exact h (List.mem_reverse.1 (hreverse ▸ List.mem_cons_self))
    have hline : line = (c :: rest).reverse := by rw [← hreverse, List.reverse_reverse]
    rw [hline]
    simp only [List.reverse_singleton, List.singleton_append]
    split
    · next heq => exact absurd (List.cons.inj (List.cons.inj heq).2).1 hc
    · next heq => rw [(List.cons.inj heq).2]
    · next hne => exact absurd rfl (hne _)

/-- A line of a text without returns is one with a newline at its end, or the last one. -/
theorem withoutLineEnd_cases (h : '\r' ∉ t) {line : Text} (hline : line ∈ linesWithEnds t) :
    '\r' ∉ line ∧ '\n' ∉ withoutLineEnd line ∧
      (line = withoutLineEnd line ∨ line = withoutLineEnd line ++ ['\n']) := by
  have hreturn : '\r' ∉ line := by
    intro hmem
    rw [← flatten_linesWithEnds t] at h
    exact h (List.mem_flatten_of_mem hline hmem)
  refine ⟨hreturn, ?_⟩
  rcases (areLines_linesWithEnds t).newline_notMem_or hline with hone | ⟨front, hfront, rfl⟩
  · have hend : withoutLineEnd line = line := by
      rw [withoutLineEnd]
      split
      · next heq => exact absurd (List.mem_reverse.1 (heq ▸ List.mem_cons_self)) hone
      · next heq => exact absurd (List.mem_reverse.1 (heq ▸ List.mem_cons_self)) hone
      · rfl
    rw [hend]
    exact ⟨hone, .inl rfl⟩
  · have hfront' : '\r' ∉ front := fun hmem => hreturn (List.mem_append_left _ hmem)
    rw [(withoutLineEnd_newline hfront').1]
    exact ⟨hfront, .inr rfl⟩

/-- No line of a text without returns has a newline. -/
theorem newline_notMem_of_mem_lines (h : '\r' ∉ t) {line : Text} (hline : line ∈ lines t) :
    '\n' ∉ line := by
  obtain ⟨ended, hended, rfl⟩ := List.mem_map.1 hline
  exact (withoutLineEnd_cases h hended).2.1

/-- The lines of a text without returns are the same with them. -/
theorem lines_crlf (h : '\r' ∉ t) : lines (crlf t) = lines t := by
  rw [lines, lines, linesWithEnds_crlf, List.map_map]
  refine List.map_congr_left fun line hline => ?_
  obtain ⟨hreturn, hnewline, hcases⟩ := withoutLineEnd_cases h hline
  generalize hbare : withoutLineEnd line = bare at hnewline hcases ⊢
  rw [Function.comp_apply]
  rcases hcases with rfl | rfl
  · rw [crlf_eq_self hnewline, hbare]
  · rw [crlf_append, crlf_eq_self hnewline]
    exact (withoutLineEnd_newline fun hmem => hreturn (List.mem_append_left _ hmem)).2

/-- A place is on the same line. -/
theorem lineAt_crlf (t : Text) (i : Nat) : lineAt (crlf t) (t.crlfOffset i) = lineAt t i := by
  rw [lineAt, lineAt, ← crlf_take, count_newline_crlf]

/-- The character before a place is on the same line, a newline with its return. -/
theorem lineAt_crlf_sub_one (hpos : 0 < i) (hi : i ≤ t.length) :
    lineAt (crlf t) (t.crlfOffset i - 1) = lineAt t (i - 1) := by
  obtain ⟨i, rfl⟩ : ∃ k, i = k + 1 := ⟨i - 1, by omega⟩
  have hget := List.getElem?_eq_getElem hi
  rw [Nat.add_sub_cancel]
  by_cases hnewline : t[i] = '\n'
  · rw [hnewline] at hget
    have hsame : lineAt (crlf t) (t.crlfOffset i + 1) = lineAt (crlf t) (t.crlfOffset i) := by
      refine lineAt_eq_of_not_mem (Nat.le_succ _) ?_
      -- what stands between is the return
      rw [← crlf_drop, List.drop_eq_getElem_cons hi, hnewline, Nat.add_sub_cancel_left]
      simp
    rw [crlfOffset_succ_of_newline hget, ← lineAt_crlf t i, ← hsame]
    rfl
  · rw [crlfOffset_succ hget hnewline, Nat.add_sub_cancel, lineAt_crlf]

/-- What stands behind the last newline is the same. -/
theorem takeWhile_reverse_crlf (t : Text) :
    (crlf t).reverse.takeWhile (· ≠ '\n') = t.reverse.takeWhile (· ≠ '\n') := by
  induction t using List.reverseRecOn with
  | nil => rfl
  | append_singleton t c ih =>
    by_cases hc : c = '\n'
    · subst hc
      simp
    · simpa [crlf_cons hc, hc] using ih

/-- The place at which the line of a place starts, if what stands between is on one line. -/
theorem crlfOffset_sub_length {w since : Text} (hw : w ++ since <+: t.drop i)
    (hsince : '\n' ∉ since) : t.crlfOffset (i + w.length) =
      t.crlfOffset (i + (w ++ since).length) - since.length := by
  have hdrop : since <+: t.drop (i + w.length) := by
    obtain ⟨rest, hrest⟩ := hw
    rw [← List.drop_drop, ← hrest, List.append_assoc, List.drop_left]
    exact List.prefix_append _ _
  have hend := crlfOffset_add_length hdrop
  rw [crlf_eq_self hsince] at hend
  rw [List.length_append, ← Nat.add_assoc, hend, Nat.add_sub_cancel]

end Text

/-- Where a span of a text is in the text with the returns. -/
def Span.crlf (t : Text) (s : Span) : Span := ⟨t.crlfOffset s.start, t.crlfOffset s.stop⟩

theorem Span.slice_crlf (t : Text) (s : Span) :
    (s.crlf t).slice (Text.crlf t) = Text.crlf (s.slice t) := by
  rw [slice, slice, crlf, ← Text.crlf_drop]
  rcases Nat.le_total s.start s.stop with h | h
  · have hwidth : t.crlfOffset s.stop - t.crlfOffset s.start =
        Text.crlfOffset (t.drop s.start) (s.stop - s.start) := by
      conv_lhs => rw [← Nat.add_sub_cancel' h, Text.crlfOffset_add]
      omega
    rw [hwidth, ← Text.crlf_take]
  · have := Text.crlfOffset_mono t h
    rw [Nat.sub_eq_zero_of_le this, Nat.sub_eq_zero_of_le h]
    rfl

/-- A place of the text is in a span where it is with the returns. -/
theorem Span.contains_crlf {t : Text} {s : Span} {i : Nat} (hstart : s.start ≤ t.length)
    (hstop : s.stop ≤ t.length) : (s.crlf t).contains (t.crlfOffset i) = s.contains i := by
  rw [Bool.eq_iff_iff, contains_iff, contains_iff]
  exact and_congr (Text.crlfOffset_le_iff hstart) (Text.crlfOffset_lt_iff hstop)

end Glossator
