import Glossator.Proofs.Text.Join
import Glossator.Proofs.Text.LineEnds
import Glossator.Proofs.Text.Lines
import Glossator.Java.DocComment

/-!
# The lines of comments

Comments are cleaned line by line: of each line the blanks around it go, and the marker or star that
it starts with. What is cleaned before and behind a line end is cleaned apart.

* `Java.commentLines`: the cleaned lines of a text, empty ones included.
* `Java.isDocOf_cleanComment?`: the text of comments is their cleaned lines without the empty ones
  at both ends.
-/

set_option autoImplicit false

namespace Glossator.Java

open Text

variable {t u line gap : Text}

/-! ### One line -/

/-- A trimmed line without the marker or the star that it starts with. -/
def unmarked : Text → Text
  | '/' :: '/' :: comment => trim comment
  | '*' :: body => trim body
  | body => trim body

theorem cleanCommentLine_eq (line : Text) : cleanCommentLine line = unmarked (trim line) := by
  rw [cleanCommentLine, trim]
  cases hstart : trimStart line with
  | nil => rfl
  | cons c rest =>
    have hc : isBlank c = false := isBlank_head?_trimStart (t := line) (by rw [hstart]; rfl)
    have hend : trimEnd (c :: rest) = c :: trimEnd rest := trimEnd_append_cons hc [] rest
    have hsame : trim (c :: rest) = trim (c :: trimEnd rest) := by rw [← hend, trim_trimEnd]
    rw [hend]
    cases hafter : after? "//".toList (c :: trimEnd rest) with
    | some comment =>
      rw [after?_eq_some_iff.1 hafter]
      rfl
    | none =>
      have hplain : ∀ comment, c :: trimEnd rest ≠ '/' :: '/' :: comment := fun comment h => by
        rw [after?_eq_some_iff.2 h] at hafter
        cases hafter
      unfold unmarked
      split <;> split <;> simp_all [trim_trimEnd]

/-- Blanks before a line make no difference. -/
theorem cleanCommentLine_blanks_append (hgap : ∀ c ∈ gap, isBlank c = true) (line : Text) :
    cleanCommentLine (gap ++ line) = cleanCommentLine line := by
  rw [cleanCommentLine_eq, cleanCommentLine_eq, trim_blanks_append hgap]

/-- Blanks behind a line make no difference. -/
theorem cleanCommentLine_append_blanks (hgap : ∀ c ∈ gap, isBlank c = true) (line : Text) :
    cleanCommentLine (line ++ gap) = cleanCommentLine line := by
  rw [cleanCommentLine_eq, cleanCommentLine_eq, trim_append_blanks hgap]

/-- The line starts with the marker of a line comment. -/
def HasMarker (line : Text) : Prop :=
  ∃ gap comment, (∀ c ∈ gap, isBlank c = true) ∧ line = gap ++ '/' :: '/' :: comment

/-- Of a line comment, the marker is dropped. -/
theorem cleanCommentLine_marker (comment : Text) :
    cleanCommentLine ('/' :: '/' :: comment) = trim comment := by
  have hend : trimEnd ('/' :: comment) = '/' :: trimEnd comment :=
    trimEnd_append_cons (by rfl) [] comment
  rw [cleanCommentLine_eq, trim_cons (by rfl), hend]
  exact trim_trimEnd comment

/-! ### Slashes -/

/-- The marker of a line comment costs a line two slashes. -/
theorem count_slash_of_hasMarker (h : HasMarker line) :
    (cleanCommentLine line).count '/' + 2 = line.count '/' := by
  obtain ⟨gap, comment, hgap, rfl⟩ := h
  have hnone : gap.count '/' = 0 :=
    List.count_eq_zero_of_not_mem fun hmem => absurd (hgap '/' hmem) (by decide)
  rw [cleanCommentLine_blanks_append hgap, cleanCommentLine_marker, count_trim (by rfl),
    List.count_append, hnone, List.count_cons_self, List.count_cons_self]
  omega

/-- Any other line keeps its slashes. -/
theorem count_slash_of_not_hasMarker (h : ¬ HasMarker line) :
    (cleanCommentLine line).count '/' = line.count '/' := by
  have hplain (comment : Text) : trim line ≠ '/' :: '/' :: comment := by
    intro hcomment
    obtain ⟨gap, hgap, hline⟩ := exists_blanks_append_trimStart line
    obtain ⟨behind, -, hcore⟩ := exists_trimEnd_append_blanks (trimStart line)
    refine h ⟨gap, comment ++ behind, hgap, ?_⟩
    rw [hline, hcore, show trimEnd (trimStart line) = _ from hcomment]
    rfl
  rw [cleanCommentLine_eq, ← count_trim (c := '/') (by rfl) line]
  unfold unmarked
  split
  · next comment hcomment => exact absurd hcomment (hplain comment)
  · next body hbody => rw [hbody, count_trim (by rfl), List.count_cons_of_ne (by decide)]
  · exact count_trim (by rfl) _

theorem count_slash_cleanCommentLine_le (line : Text) :
    (cleanCommentLine line).count '/' ≤ line.count '/' := by
  by_cases h : HasMarker line
  · have := count_slash_of_hasMarker h
    omega
  · exact (count_slash_of_not_hasMarker h).le

/-- An opener at the start of a line stays. -/
theorem count_slash_opener (line : Text) :
    (cleanCommentLine ("/**".toList ++ line)).count '/' = line.count '/' + 1 := by
  rw [count_slash_of_not_hasMarker]
  · simp
  · rintro ⟨gap, comment, hgap, heq⟩
    cases gap with
    | nil => simp at heq
    | cons c gap =>
      obtain ⟨rfl, -⟩ : '/' = c ∧ _ := by simpa using heq
      exact absurd (hgap '/' List.mem_cons_self) (by decide)

/-- A closer within a line stays. -/
theorem count_slash_closer (line rest : Text) : (cleanCommentLine line).count '/' +
    rest.count '/' < (cleanCommentLine (line ++ ("*/".toList ++ rest))).count '/' := by
  have hcount : (line ++ ("*/".toList ++ rest)).count '/' =
      line.count '/' + (rest.count '/' + 1) := by
    simp [List.count_append]
  by_cases h : HasMarker line
  · obtain ⟨gap, comment, hgap, rfl⟩ := h
    have hmarked : HasMarker (gap ++ '/' :: '/' :: comment ++ ("*/".toList ++ rest)) :=
      ⟨gap, comment ++ ("*/".toList ++ rest), hgap, by simp⟩
    have := count_slash_of_hasMarker hmarked
    have := count_slash_of_hasMarker ⟨gap, comment, hgap, rfl⟩
    omega
  · have hunmarked : ¬ HasMarker (line ++ ("*/".toList ++ rest)) := by
      rintro ⟨gap, comment, hgap, heq⟩
      rcases List.append_eq_append_iff.1 heq with ⟨front, rfl, hfront⟩ | ⟨behind, rfl, hbehind⟩
      · -- the star of the closer is no blank
        cases front with
        | nil => simp at hfront
        | cons c front =>
          obtain ⟨rfl, -⟩ : '*' = c ∧ _ := by simpa using hfront
          exact absurd (hgap '*' (by simp)) (by decide)
      · -- the star is not one of the two slashes
        rcases behind with _ | ⟨c, _ | ⟨d, behind⟩⟩
        · simp at hbehind
        · simp at hbehind
        · obtain ⟨rfl, rfl, -⟩ : '/' = c ∧ '/' = d ∧ _ := by simpa using hbehind
          exact h ⟨gap, behind, hgap, rfl⟩
    rw [count_slash_of_not_hasMarker h, count_slash_of_not_hasMarker hunmarked]
    omega

/-! ### All lines -/

/-- The lines of a text, each cleaned, as many as there are line ends and one more. -/
def commentLines (t : Text) : List Text := (splitAt (· = '\n') t).map cleanCommentLine

theorem commentLines_eq_singleton (h : '\n' ∉ t) : commentLines t = [cleanCommentLine t] := by
  rw [commentLines, splitAt_newline_eq_singleton h, List.map_singleton]

/-- What stands before and behind a line end is cleaned apart. -/
theorem commentLines_append_cons (t u : Text) :
    commentLines (t ++ '\n' :: u) = commentLines t ++ commentLines u := by
  rw [commentLines, splitAt_append_cons (by rfl), List.map_append]
  rfl

/-- The first line of a text, and what is cleaned apart from it. -/
theorem exists_firstLine (t : Text) : ∃ line lines, '\n' ∉ line ∧
    ∀ u, '\n' ∉ u → commentLines (u ++ t) = cleanCommentLine (u ++ line) :: lines := by
  by_cases h : '\n' ∈ t
  · obtain ⟨line, rest, rfl, hline⟩ := List.eq_append_cons_of_mem h
    refine ⟨line, commentLines rest, hline, fun u hu => ?_⟩
    have hfirst : '\n' ∉ u ++ line := by simp [hu, hline]
    rw [← List.append_assoc, commentLines_append_cons, commentLines_eq_singleton hfirst]
    rfl
  · exact ⟨t, [], h, fun u hu => commentLines_eq_singleton (by simp [hu, h])⟩

/-- The last line of a text, and what is cleaned apart from it. -/
theorem exists_lastLine (t : Text) : ∃ lines line, '\n' ∉ line ∧
    ∀ u, commentLines (t ++ u) = lines ++ commentLines (line ++ u) := by
  by_cases h : '\n' ∈ t
  · obtain ⟨line, front, hsplit, hline⟩ := List.eq_append_cons_of_mem (List.mem_reverse.2 h)
    have ht : t = front.reverse ++ '\n' :: line.reverse := by
      rw [← List.reverse_reverse t, hsplit]
      simp
    refine ⟨commentLines front.reverse, line.reverse, by simpa using hline, fun u => ?_⟩
    rw [ht, List.append_assoc, List.cons_append, commentLines_append_cons]
  · exact ⟨[], t, h, fun u => rfl⟩

/-- What stands between two texts joins the last line of the one and the first of the other. -/
theorem exists_meeting_lines (t u : Text) : ∃ above last first below,
    commentLines t = above ++ [cleanCommentLine last] ∧
    commentLines u = cleanCommentLine first :: below ∧ ∀ between, '\n' ∉ between →
      commentLines (t ++ (between ++ u)) =
        above ++ cleanCommentLine (last ++ (between ++ first)) :: below := by
  obtain ⟨above, last, hlast, habove⟩ := exists_lastLine t
  obtain ⟨first, below, -, hbelow⟩ := exists_firstLine u
  refine ⟨above, last, first, below, ?_, hbelow [] List.not_mem_nil, fun between hbetween => ?_⟩
  · have hnone := habove []
    rwa [List.append_nil, List.append_nil, commentLines_eq_singleton hlast] at hnone
  · have hplain : '\n' ∉ last ++ between := by simp [hlast, hbetween]
    rw [habove, ← List.append_assoc, hbelow _ hplain, List.append_assoc]

/-- Blank lines before a text. -/
theorem commentLines_blanks_append (hgap : ∀ c ∈ gap, isBlank c = true) (t : Text) :
    commentLines (gap ++ t) = List.replicate (gap.count '\n') [] ++ commentLines t := by
  induction gap with
  | nil => rfl
  | cons c gap ih =>
    obtain ⟨hc, hgap⟩ := List.forall_mem_cons.1 hgap
    by_cases hend : c = '\n'
    · rw [hend, List.count_cons_self, List.replicate_succ, List.cons_append, List.cons_append,
        ← ih hgap]
      exact commentLines_append_cons [] (gap ++ t)
    · rw [List.count_cons_of_ne hend, ← ih hgap, commentLines, List.cons_append, splitAt,
        if_neg (by simpa using hend), commentLines]
      cases hsplit : splitAt (· = '\n') (gap ++ t) with
      | nil => exact absurd hsplit (splitAt_ne_nil _ _)
      | cons line lines =>
        have hclean : cleanCommentLine ([c] ++ line) = cleanCommentLine line :=
          cleanCommentLine_blanks_append (by simpa using hc) line
        rw [List.map_cons, List.map_cons]
        exact congrArg (· :: _) hclean

/-- Blanks with a line end set apart what stands around them. -/
theorem commentLines_append_gap (hgap : ∀ c ∈ gap, isBlank c = true) (hend : '\n' ∈ gap)
    (t u : Text) : commentLines (t ++ (gap ++ u)) =
      commentLines t ++ (List.replicate (gap.count '\n' - 1) [] ++ commentLines u) := by
  obtain ⟨before, behind, rfl, hbefore⟩ := List.eq_append_cons_of_mem hend
  obtain ⟨hblank, hblank'⟩ := List.forall_mem_append.1 hgap
  have hbehind := (List.forall_mem_cons.1 hblank').2
  have hcount : (before ++ '\n' :: behind).count '\n' - 1 = behind.count '\n' := by
    rw [List.count_append, List.count_eq_zero_of_not_mem hbefore, List.count_cons_self]
    omega
  have hlast : commentLines (t ++ before) = commentLines t := by
    obtain ⟨lines, line, hline, hlines⟩ := exists_lastLine t
    have hnone := hlines []
    rw [List.append_nil, List.append_nil] at hnone
    have hsingle : '\n' ∉ line ++ before := by simp [hline, hbefore]
    rw [hlines, hnone, commentLines_eq_singleton hline, commentLines_eq_singleton hsingle,
      cleanCommentLine_append_blanks hblank]
  rw [hcount, List.append_assoc, List.cons_append, ← List.append_assoc, commentLines_append_cons,
    hlast, commentLines_blanks_append hbehind]

/-! ### From lines to the text -/

/-- The text that some lines make: without the empty ones at both ends they are joined, and there is
no text if all of them are empty. -/
inductive IsDocOf (lines : List Text) : Option Text → Prop where
  | blank : (∀ line ∈ lines, line = []) → IsDocOf lines none
  | kept {kept : List Text} : kept ≠ [] → IsTrimmed lines kept →
      IsDocOf lines (some (join ['\n'] kept))

/-- The text without the markers around it: an opener at its start and a closer at its end. -/
def stripped (raw : Text) : Text :=
  withoutSuffix "*/" (withoutPrefix ["/**", "/*"] (trim raw))

/-- Counting the empty line behind a last line end or not makes no other difference. -/
theorem exists_commentLines_eq (t : Text) : ∃ more, (∀ line ∈ more, line = []) ∧
    commentLines t = t.lines.map cleanCommentLine ++ more := by
  obtain ⟨more, hmore, hlines⟩ := exists_map_trim_splitAt t
  have hclean : cleanCommentLine = unmarked ∘ trim := funext cleanCommentLine_eq
  refine ⟨more.map unmarked, ?_, ?_⟩
  · simp only [List.forall_mem_map]
    intro line hline
    rw [hmore line hline]
    rfl
  · rw [commentLines, hclean, ← List.map_map, hlines, List.map_append, List.map_map]

/-- The text of comments is made of the cleaned lines of what is left without the outer markers. -/
theorem isDocOf_cleanComment? (raw : Text) :
    IsDocOf (commentLines (stripped raw)) (cleanComment? raw) := by
  obtain ⟨more, hmore, hlines⟩ := exists_commentLines_eq (stripped raw)
  have htrimmed := isTrimmed_rdropWhile_dropWhile ((stripped raw).lines.map cleanCommentLine)
  have hall : IsTrimmed (commentLines (stripped raw))
      (((stripped raw).lines.map cleanCommentLine).dropWhile List.isEmpty |>.reverse.dropWhile
        List.isEmpty).reverse := by
    refine ⟨?_, htrimmed.head, htrimmed.last⟩
    obtain ⟨above, below, hempty, hparts⟩ := htrimmed.parts
    refine ⟨above, below ++ more, ?_, ?_⟩
    · rw [← List.append_assoc]
      exact fun line hline => (List.mem_append.1 hline).elim (hempty line) (hmore line)
    · rw [hlines]
      conv_lhs => rw [hparts]
      simp [List.rdropWhile]
  unfold cleanComment?
  dsimp only
  split
  · next hnil => exact .blank (hall.eq_nil_iff.1 hnil)
  · next kept hne => exact .kept hne hall

/-- The characters of the text that are not blank are those of the lines. -/
theorem IsDocOf.solid_eq {lines : List Text} {doc : Option Text} (h : IsDocOf lines doc) :
    solid (doc.getD []) = solid lines.flatten := by
  cases h with
  | blank hempty =>
    rw [List.flatten_eq_nil_iff.2 hempty]
    rfl
  | kept _ htrimmed =>
    obtain ⟨above, below, hempty, rfl⟩ := htrimmed.parts
    obtain ⟨habove, hbelow⟩ := List.forall_mem_append.1 hempty
    rw [Option.getD_some, solid_join (by rfl), List.flatten_append, List.flatten_append,
      List.flatten_eq_nil_iff.2 habove, List.flatten_eq_nil_iff.2 hbelow, List.nil_append,
      List.append_nil, solid, List.filter_flatten, List.flatMap]
    rfl

end Glossator.Java
