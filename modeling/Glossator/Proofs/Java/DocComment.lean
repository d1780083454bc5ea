import Glossator.Proofs.Java.CommentLines
import Glossator.Proofs.Java.CommentRun
import Glossator.Proofs.Java.Forest

/-!
# What is left of a run of comments

Cleaning drops one opener and one closer of the whole run, and then works line by line. So a block
alone is cleaned, and so are line comments. Of any other run some comment keeps an opener or a
closer, or a line comment that ends like a block loses its end. The slashes tell: a marker that
stays adds one, an end that is lost takes one away.

* `Java.commentLines_stripped_iff`: the runs whose lines are left.
* `Java.runs_cleaned_iff`: the comments before declarations, and what becomes of their text.
-/

set_option autoImplicit false

namespace Glossator.Java

open Text

variable {t u : Text} {notes rest : List Note} {n m : Note}

/-! ### What the comments of a run say -/

namespace Remark

/-- The comment without its markers. -/
def body : Remark → Text
  | block body _ => body
  | line body _ => body

/-- The lines of the comment: those of a block without the stars they start with, or the one line
of a line comment. -/
def lines : Remark → List Text
  | block body _ => commentLines body
  | line body _ => [trim body]

end Remark

/-- The lines of the comments of a run, comment by comment. A blank line between two comments is
an empty line. -/
def runLines : List Note → List Text
  | [] => []
  | [n] => n.remark.lines
  | n :: m :: rest => n.remark.lines ++
      (List.replicate ((n.behind ++ m.before).count '\n' - 1) [] ++ runLines (m :: rest))

/-- A line comment whose last characters look like the closer of a block. -/
def Note.EndsLikeBlock (n : Note) : Prop :=
  n.remark.isLine = true ∧ "*/".toList <:+ trimEnd n.remark.body

/-- A run of line comments of which the last one does not end like a block. -/
def IsPlain (notes : List Note) : Prop :=
  (∀ n ∈ notes, n.remark.isLine = true) ∧ ∀ n ∈ notes.getLast?, ¬ n.EndsLikeBlock

/-- One block alone, or line comments. -/
def IsClean (notes : List Note) : Prop :=
  (∃ n, notes = [n] ∧ n.remark.isLine = false) ∨ IsPlain notes

/-! ### The text of a run without its outer markers -/

/-- A run without the blanks around it. -/
def core : List Note → Text
  | [] => []
  | [n] => trimEnd n.remark.text
  | n :: m :: rest => n.remark.text ++ ((n.behind ++ m.before) ++ core (m :: rest))

theorem Remark.exists_text_eq (remark : Remark) : ∃ c w, isBlank c = false ∧
    remark.text = '/' :: c :: w := by
  cases remark with
  | block body _ => exact ⟨'*', '*' :: (body ++ "*/".toList), by rfl, rfl⟩
  | line body _ => exact ⟨'/', body, by rfl, rfl⟩

theorem exists_core_eq (n : Note) (rest : List Note) :
    ∃ c w, isBlank c = false ∧ core (n :: rest) = '/' :: c :: w := by
  obtain ⟨c, w, hc, htext⟩ := n.remark.exists_text_eq
  cases rest with
  | nil =>
    refine ⟨c, trimEnd w, hc, ?_⟩
    rw [core, htext]
    exact trimEnd_append_cons hc ['/'] w
  | cons m rest => exact ⟨c, _, hc, by rw [core, htext]; rfl⟩

theorem closer_length_le_core (n : Note) (rest : List Note) :
    "*/".toList.length ≤ (core (n :: rest)).length := by
  obtain ⟨c, w, -, hcore⟩ := exists_core_eq n rest
  simp [hcore]

theorem isBlank_getLast?_core (n : Note) (rest : List Note) :
    ∀ c ∈ (core (n :: rest)).getLast?, isBlank c = false := by
  induction rest generalizing n with
  | nil => exact fun _ hc => isBlank_getLast?_trimEnd hc
  | cons m rest ih =>
    intro c hc
    obtain ⟨d, w, -, hcore⟩ := exists_core_eq m rest
    have hne : core (m :: rest) ≠ [] := by simp [hcore]
    rw [core, ← List.append_assoc, List.getLast?_append_of_ne_nil _ hne] at hc
    exact ih m c hc

theorem exists_runText_eq (n : Note) (rest : List Note) : ∃ gap, (∀ c ∈ gap, isBlank c = true) ∧
    runText (n :: rest) = n.before ++ (core (n :: rest) ++ gap) := by
  induction rest generalizing n with
  | nil =>
    obtain ⟨gap, hgap, htext⟩ := exists_trimEnd_append_blanks n.remark.text
    have hbehind := (List.forall_mem_append.1 n.blank).2
    refine ⟨gap ++ n.behind, List.forall_mem_append.2 ⟨hgap, hbehind⟩, ?_⟩
    rw [runText, List.flatMap_singleton, core, Note.text]
    conv_lhs => rw [htext]
    simp
  | cons m rest ih =>
    obtain ⟨gap, hgap, htext⟩ := ih m
    refine ⟨gap, hgap, ?_⟩
    rw [runText, List.flatMap_cons, ← runText, htext, core, Note.text]
    simp

theorem trim_runText (n : Note) (rest : List Note) :
    trim (runText (n :: rest)) = core (n :: rest) := by
  obtain ⟨gap, hgap, htext⟩ := exists_runText_eq n rest
  obtain ⟨c, w, -, hcore⟩ := exists_core_eq n rest
  rw [htext]
  have hhead : ∀ c ∈ (core (n :: rest)).head?, isBlank c = false := by
    rw [hcore, List.head?_cons]
    rintro _ ⟨⟩
    rfl
  exact trim_eq (List.forall_mem_append.1 n.blank).1 hgap hhead (isBlank_getLast?_core n rest)

theorem withoutSuffix_eq_self {finish : String} (h : ¬ finish.toList <:+ t) :
    withoutSuffix finish t = t := by
  have hnone : before? finish.toList t = none := by
    rw [Option.eq_none_iff_forall_ne_some]
    intro front hfront
    exact h ⟨front, (before?_eq_some_iff.1 hfront).symm⟩
  rw [withoutSuffix, hnone]
  rfl

@[simp] theorem withoutSuffix_append_self (finish : String) (t : Text) :
    withoutSuffix finish (t ++ finish.toList) = t := by
  rw [withoutSuffix, before?_eq_some_iff.2 rfl]
  rfl

/-- A suffix of a long enough end is one of the whole. -/
theorem withoutSuffix_append {finish : String} (h : finish.toList.length ≤ u.length) (t : Text) :
    withoutSuffix finish (t ++ u) = t ++ withoutSuffix finish u := by
  by_cases hsuffix : finish.toList <:+ u
  · obtain ⟨front, rfl⟩ := hsuffix
    rw [← List.append_assoc, withoutSuffix_append_self, withoutSuffix_append_self]
  · have hwhole : ¬ finish.toList <:+ t ++ u := fun hmem =>
      hsuffix (List.suffix_of_suffix_length_le hmem (List.suffix_append t u) h)
    rw [withoutSuffix_eq_self hsuffix, withoutSuffix_eq_self hwhole]

/-- A run without the closer of its last block. -/
def unclosed (notes : List Note) : Text := withoutSuffix "*/" (core notes)

theorem unclosed_cons_cons (n m : Note) (rest : List Note) : unclosed (n :: m :: rest) =
    n.remark.text ++ ((n.behind ++ m.before) ++ unclosed (m :: rest)) := by
  rw [unclosed, core, ← List.append_assoc, withoutSuffix_append (closer_length_le_core m rest),
    List.append_assoc]
  rfl

theorem withoutPrefix_opener (t : Text) :
    withoutPrefix ["/**", "/*"] ("/**".toList ++ t) = t := by
  rw [withoutPrefix, List.findSome?_cons, after?_eq_some_iff.2 rfl]
  rfl

theorem withoutPrefix_marker (t : Text) :
    withoutPrefix ["/**", "/*"] ('/' :: '/' :: t) = '/' :: '/' :: t := rfl

theorem core_block {body : Text} {closed} (hn : n.remark = .block body closed) :
    core [n] = "/**".toList ++ body ++ "*/".toList := by
  have hlast : "/**".toList ++ body ++ "*/".toList = ("/**".toList ++ body ++ ['*']) ++ ['/'] := by
    simp
  rw [core, hn, Remark.text, hlast, trimEnd_append_cons (by rfl)]
  simp [trimEnd, dropEndWhile]

theorem core_line {body : Text} {single} (hn : n.remark = .line body single) :
    core [n] = '/' :: '/' :: trimEnd body := by
  rw [core, hn]
  exact trimEnd_append_cons (by rfl) ['/'] body

/-- Of a block alone, both markers are dropped. -/
theorem stripped_block {body : Text} {closed} (hn : n.remark = .block body closed) :
    stripped (runText [n]) = body := by
  rw [stripped, trim_runText, core_block hn, List.append_assoc, withoutPrefix_opener,
    withoutSuffix_append_self]

/-- Of a block that other comments follow, the closer stays. -/
theorem stripped_block_cons {body : Text} {closed} (hn : n.remark = .block body closed) :
    stripped (runText (n :: m :: rest)) =
      body ++ ("*/".toList ++ ((n.behind ++ m.before) ++ unclosed (m :: rest))) := by
  have hcore : core (n :: m :: rest) = "/**".toList ++
      (body ++ ("*/".toList ++ ((n.behind ++ m.before) ++ core (m :: rest)))) := by
    simp [core, hn, Remark.text]
  have hpull : body ++ ("*/".toList ++ ((n.behind ++ m.before) ++ core (m :: rest))) =
      (body ++ ("*/".toList ++ (n.behind ++ m.before))) ++ core (m :: rest) := by simp
  rw [stripped, trim_runText, hcore, withoutPrefix_opener, hpull,
    withoutSuffix_append (closer_length_le_core m rest), unclosed]
  simp

/-- Behind a line comment, the openers stay, and every closer but the last one. -/
theorem stripped_line {body : Text} {single} (hn : n.remark = .line body single)
    (rest : List Note) : stripped (runText (n :: rest)) = unclosed (n :: rest) := by
  obtain ⟨w, hcore⟩ : ∃ w, core (n :: rest) = '/' :: '/' :: w := by
    cases rest with
    | nil => exact ⟨_, core_line hn⟩
    | cons m rest => exact ⟨_, by rw [core, hn]; rfl⟩
  rw [stripped, trim_runText, hcore, withoutPrefix_marker, unclosed, hcore]

/-! ### The lines of a run -/

/-- A line comment is one line, its text trimmed. -/
theorem commentLines_line {body : Text} {single} (hn : n.remark = .line body single) :
    commentLines n.remark.text = n.remark.lines := by
  have hnone : '\n' ∉ '/' :: '/' :: body := by simp [single]
  rw [hn]
  exact (commentLines_eq_singleton hnone).trans
    (congrArg (fun line => [line]) (cleanCommentLine_marker body))

theorem Note.blank_gap (n m : Note) : ∀ c ∈ n.behind ++ m.before, isBlank c = true :=
  List.forall_mem_append.2
    ⟨(List.forall_mem_append.1 n.blank).2, (List.forall_mem_append.1 m.blank).1⟩

/-- Behind the line of a line comment, the later comments are cleaned apart. -/
theorem commentLines_unclosed_line {body : Text} {single} (hn : n.remark = .line body single)
    (hend : n.endsLine) : commentLines (unclosed (n :: m :: rest)) = n.remark.lines ++
      (List.replicate ((n.behind ++ m.before).count '\n' - 1) [] ++
        commentLines (unclosed (m :: rest))) := by
  have hmem : '\n' ∈ n.behind ++ m.before := List.mem_append_left _ (hend (by rw [hn]; rfl))
  rw [unclosed_cons_cons, commentLines_append_gap (n.blank_gap m) hmem, commentLines_line hn]

theorem isPlain_cons_cons : IsPlain (n :: m :: rest) ↔
    n.remark.isLine = true ∧ IsPlain (m :: rest) := by
  rw [IsPlain, List.getLast?_cons_cons, List.forall_mem_cons, and_assoc]
  rfl

/-- The opener of a block that does not start the run stays on its first line. -/
theorem commentLines_opener_ne (body t : Text) (lines : List Text) :
    commentLines ("/**".toList ++ (body ++ t)) ≠ commentLines body ++ lines := by
  intro heq
  by_cases hmem : '\n' ∈ body
  · obtain ⟨first, rest, rfl, hfirst⟩ := List.eq_append_cons_of_mem hmem
    have hopened : '\n' ∉ "/**".toList ++ first := by simp [hfirst]
    rw [List.append_assoc, List.cons_append, ← List.append_assoc, commentLines_append_cons,
      commentLines_append_cons, commentLines_eq_singleton hopened,
      commentLines_eq_singleton hfirst] at heq
    have hslashes := count_slash_opener first
    have hle := count_slash_cleanCommentLine_le first
    rw [(List.cons.inj heq).1] at hslashes
    omega
  · obtain ⟨first, below, -, hbelow⟩ := exists_firstLine t
    have hopened : '\n' ∉ "/**".toList ++ body := by simp [hmem]
    rw [← List.append_assoc, hbelow _ hopened, commentLines_eq_singleton hmem,
      List.append_assoc] at heq
    have hslashes := count_slash_opener (body ++ first)
    have hle := count_slash_cleanCommentLine_le body
    rw [(List.cons.inj heq).1, List.count_append] at hslashes
    omega

/-- The closer of a block that does not end the run stays on its last line. -/
theorem commentLines_closer_ne (body t : Text) (lines : List Text) :
    commentLines (body ++ ("*/".toList ++ t)) ≠ commentLines body ++ lines := by
  intro heq
  obtain ⟨above, last, first, below, habove, -, hmeet⟩ := exists_meeting_lines body t
  rw [habove, hmeet _ (by simp), List.append_assoc, List.append_cancel_left_eq,
    List.singleton_append, List.cons.injEq] at heq
  have hslashes := count_slash_closer last first
  rw [heq.1] at hslashes
  omega

/-! ### Slashes -/

/-- The slashes of several lines. -/
def slashes (lines : List Text) : Nat := lines.flatten.count '/'

@[simp] theorem slashes_cons (line : Text) (lines : List Text) :
    slashes (line :: lines) = line.count '/' + slashes lines := by
  rw [slashes, List.flatten_cons, List.count_append, slashes]

@[simp] theorem slashes_append (lines more : List Text) :
    slashes (lines ++ more) = slashes lines + slashes more := by
  rw [slashes, List.flatten_append, List.count_append, slashes, slashes]

@[simp] theorem slashes_blank (count : Nat) : slashes (List.replicate count []) = 0 := by
  rw [slashes, List.flatten_replicate_nil, List.count_nil]

theorem slashes_opener (t : Text) :
    slashes (commentLines t) < slashes (commentLines ("/**".toList ++ t)) := by
  obtain ⟨line, lines, -, hlines⟩ := exists_firstLine t
  have hplain := hlines [] List.not_mem_nil
  rw [List.nil_append, List.nil_append] at hplain
  have hle := count_slash_cleanCommentLine_le line
  rw [hplain, hlines _ (by simp), slashes_cons, slashes_cons, count_slash_opener]
  omega

theorem slashes_closer (t u : Text) : slashes (commentLines t) + slashes (commentLines u) <
    slashes (commentLines (t ++ ("*/".toList ++ u))) := by
  obtain ⟨above, last, first, below, habove, hbelow, hmeet⟩ := exists_meeting_lines t u
  have hle := count_slash_cleanCommentLine_le first
  have hlt := count_slash_closer last first
  rw [habove, hbelow, hmeet _ (by simp), slashes_append, slashes_append, slashes_cons, slashes_cons,
    slashes_cons]
  have hnone : slashes [] = 0 := rfl
  omega

theorem slashes_blanks_append {gap : Text} (hgap : ∀ c ∈ gap, isBlank c = true) (t : Text) :
    slashes (commentLines (gap ++ t)) = slashes (commentLines t) := by
  rw [commentLines_blanks_append hgap, slashes_append, slashes_blank, Nat.zero_add]

/-! ### Which runs are cleaned -/

/-- A line comment at the end of the run loses what looks like the closer of a block. -/
theorem unclosed_line {body : Text} {single} (hn : n.remark = .line body single) :
    (¬ n.EndsLikeBlock ∧ unclosed [n] = '/' :: '/' :: trimEnd body) ∨
      n.EndsLikeBlock ∧ ∃ front, trimEnd body = front ++ "*/".toList ∧
        unclosed [n] = '/' :: '/' :: front := by
  have hends : n.EndsLikeBlock ↔ "*/".toList <:+ trimEnd body := by
    rw [Note.EndsLikeBlock, hn]
    simp [Remark.isLine, Remark.body]
  rw [hends, unclosed, core_line hn]
  by_cases hsuffix : "*/".toList <:+ trimEnd body
  · obtain ⟨front, hfront⟩ := hsuffix
    refine .inr ⟨⟨front, hfront⟩, front, hfront.symm, ?_⟩
    rw [← hfront]
    exact withoutSuffix_append_self "*/" ('/' :: '/' :: front)
  · refine .inl ⟨hsuffix, withoutSuffix_eq_self fun hwhole => hsuffix ?_⟩
    obtain ⟨front, hfront⟩ := hwhole
    rcases front with _ | ⟨c, _ | ⟨d, front⟩⟩
    · simp at hfront
    · simp at hfront
    · refine ⟨front, ?_⟩
      simpa using (List.cons.inj (List.cons.inj hfront).2).2

theorem unclosed_block {body : Text} {closed} (hn : n.remark = .block body closed) :
    unclosed [n] = "/**".toList ++ body := by
  rw [unclosed, core_block hn, withoutSuffix_append_self]

theorem unclosed_block_cons {body : Text} {closed} (hn : n.remark = .block body closed) :
    unclosed (n :: m :: rest) = "/**".toList ++
      (body ++ ("*/".toList ++ ((n.behind ++ m.before) ++ unclosed (m :: rest)))) := by
  rw [unclosed_cons_cons, hn]
  simp [Remark.text]

/-- A line comment at the end of the run is cleaned unless it ends like a block. -/
theorem commentLines_last_line {body : Text} {single} (hn : n.remark = .line body single) :
    (¬ n.EndsLikeBlock ∧ commentLines (unclosed [n]) = runLines [n]) ∨
      n.EndsLikeBlock ∧ slashes (commentLines (unclosed [n])) < slashes (runLines [n]) := by
  obtain ⟨blanks, -, hbody⟩ := exists_trimEnd_append_blanks body
  have hclean {front : Text} (h : front <+: trimEnd body) :
      commentLines ('/' :: '/' :: front) = [trim front] := by
    have hmem : '\n' ∉ front := fun hmem =>
      single (by rw [hbody]; exact List.mem_append_left _ (h.mem hmem))
    rw [commentLines_eq_singleton (by simp [hmem]), cleanCommentLine_marker]
  rw [runLines, hn, Remark.lines]
  rcases unclosed_line hn with ⟨hends, htext⟩ | ⟨hends, front, hfront, htext⟩
  · exact .inl ⟨hends, by rw [htext, hclean (List.prefix_refl _), trim_trimEnd]⟩
  · refine .inr ⟨hends, ?_⟩
    rw [htext, hclean ⟨_, hfront.symm⟩, slashes_cons, slashes_cons, count_trim (by rfl),
      ← trim_trimEnd body, hfront, count_trim (by rfl), List.count_append]
    simp

/-- Line comments are cleaned one by one, unless the last one ends like a block. -/
theorem commentLines_unclosed_iff (hrun : IsRun (n :: rest)) :
    commentLines (unclosed (n :: rest)) = runLines (n :: rest) ↔ IsPlain (n :: rest) := by
  induction rest generalizing n with
  | nil =>
    cases hn : n.remark with
    | block body closed =>
      have hne := commentLines_opener_ne body [] []
      rw [List.append_nil, List.append_nil] at hne
      rw [unclosed_block hn, runLines, hn]
      exact iff_of_false hne fun hplain => by simpa [hn, Remark.isLine] using hplain.1 n
    | line body single =>
      have hplain : IsPlain [n] ↔ ¬ n.EndsLikeBlock := by
        simp [IsPlain, hn, Remark.isLine]
      rw [hplain]
      rcases commentLines_last_line hn with ⟨hends, hlines⟩ | ⟨hends, hlt⟩
      · exact iff_of_true hlines hends
      · exact iff_of_false (fun heq => by rw [heq] at hlt; omega) (not_not_intro hends)
  | cons m rest ih =>
    obtain ⟨hend, hrun⟩ := List.isChain_cons_cons.1 hrun
    cases hn : n.remark with
    | block body closed =>
      rw [unclosed_block_cons hn, isPlain_cons_cons, hn, runLines, hn]
      exact iff_of_false (commentLines_opener_ne _ _ _) fun hplain => by cases hplain.1
    | line body single =>
      rw [commentLines_unclosed_line hn hend, runLines, List.append_cancel_left_eq,
        List.append_cancel_left_eq, ih hrun, isPlain_cons_cons, hn]
      simp [Remark.isLine]

/-- Behind a block, the closer adds to the slashes of the comments. -/
theorem slashes_behind_block {body : Text} {closed} (hn : n.remark = .block body closed)
    (hrun : IsRun (m :: rest)) (h : ¬ IsPlain (m :: rest) →
      slashes (runLines (m :: rest)) < slashes (commentLines (unclosed (m :: rest)))) :
    slashes (runLines (n :: m :: rest)) < slashes (commentLines
      (body ++ ("*/".toList ++ ((n.behind ++ m.before) ++ unclosed (m :: rest))))) := by
  have hlater : slashes (runLines (m :: rest)) ≤ slashes (commentLines (unclosed (m :: rest))) := by
    by_cases hplain : IsPlain (m :: rest)
    · rw [(commentLines_unclosed_iff hrun).2 hplain]
    · exact (h hplain).le
  have hcloser := slashes_closer body ((n.behind ++ m.before) ++ unclosed (m :: rest))
  rw [slashes_blanks_append (n.blank_gap m)] at hcloser
  rw [runLines, hn, slashes_append, slashes_append, slashes_blank, Remark.lines]
  omega

/-- With a block among them, comments keep a marker. -/
theorem slashes_unclosed (hrun : IsRun (n :: rest))
    (hlast : ∀ l ∈ (n :: rest).getLast?, ¬ l.EndsLikeBlock) (hplain : ¬ IsPlain (n :: rest)) :
    slashes (runLines (n :: rest)) < slashes (commentLines (unclosed (n :: rest))) := by
  induction rest generalizing n with
  | nil =>
    cases hn : n.remark with
    | block body closed =>
      rw [unclosed_block hn, runLines, hn]
      exact slashes_opener body
    | line body single => exact absurd ⟨by simp [hn, Remark.isLine], hlast⟩ hplain
  | cons m rest ih =>
    obtain ⟨hend, hrun'⟩ := List.isChain_cons_cons.1 hrun
    rw [List.getLast?_cons_cons] at hlast
    cases hn : n.remark with
    | block body closed =>
      rw [unclosed_block_cons hn]
      exact (slashes_behind_block hn hrun' fun hlater => ih hrun' hlast hlater).trans
        (slashes_opener _)
    | line body single =>
      have hlater : ¬ IsPlain (m :: rest) := fun hlater =>
        hplain (isPlain_cons_cons.2 ⟨by simp [hn, Remark.isLine], hlater⟩)
      rw [commentLines_unclosed_line hn hend, runLines, slashes_append, slashes_append,
        slashes_append, slashes_append]
      have := ih hrun' hlast hlater
      omega

/-- Of line comments the last of which ends like a block, something is lost. -/
theorem slashes_unclosed_lines (hrun : IsRun (n :: rest))
    (hlines : ∀ l ∈ n :: rest, l.remark.isLine = true) (hplain : ¬ IsPlain (n :: rest)) :
    slashes (commentLines (unclosed (n :: rest))) < slashes (runLines (n :: rest)) := by
  induction rest generalizing n with
  | nil =>
    cases hn : n.remark with
    | block body closed => simpa [hn, Remark.isLine] using hlines n
    | line body single =>
      rcases commentLines_last_line hn with ⟨hends, -⟩ | ⟨-, hlt⟩
      · exact absurd ⟨hlines, by simpa using hends⟩ hplain
      · exact hlt
  | cons m rest ih =>
    obtain ⟨hend, hrun⟩ := List.isChain_cons_cons.1 hrun
    obtain ⟨hline, hlines⟩ := List.forall_mem_cons.1 hlines
    cases hn : n.remark with
    | block body closed => simp [hn, Remark.isLine] at hline
    | line body single =>
      have hlater : ¬ IsPlain (m :: rest) := fun hlater =>
        hplain (isPlain_cons_cons.2 ⟨hline, hlater⟩)
      rw [commentLines_unclosed_line hn hend, runLines, slashes_append, slashes_append,
        slashes_append, slashes_append]
      have := ih hrun hlines hlater
      omega

/-! ### The docstring of a run -/

/-- The lines of the comments are left exactly if the run is one block or line comments that do not
end like one. -/
theorem commentLines_stripped_iff (hrun : IsRun (n :: rest)) :
    commentLines (stripped (runText (n :: rest))) = runLines (n :: rest) ↔
      IsClean (n :: rest) := by
  cases hn : n.remark with
  | line body single =>
    rw [stripped_line hn, commentLines_unclosed_iff hrun, IsClean, or_iff_right]
    rintro ⟨l, hl, hblock⟩
    rw [← (List.cons.inj hl).1, hn] at hblock
    cases hblock
  | block body closed =>
    have hplain : ¬ IsPlain (n :: rest) := fun hplain => by
      simpa [hn, Remark.isLine] using hplain.1 n
    rw [IsClean, or_iff_left hplain]
    cases rest with
    | nil =>
      rw [stripped_block hn, runLines, hn]
      exact iff_of_true rfl ⟨n, rfl, by rw [hn]; rfl⟩
    | cons m rest =>
      rw [stripped_block_cons hn, runLines, hn]
      exact iff_of_false (commentLines_closer_ne _ _ _) (by simp)

/-- The slashes that are left of a run that is not cleaned are too many or too few. -/
theorem slashes_stripped_ne (hrun : IsRun (n :: rest)) (hclean : ¬ IsClean (n :: rest))
    (hlast : (∀ l ∈ (n :: rest).getLast?, ¬ l.EndsLikeBlock) ∨
      ∀ l ∈ n :: rest, l.remark.isLine = true) :
    slashes (commentLines (stripped (runText (n :: rest)))) ≠ slashes (runLines (n :: rest)) := by
  obtain ⟨hsingle, hplain⟩ := not_or.1 hclean
  cases hn : n.remark with
  | line body single =>
    rw [stripped_line hn]
    rcases hlast with hlast | hlines
    · exact (slashes_unclosed hrun hlast hplain).ne'
    · exact (slashes_unclosed_lines hrun hlines hplain).ne
  | block body closed =>
    have hlast : ∀ l ∈ (n :: rest).getLast?, ¬ l.EndsLikeBlock :=
      hlast.resolve_right fun hlines => by simpa [hn, Remark.isLine] using hlines n
    cases rest with
    | nil => exact absurd ⟨n, rfl, by rw [hn]; rfl⟩ hsingle
    | cons m rest =>
      rw [List.getLast?_cons_cons] at hlast
      rw [stripped_block_cons hn]
      exact (slashes_behind_block hn (List.isChain_cons_cons.1 hrun).2 fun hlater =>
        slashes_unclosed (List.isChain_cons_cons.1 hrun).2 hlast hlater).ne'

/-- Unless a block and a last comment that ends like one occur together, the text of a run is that
of its comments exactly if the run is cleaned. -/
theorem isDocOf_runLines_iff (hrun : IsRun (n :: rest))
    (hlast : (∀ l ∈ (n :: rest).getLast?, ¬ l.EndsLikeBlock) ∨
      ∀ l ∈ n :: rest, l.remark.isLine = true) :
    IsDocOf (runLines (n :: rest)) (cleanComment? (runText (n :: rest))) ↔
      IsClean (n :: rest) := by
  have hdoc := isDocOf_cleanComment? (runText (n :: rest))
  constructor
  · intro hsaid
    by_contra hclean
    have hcount (lines : List Text) : (solid lines.flatten).count '/' = slashes lines :=
      List.count_filter (by decide)
    have hsolid := hsaid.solid_eq.symm.trans hdoc.solid_eq
    apply slashes_stripped_ne hrun hclean hlast
    rw [← hcount, ← hcount, hsolid]
  · intro hclean
    rw [(commentLines_stripped_iff hrun).2 hclean] at hdoc
    exact hdoc

/-- What describes a declaration is the cleaned text of the run of comments before it. -/
structure Describes (t : Text) (m : Match HeaderPart) (notes : List Note) (doc : Option Text) :
    Prop where
  run : IsRun notes
  text : m.text t .comments = runText notes
  doc : doc = cleanComment? (runText notes)

/-- A header that a search finds has a run of comments, perhaps without any. -/
theorem exists_describes {header : HeaderPattern} {t : Text} {offset : Nat} {m : Match HeaderPart}
    (hheader : header ∈ [methodHeader, typeHeader])
    (hm : (Finder.ofPattern header t).find? offset = some m) :
    ∃ notes, Describes t m notes ((m.text? t .comments).bind cleanComment?) := by
  cases hraw : m.text? t .comments with
  | none => exact ⟨[], List.isChain_nil, by rw [Match.text, hraw]; rfl, rfl⟩
  | some raw =>
    obtain ⟨notes, hrun, rfl⟩ := exists_run_of_comments hheader hm hraw
    exact ⟨notes, hrun, by rw [Match.text, hraw]; rfl, rfl⟩

/-- The docstring of every method and the description of every type is the cleaned text of a run of
comments. The text of a run is made of the lines that are left when the outer markers are dropped,
and it is none if these are all blank. They are the lines of the comments, each without its
own markers, exactly if the run is one block or line comments of which the last one does not end
like a block. Unless a block and such a last comment occur together, the text of the run is that of
its comments exactly in these cases. -/
theorem runs_cleaned_iff (t : Text) :
    (∀ f ∈ findings (.ofText t), ∃ notes doc,
      Describes f.stretch.text f.method.header notes doc ∧
        (f.record (.ofText t)).docstring = doc.map String.ofList) ∧
    (∀ o ∈ openTypes (.ofText t) none (.whole t), ∃ m ∈ typeHeaders (.ofText t) o.outer,
      typeDeclaration? o.outer m = some o.declaration ∧
        ∃ notes, Describes o.outer.text m notes o.scope.description) ∧
    ∀ notes, notes ≠ [] → IsRun notes →
      IsDocOf (commentLines (stripped (runText notes))) (cleanComment? (runText notes)) ∧
      (commentLines (stripped (runText notes)) = runLines notes ↔ IsClean notes) ∧
      ((∀ n ∈ notes.getLast?, ¬ n.EndsLikeBlock) ∨ (∀ n ∈ notes, n.remark.isLine = true) →
        (IsDocOf (runLines notes) (cleanComment? (runText notes)) ↔ IsClean notes)) := by
  refine ⟨fun f hf => ?_, fun o ho => ?_, fun notes hne hrun => ?_⟩
  · obtain ⟨_, -, -, hmethod⟩ := exists_reached_of_mem_findings hf
    obtain ⟨_, hfound⟩ := exists_found_of_mem_methods hmethod
    obtain ⟨offset, hfind⟩ := hfound.find
    obtain ⟨notes, hnotes⟩ := exists_describes (by simp) hfind
    exact ⟨notes, _, hnotes, rfl⟩
  · obtain ⟨chain, -, hd, hscope⟩ := mem_openTypes_iff.1 ho
    obtain ⟨m, hm, htype⟩ := List.mem_filterMap.1 (mem_of_mem_directTypes hd)
    obtain ⟨⟨offset, hfind⟩, -⟩ := of_mem_typeHeaders hm
    obtain ⟨notes, hnotes⟩ := exists_describes (by simp) hfind
    refine ⟨m, hm, htype, notes, ?_⟩
    obtain ⟨block, -, hdeclaration⟩ := Option.map_eq_some_iff.1 htype
    rw [hscope, ← hdeclaration]
    exact hnotes
  · obtain ⟨n, rest, rfl⟩ := List.exists_cons_of_ne_nil hne
    exact ⟨isDocOf_cleanComment? _, commentLines_stripped_iff hrun, isDocOf_runLines_iff hrun⟩

/-- Of two blocks, the first keeps its closer and the second its opener. -/
example : cleanComment? "/** Adds. */\n/** Carefully. */".toList =
    some "Adds. */\n/** Carefully.".toList := by decide

end Glossator.Java
