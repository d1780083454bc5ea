import Glossator.Proofs.Java.HeaderParts
import Glossator.Proofs.Pattern.LineRuns

/-!
# Headers in texts with returns

The headers of types, methods and packages are the same in a text and in the text with a carriage
return before each newline. Wherever a header allows blanks it allows the return as well, with one
exception: between `throws` and the names behind it one blank is enough, and any text may stand for
the names. So a newline right behind `throws` and right before the brace makes no header, but with
the return it does.

* `Java.keeps_typeHeader`, `Java.keeps_packageHeader`: these headers are the same.
* `Java.carries_methodHeader`: so are those of methods if no line ends in a `throws` without names.
-/

set_option autoImplicit false

namespace Glossator.Java

open Pattern

variable {t : Text}

/-! ### Blanks -/

theorem isBlank_return : isBlank '\r' = true := by decide

theorem isBlank_newline : isBlank '\n' = true := by decide

theorem carries_blanks : Carries t (blanks : HeaderPattern) :=
  .many isBlank_return isBlank_newline

theorem settles_blanks : Settles t (blanks : HeaderPattern) :=
  .many isBlank_return isBlank_newline

theorem carries_someBlanks : Carries t (someBlanks : HeaderPattern) :=
  .someOf isBlank_return isBlank_newline

theorem keeps_word : Keeps t (word : HeaderPattern) := .someOf (by decide) (by decide)

theorem staysOut_word : StaysOut t (word : HeaderPattern) := .someOf (by decide)

theorem keeps_indentation : Keeps t indentation := .many (by decide) (by decide)

/-! ### Comments -/

theorem keeps_docComment : Keeps t docComment := by
  have hopen : Carries t (text "/**" ++ many (· ≠ '*') : HeaderPattern) :=
    .of_keeps_append (.text (by simp [Text.OnOneLine])) (.many rfl rfl)
  have hstars : Keeps t (someOf (· = '*') : HeaderPattern) := .someOf rfl rfl
  have hout : StaysOut t (someOf (· = '*') : HeaderPattern) := .someOf rfl
  have hinside : Carries t (one (fun c => c ≠ '/' && c ≠ '*') ++ many (· ≠ '*') : HeaderPattern) :=
    .one_append_many rfl rfl rfl rfl
  exact ((hopen.append_keeps hstars hout).append (hinside.append_keeps hstars hout).star).append
    (.text (by simp [Text.OnOneLine]))

theorem staysOut_docComment : StaysOut t docComment :=
  ((((StaysOut.text (by simp [Text.OnOneLine]) (by simp)).append _).append _).append _).append _

theorem staysOut_lineComment : StaysOut t lineComment :=
  (StaysOut.text (by simp [Text.OnOneLine]) (by simp)).append _

/-- A comment and the blanks behind it. -/
theorem carries_comment_blanks : Carries t ((docComment ||| lineComment) ++ blanks) := by
  have hline : Carries t (lineComment ++ blanks) :=
    (LeadsAs.append_assoc _ _ _).carries (.of_keeps_append (.text (by simp [Text.OnOneLine]))
      (.restOfLine_append isBlank_return isBlank_newline))
  exact (LeadsAs.orElse_append _ _ _).carries
    (Carries.orElse (.of_keeps_append keeps_docComment carries_blanks) hline)

theorem keeps_lineComment_newline : Keeps t (lineComment ++ text "\n") :=
  (LeadsAs.append_assoc _ _ _).keeps
    ((Keeps.text (by simp [Text.OnOneLine])).append .restOfLine_newline)

/-! ### Annotations -/

theorem carries_nested_zero : Carries t (nested 0) := by
  rw [nested]
  exact .many rfl rfl

theorem staysOut_open (p : HeaderPattern) : StaysOut t (text "(" ++ p) :=
  (StaysOut.text (by simp [Text.OnOneLine]) (by simp)).append p

/-- A group in parentheses. -/
theorem keeps_group {p : HeaderPattern} (h : Carries t p) : Keeps t (text "(" ++ p ++ text ")") :=
  (Carries.of_keeps_append (.text (by simp [Text.OnOneLine])) h).append_keeps
    (.text (by simp [Text.OnOneLine])) (.text (by simp [Text.OnOneLine]) (by simp))

theorem staysOut_groups (depth : Nat) :
    StaysOut t (text "(" ++ nested depth ++ text ")" ++ nested 0) :=
  ((staysOut_open _).append _).append _

theorem carries_nested (depth : Nat) : Carries t (nested depth) := by
  induction depth with
  | zero => exact carries_nested_zero
  | succ depth ih =>
    have hbody : Carries t (text "(" ++ nested depth ++ text ")" ++ nested 0) :=
      .of_keeps_append (keeps_group ih) carries_nested_zero
    rw [nested]
    exact carries_nested_zero.append (hbody.star (staysOut_groups depth))
      (.star (staysOut_groups depth))

theorem keeps_annotationMark : Keeps t annotationMark :=
  ((Keeps.text (by simp [Text.OnOneLine])).append (.someOf (by decide) (by decide))).append
    (keeps_group (carries_nested 1)).maybe

theorem staysOut_annotationMark : StaysOut t annotationMark :=
  ((StaysOut.text (by simp [Text.OnOneLine]) (by simp)).append _).append _

/-! ### Modifiers -/

/-- The words are not empty, and none of them has an end of a line. -/
def AreKeywords (words : List String) : Prop :=
  ∀ s ∈ words, Text.OnOneLine s.toList ∧ s.toList ≠ []

theorem areKeywords_typeModifiers : AreKeywords typeModifiers := by
  simp [AreKeywords, typeModifiers, Text.OnOneLine]

theorem areKeywords_methodModifiers : AreKeywords methodModifiers := by
  simp [AreKeywords, methodModifiers, Text.OnOneLine]

section Modifiers

variable {words : List String}

/-- A modifier or a blank. -/
theorem glides_modifier (h : AreKeywords words) :
    Glides t (anyText words ++ wordEdge ||| one isBlank : HeaderPattern) :=
  .orElse ((Keeps.anyText fun s hs => (h s hs).1).append .wordEdge)
    ((StaysOut.anyText h).append _) (.one isBlank_return isBlank_newline)

theorem carries_modifierWords (h : AreKeywords words) : Carries t (maybe (modifierWords words)) :=
  ((glides_modifier h).carries_plus.part _).maybe

theorem settles_modifierWords (h : AreKeywords words) : Settles t (maybe (modifierWords words)) :=
  (glides_modifier h).settles_maybe_part _

end Modifiers

/-! ### Types -/

/-- One of the comments before a type. -/
theorem carries_typeComment : Carries t (docComment ++ blanks ||| lineComment ++ text "\n") :=
  (Carries.of_keeps_append keeps_docComment carries_blanks).orElse keeps_lineComment_newline.carries

theorem staysOut_typeComment : StaysOut t (docComment ++ blanks ||| lineComment ++ text "\n") :=
  (staysOut_docComment.append _).orElse (staysOut_lineComment.append _)

theorem carries_typeAnnotations : Carries t (Pattern.star (annotationMark ++ blanks)) :=
  (Carries.of_keeps_append keeps_annotationMark carries_blanks).star
    (staysOut_annotationMark.append _)

theorem settles_typeAnnotations : Settles t (Pattern.star (annotationMark ++ blanks)) :=
  .star (staysOut_annotationMark.append _)

theorem keeps_typePreamble : Keeps t typePreamble := by
  have hcomments : Carries t (named .comments
      (Pattern.star (docComment ++ blanks ||| lineComment ++ text "\n"))) :=
    (carries_typeComment.star staysOut_typeComment).part _
  have hmodifiers := hcomments.append carries_typeAnnotations settles_typeAnnotations |>.append
    (carries_modifierWords areKeywords_typeModifiers)
    (settles_modifierWords areKeywords_typeModifiers)
  exact (hmodifiers.append carries_blanks settles_blanks).append_keeps .wordEdge .wordEdge

/-- Headers of types are the same with the returns. -/
theorem keeps_typeHeader : Keeps t typeHeader := by
  have hkind : Keeps t (named .kind (anyText ["class", "interface", "enum"])) :=
    (Keeps.anyText (by simp [Text.OnOneLine])).part _
  have hname : Keeps t (typePreamble ++ named .kind (anyText ["class", "interface", "enum"]) ++
      someBlanks ++ named .name word) :=
    (Carries.of_keeps_append (keeps_typePreamble.append hkind) carries_someBlanks).append_keeps
      (keeps_word.part _) (staysOut_word.part _)
  have hopen : Keeps t (blanks ++ text "<" : HeaderPattern) :=
    carries_blanks.append_keeps (.text (by simp [Text.OnOneLine]))
      (.text (by simp [Text.OnOneLine]) (by simp))
  have hparameters :
      Keeps t (blanks ++ text "<" ++ someOf (· ≠ '>') ++ text ">" : HeaderPattern) :=
    (Carries.of_keeps_append hopen (.someOf rfl rfl)).append_keeps
      (.text (by simp [Text.OnOneLine])) (.text (by simp [Text.OnOneLine]) (by simp))
  rw [typeHeader_eq]
  exact hname.append hparameters.maybe

/-- What stands in a header of a type from its keyword on. -/
def fromKeyword : HeaderPattern :=
  wordEdge ++ (named .kind (anyText ["class", "interface", "enum"]) ++ (someBlanks ++
    (named .name word ++ maybe (blanks ++ text "<" ++ someOf (· ≠ '>') ++ text ">"))))

/-- A header of a type that is found past a return is found before it, too. -/
theorem matchesEarlier_typeHeader : MatchesEarlier t typeHeader := by
  have hcomments : Lifts t (named .comments
      (Pattern.star (docComment ++ blanks ||| lineComment ++ text "\n"))) :=
    (Lifts.star staysOut_typeComment).part _
  have hannotations : Lifts t (Pattern.star (annotationMark ++ blanks)) :=
    .star (staysOut_annotationMark.append _)
  have hmodifiers : Lifts t (maybe (modifierWords typeModifiers)) :=
    .maybe_part_plus ((StaysOut.anyText areKeywords_typeModifiers).append _) isBlank_return
      isBlank_newline _
  have hheader : LeadsAs typeHeader (named .comments
      (Pattern.star (docComment ++ blanks ||| lineComment ++ text "\n")) ++
      Pattern.star (annotationMark ++ blanks) ++ maybe (modifierWords typeModifiers) ++
        (blanks ++ fromKeyword)) := by
    intro β o next
    simp only [typeHeader_eq, typePreamble, fromKeyword, append_eq, lead_andThen]
  have hplace : ByPlace (some : Outcome HeaderPart → Option (Outcome HeaderPart)) :=
    fun _ _ _ h => absurd h (Option.some_ne_none _)
  have hblanks : Climbs t (lead (blanks ++ fromKeyword : HeaderPattern) · some) := by
    simpa only [blanks, append_eq, lead_andThen] using climbs_many isBlank_return _
  apply MatchesEarlier.of_climbs
  simpa only [hheader _ some, append_eq, lead_andThen] using
    ((hcomments.append hannotations).append hmodifiers) (byPlace_lead _ hplace) hblanks

/-! ### Packages -/

/-- Headers of packages are the same with the returns. -/
theorem keeps_packageHeader : Keeps t packageHeader := by
  have hstart : Keeps t (lineStart ++ blanks ++ text "package" : HeaderPattern) :=
    (Carries.of_keeps_append .lineStart carries_blanks).append_keeps
      (.text (by simp [Text.OnOneLine])) (.text (by simp [Text.OnOneLine]) (by simp))
  have hname : Keeps t (lineStart ++ blanks ++ text "package" ++ someBlanks ++
      named .name (someOf fun c => isWord c || c = '.') : HeaderPattern) :=
    (Carries.of_keeps_append hstart carries_someBlanks).append_keeps
      ((Keeps.someOf (by decide) (by decide)).part _) ((StaysOut.someOf (by decide)).part _)
  exact (Carries.of_keeps_append hname carries_blanks).append_keeps
    (.text (by simp [Text.OnOneLine])) (.text (by simp [Text.OnOneLine]) (by simp))

theorem staysOut_packageHeader : StaysOut t packageHeader :=
  ((((StaysOut.lineStart.append _).append _).append _).append _).append _ |>.append _

/-! ### Methods -/

/-- The comments on the lines before a method: each is on a line of its own. -/
theorem carries_methodComments : Carries t methodComments ∧ Settles t methodComments ∧
    Stays t methodComments := by
  have hindent : Keeps t (lineStart ++ indentation) := Keeps.lineStart.append keeps_indentation
  have hcomment : Carries t (lineStart ++ indentation ++ (docComment ||| lineComment) ++ blanks) :=
    (LeadsAs.append_assoc _ _ _).carries (.of_keeps_append hindent carries_comment_blanks)
  have hout : StaysOut t (lineStart ++ indentation ++ (docComment ||| lineComment) ++ blanks) :=
    ((StaysOut.lineStart.append _).append _).append _
  have hplus : StaysOut t (plus (lineStart ++ indentation ++ (docComment ||| lineComment) ++
      blanks)) := hout.append _
  exact ⟨((hcomment.append (hcomment.star hout) (.star hout)).part _).maybe,
    (hplus.part _).settles.maybe, (hplus.part _).stays.maybe⟩

/-- The annotations on the lines before a method. -/
theorem keeps_methodAnnotations (ht : '\r' ∉ t) : Keeps t methodAnnotations ∧
    Settles t methodAnnotations ∧ Stays t methodAnnotations := by
  have hmark : Keeps t (annotationMark ++ indentation) :=
    keeps_annotationMark.append keeps_indentation
  have hline : Keeps t (lineStart ++ indentation ++ plus (annotationMark ++ indentation) ++
      maybe (text "\r") ++ text "\n") :=
    (LeadsAs.append_assoc _ _ _).keeps
      (((Keeps.lineStart.append keeps_indentation).append (hmark.append hmark.star)).append
        (.lineEnd ht))
  have hout : StaysOut t (lineStart ++ indentation ++ plus (annotationMark ++ indentation) ++
      maybe (text "\r") ++ text "\n") :=
    (((StaysOut.lineStart.append _).append _).append _).append _
  exact ⟨hline.star.part _, (Settles.star hout).part _, (Stays.star hout).part _⟩

theorem carries_methodFront (ht : '\r' ∉ t) : Carries t methodFront := by
  obtain ⟨hannotations, hsettles, -⟩ := keeps_methodAnnotations ht
  have hlines : Keeps t (methodComments ++ methodAnnotations ++ lineStart ++ indentation) :=
    ((carries_methodComments.1.append hannotations.carries hsettles).append_keeps .lineStart
      .lineStart).append keeps_indentation
  have hinline : Carries t (Pattern.star (annotationMark ++ someBlanks)) :=
    (Carries.of_keeps_append keeps_annotationMark carries_someBlanks).star
      (staysOut_annotationMark.append _)
  exact .of_keeps_append hlines (hinline.part _)

theorem staysOut_methodFront (ht : '\r' ∉ t) : StaysOut t methodFront :=
  ((StaysOut.of_stays (carries_methodComments.2.2.append (keeps_methodAnnotations ht).2.2)
    .lineStart).append _).append _

theorem carries_methodDeclaration : Carries t methodDeclaration ∧ Settles t methodDeclaration := by
  have hopen : Keeps t (text "<" ++
      someOf (fun c => isWord c || isBlank c || c = ',' || c = '?' || c = '[' || c = ']') ++
        text ">" : HeaderPattern) :=
    (Carries.of_keeps_append (.text (by simp [Text.OnOneLine]))
      (.someOf (by decide) (by decide))).append_keeps (.text (by simp [Text.OnOneLine]))
        (.text (by simp [Text.OnOneLine]) (by simp))
  have hout : StaysOut t ((text "<" ++
      someOf (fun c => isWord c || isBlank c || c = ',' || c = '?' || c = '[' || c = ']') ++
        text ">") ++ someBlanks : HeaderPattern) :=
    (((StaysOut.text (by simp [Text.OnOneLine]) (by simp)).append _).append _).append _
  have hparameters : Carries t typeParameters ∧ Settles t typeParameters :=
    ⟨((Carries.of_keeps_append hopen carries_someBlanks).part _).maybeLazy,
      (hout.part _).settles.maybeLazy⟩
  have htypeOut : StaysOut t (named .returnType (someOf isTypeChar) ++ someBlanks) :=
    ((StaysOut.someOf (by decide)).part _).append _
  have htype : Carries t returnType ∧ Settles t returnType :=
    ⟨(Carries.of_keeps_append ((Keeps.someOf (by decide) (by decide)).part _)
      carries_someBlanks).maybe, htypeOut.settles.maybe⟩
  have hmodifiers := areKeywords_methodModifiers
  rw [methodDeclaration_eq]
  exact ⟨(((carries_modifierWords hmodifiers).append hparameters.1 hparameters.2).append htype.1
      htype.2).part _,
    (((settles_modifierWords hmodifiers).append hparameters.2).append htype.2).part _⟩

/-! ### Clauses that name exceptions -/

/-- A character that may stand between `throws` and the body of a method. -/
def inThrows (c : Char) : Bool := c ≠ '{' && c ≠ ';'

/-- The character that ends the header of a method. -/
def terminator : HeaderPattern := named .terminator (one fun c => c = '{' || c = ';')

/-- What stands behind `throws` up to the end of the header of a method. -/
def afterThrows : HeaderPattern := someBlanks ++ (someOf inThrows ++ (blanks ++ terminator))

theorem inThrows_eq_false_iff {c : Char} : inThrows c = false ↔ c = '{' ∨ c = ';' := by
  rw [inThrows]
  by_cases hbrace : c = '{' <;> by_cases hsemicolon : c = ';' <;> simp [hbrace, hsemicolon]

theorem inThrows_of_isBlank {c : Char} (h : isBlank c = true) : inThrows c = true := by
  by_contra hin
  rcases inThrows_eq_false_iff.1 (Bool.eq_false_iff.2 hin) with rfl | rfl
  · exact absurd h (by decide)
  · exact absurd h (by decide)

theorem mem_outcomes_terminator {o o' : Outcome HeaderPart} : o' ∈ terminator.outcomes o ↔
    ∃ c, inThrows c = false ∧ [c] <+: o.cursor.rest ∧ o' = ⟨o.cursor.behind [c],
      (.terminator, ⟨o.cursor.offset, o.cursor.offset + 1⟩) :: o.parts⟩ := by
  rw [terminator, named, mem_outcomes_part]
  constructor
  · rintro ⟨_, hmid, rfl⟩
    obtain ⟨c, hc, hpre, rfl⟩ := mem_outcomes_one.1 hmid
    exact ⟨c, inThrows_eq_false_iff.2 (by simpa using hc), hpre, rfl⟩
  · rintro ⟨c, hc, hpre, rfl⟩
    exact ⟨_, mem_outcomes_one.2 ⟨c, by simpa using inThrows_eq_false_iff.1 hc, hpre, rfl⟩, rfl⟩

section Throws

variable {β : Type} {u : Text} {k : Nat} {parts : List (HeaderPart × Span)}

/-- Behind `throws` come a blank and more, up to the character that ends the header. -/
def ThrowsFrom (u : Text) (k : Nat) : Prop :=
  1 < ((u.drop k).takeWhile inThrows).length ∧ (u[k]?.any isBlank) = true ∧
    k + ((u.drop k).takeWhile inThrows).length < u.length

/-- A run stands at the start of a text, up to a character that ends the header: a blank and
more. -/
structure ThrowsRun (t run : Text) : Prop where
  stops : ∃ c rest, t = run ++ c :: rest ∧ inThrows c = false
  inThrows : ∀ d ∈ run, inThrows d = true
  length : 1 < run.length
  blank : (run.head?.any isBlank) = true

/-- What stands behind `throws` tells the run. -/
theorem throwsRun_iff {run : Text} :
    ThrowsRun (u.drop k) run ↔ ThrowsFrom u k ∧ run = (u.drop k).takeWhile inThrows := by
  constructor
  · rintro ⟨⟨c, rest, hdrop, hc⟩, hall, hlength, hblank⟩
    have hrun : (u.drop k).takeWhile inThrows = run := by
      rw [hdrop, List.takeWhile_append_of_pos hall, List.takeWhile_cons_of_neg (by simp [hc]),
        List.append_nil]
    have hsize := congrArg List.length hdrop
    simp only [List.length_drop, List.length_append, List.length_cons] at hsize
    have hne : run ≠ [] := List.length_pos_iff.1 (by omega)
    refine ⟨⟨hrun ▸ hlength, ?_, ?_⟩, hrun.symm⟩
    · rwa [← List.head?_drop, hdrop, List.head?_append_of_ne_nil _ hne]
    · rw [hrun]
      omega
  · rintro ⟨⟨hlength, hblank, hlt⟩, rfl⟩
    have hsplit := List.takeWhile_append_dropWhile (p := inThrows) (l := u.drop k)
    have hend := List.head?_dropWhile_not inThrows (u.drop k)
    have hsize := congrArg List.length hsplit
    rw [List.length_append, List.length_drop] at hsize
    obtain ⟨c, rest, hrest⟩ : ∃ c rest, (u.drop k).dropWhile inThrows = c :: rest :=
      List.exists_cons_of_length_pos (by omega)
    rw [hrest] at hsplit hend
    have hne : (u.drop k).takeWhile inThrows ≠ [] := List.length_pos_iff.1 (by omega)
    refine ⟨⟨c, rest, hsplit.symm, by simpa using hend⟩, fun d hd => List.mem_takeWhile_imp hd,
      hlength, ?_⟩
    rwa [← List.head?_drop, ← hsplit, List.head?_append_of_ne_nil _ hne] at hblank

/-- The outcome behind `throws` and a run, which ends the header. -/
def afterRun (u : Text) (k : Nat) (parts : List (HeaderPart × Span)) (run : Text) :
    Outcome HeaderPart :=
  ⟨.inText u (k + run.length + 1), (.terminator, ⟨k + run.length, k + run.length + 1⟩) :: parts⟩

theorem exists_throwsRun_of_mem_outcomes {o' : Outcome HeaderPart}
    (h : o' ∈ afterThrows.outcomes ⟨.inText u k, parts⟩) :
    ∃ run, ThrowsRun (u.drop k) run ∧ o' = afterRun u k parts run := by
  simp only [afterThrows, append_eq, mem_outcomes_andThen] at h
  obtain ⟨_, hblanks, _, hnames, _, hmore, hend⟩ := h
  obtain ⟨a, hane, ha, hapre, rfl⟩ := mem_outcomes_someOf.1 hblanks
  obtain ⟨b, hbne, hb, hbpre, rfl⟩ := mem_outcomes_someOf.1 hnames
  obtain ⟨w, hw, hwpre, rfl⟩ := mem_outcomes_many.1 hmore
  obtain ⟨c, hc, ⟨rest, hrest⟩, rfl⟩ := mem_outcomes_terminator.1 hend
  have hreads : (Cursor.inText u k).Reads (a ++ b ++ w) _ :=
    (Cursor.Reads.trans ⟨hapre, rfl⟩ ⟨hbpre, rfl⟩).trans ⟨hwpre, rfl⟩
  have hdrop : u.drop k = a ++ b ++ w ++ c :: rest := by
    have hrest' := hreads.rest_eq
    rwa [← hrest, Cursor.inText_rest] at hrest'
  have ha' := List.length_pos_iff.2 hane
  have hb' := List.length_pos_iff.2 hbne
  refine ⟨a ++ b ++ w, ⟨⟨c, rest, hdrop, hc⟩, ?_, ?_, ?_⟩, ?_⟩
  · simp only [List.mem_append]
    rintro d ((hd | hd) | hd)
    · exact inThrows_of_isBlank (ha d hd)
    · exact hb d hd
    · exact inThrows_of_isBlank (hw d hd)
  · simp only [List.length_append]
    omega
  · obtain ⟨d, a, rfl⟩ := List.exists_cons_of_ne_nil hane
    simp [ha]
  · have hplace := hreads.eq_inText
    simp only at hplace ⊢
    rw [hplace] at hrest ⊢
    rw [Cursor.behind_inText ⟨rest, hrest⟩]
    rfl

/-- A blank, the rest of the run and no more blanks are one way to read a run. -/
theorem mem_outcomes_of_throwsRun {run : Text} (h : ThrowsRun (u.drop k) run) :
    afterRun u k parts run ∈ afterThrows.outcomes ⟨.inText u k, parts⟩ := by
  obtain ⟨⟨c, rest, hdrop, hc⟩, hall, hlength, hblank⟩ := h
  obtain ⟨d, run, rfl⟩ := List.exists_cons_of_length_pos (by omega : 0 < run.length)
  have hnames : u.drop (k + 1) = run ++ c :: rest := by
    rw [← List.drop_drop, hdrop]
    rfl
  have hterminator : u.drop (k + 1 + run.length) = c :: rest := by
    rw [← List.drop_drop, hnames, List.drop_left]
  have hrun : run ≠ [] := by
    rintro rfl
    simp at hlength
  simp only [afterThrows, append_eq, mem_outcomes_andThen]
  refine ⟨⟨.inText u (k + 1), parts⟩, mem_outcomes_someOf.2 ⟨[d], by simp, by simpa using hblank,
    ⟨run ++ c :: rest, hdrop.symm⟩, ?_⟩, ⟨.inText u (k + 1 + run.length), parts⟩,
    mem_outcomes_someOf.2 ⟨run, hrun, fun e he => hall e (List.mem_cons_of_mem d he),
      ⟨c :: rest, hnames.symm⟩, ?_⟩, ⟨.inText u (k + 1 + run.length), parts⟩,
    mem_outcomes_many.2 ⟨[], by simp, List.nil_prefix, ?_⟩,
    mem_outcomes_terminator.2 ⟨c, hc, ⟨rest, hterminator.symm⟩, ?_⟩⟩
  · rw [Cursor.behind_inText ⟨run ++ c :: rest, hdrop.symm⟩]
    rfl
  · rw [Cursor.behind_inText ⟨c :: rest, hnames.symm⟩]
  · rw [Cursor.Reads.behind_nil]
  · have hadd : k + (run.length + 1) = k + 1 + run.length := by omega
    rw [afterRun, Cursor.behind_inText ⟨rest, hterminator.symm⟩, List.length_cons,
      Cursor.inText_offset, hadd]
    rfl

/-- All ways behind `throws` lead to the character that ends the header. -/
theorem mem_outcomes_afterThrows {o' : Outcome HeaderPart} :
    o' ∈ afterThrows.outcomes ⟨.inText u k, parts⟩ ↔ ThrowsFrom u k ∧
      o' = afterRun u k parts ((u.drop k).takeWhile inThrows) := by
  constructor
  · intro h
    obtain ⟨run, hrun, rfl⟩ := exists_throwsRun_of_mem_outcomes h
    obtain ⟨hthrows, rfl⟩ := throwsRun_iff.1 hrun
    exact ⟨hthrows, rfl⟩
  · rintro ⟨hthrows, rfl⟩
    exact mem_outcomes_of_throwsRun (throwsRun_iff.2 ⟨hthrows, rfl⟩)

/-- With the returns the same stands behind `throws`, unless that is a single newline. -/
theorem throwsFrom_crlf {i : Nat}
    (h : t[i]? = some '\n' → ∀ c ∈ t[i + 1]?, inThrows c = true) :
    ThrowsFrom (Text.crlf t) (t.crlfOffset i) ↔ ThrowsFrom t i := by
  have hrun : ((Text.crlf t).drop (t.crlfOffset i)).takeWhile inThrows =
      Text.crlf ((t.drop i).takeWhile inThrows) := by
    rw [← Text.crlf_drop, Text.takeWhile_crlf rfl]
  have hend := Text.crlfOffset_add_length (List.takeWhile_prefix (l := t.drop i) inThrows)
  have hblank : ((Text.crlf t)[t.crlfOffset i]?.any isBlank) = (t[i]?.any isBlank) := by
    rw [Text.getElem?_crlfOffset]
    cases t[i]? with
    | none => rfl
    | some c => by_cases hc : c = '\n' <;> simp [hc, isBlank_return, isBlank_newline]
  have hlt : t.crlfOffset i + (Text.crlf ((t.drop i).takeWhile inThrows)).length <
      (Text.crlf t).length ↔ i + ((t.drop i).takeWhile inThrows).length < t.length := by
    rw [← hend, ← Text.crlfOffset_length, Text.crlfOffset_lt_iff le_rfl]
  rw [ThrowsFrom, ThrowsFrom, hrun, hblank, hlt]
  refine and_congr_left fun ⟨_, hstop⟩ => ?_
  cases hcase : (t.drop i).takeWhile inThrows with
  | nil => rfl
  | cons c run =>
    cases run with
    | nil =>
      -- a newline alone would be two characters with its return
      suffices hc : c ≠ '\n' by rw [Text.crlf_cons hc]; rfl
      rintro rfl
      rw [hcase, List.length_singleton] at hstop
      have hsplit := List.takeWhile_append_dropWhile (p := inThrows) (l := t.drop i)
      rw [hcase] at hsplit
      have hnewline : t[i]? = some '\n' := by rw [← List.head?_drop, ← hsplit]; rfl
      have hnext := h hnewline _ (List.getElem?_eq_getElem hstop)
      have hrest : t.drop i = '\n' :: t[i + 1] :: t.drop (i + 1 + 1) := by
        rw [← List.drop_eq_getElem_cons hstop, ← List.drop_drop, ← hsplit]
        rfl
      rw [hrest, List.takeWhile_cons_of_pos (by rfl), List.takeWhile_cons_of_pos hnext] at hcase
      simp at hcase
    | cons d run =>
      have := Text.length_le_length_crlf (c :: d :: run)
      simp only [List.length_cons] at this ⊢
      omega

/-- With the returns the header that has `throws` ends at the same place. -/
theorem crlfOffset_of_throwsFrom {i : Nat} (h : ThrowsFrom t i) :
    t.crlfOffset i + (((Text.crlf t).drop (t.crlfOffset i)).takeWhile inThrows).length =
        t.crlfOffset (i + ((t.drop i).takeWhile inThrows).length) ∧
      t.crlfOffset (i + ((t.drop i).takeWhile inThrows).length + 1) =
        t.crlfOffset (i + ((t.drop i).takeWhile inThrows).length) + 1 := by
  have hsplit := List.takeWhile_append_dropWhile (p := inThrows) (l := t.drop i)
  have hend := List.head?_dropWhile_not inThrows (t.drop i)
  have hstop := Text.crlfOffset_add_length (List.takeWhile_prefix (l := t.drop i) inThrows)
  refine ⟨by rw [hstop, ← Text.crlf_drop, Text.takeWhile_crlf rfl], ?_⟩
  have hget := List.getElem?_eq_getElem h.2.2
  refine Text.crlfOffset_succ hget fun hnewline => ?_
  rw [hnewline] at hget
  clear hnewline
  generalize (t.drop i).takeWhile inThrows = run at *
  rw [← List.getElem?_drop, ← hsplit, List.getElem?_append_right le_rfl, Nat.sub_self,
    ← List.head?_eq_getElem?] at hget
  rw [hget] at hend
  exact absurd hend (by decide)

theorem lead_afterThrows (h : ThrowsFrom u k) (next : Outcome HeaderPart → Option β) :
    lead afterThrows ⟨.inText u k, parts⟩ next =
      next ⟨.inText u (k + ((u.drop k).takeWhile inThrows).length + 1),
        (.terminator, ⟨k + ((u.drop k).takeWhile inThrows).length,
          k + ((u.drop k).takeWhile inThrows).length + 1⟩) :: parts⟩ :=
  lead_eq_of_mem_iff fun _ => mem_outcomes_afterThrows.trans (and_iff_right h)

theorem lead_afterThrows_eq_none (h : ¬ ThrowsFrom u k) (next : Outcome HeaderPart → Option β) :
    lead afterThrows ⟨.inText u k, parts⟩ next = none :=
  lead_eq_none_iff.2 fun _ ho' => absurd (mem_outcomes_afterThrows.1 ho').1 h

end Throws

/-- Some line of a text ends in `throws`, and the next one starts with the character that ends the
header. -/
def ThrowsNothing (t : Text) : Prop :=
  ∃ c, (c = '{' ∨ c = ';') ∧ "throws".toList ++ ['\n', c] <:+: t

/-- Behind `throws` no newline stands right before the character that ends the header. -/
theorem inThrows_of_not_throwsNothing (h : ¬ ThrowsNothing t) {i j : Nat}
    (hthrows : "throws".toList <+: t.drop i) (hj : i + "throws".toList.length = j)
    (hnewline : t[j]? = some '\n') : ∀ c ∈ t[j + 1]?, inThrows c = true := by
  intro c hc
  by_contra hin
  obtain ⟨hlt, hget⟩ := List.getElem?_eq_some_iff.1 hnewline
  obtain ⟨hlt', hget'⟩ := List.getElem?_eq_some_iff.1 hc
  have hrest : t.drop j = ['\n', c] ++ t.drop (j + 1 + 1) := by
    rw [List.drop_eq_getElem_cons hlt, hget, List.drop_eq_getElem_cons hlt', hget']
    rfl
  obtain ⟨rest, hwhole⟩ := hthrows
  have hbehind : t.drop j = rest := by rw [← hj, ← List.drop_drop, ← hwhole, List.drop_left]
  refine h ⟨c, inThrows_eq_false_iff.1 (Bool.eq_false_iff.2 hin), t.take i, t.drop (j + 1 + 1), ?_⟩
  rw [List.append_assoc, List.append_assoc, ← hrest, hbehind, hwhole, List.take_append_drop]

/-- What stands from `throws` on is the same with the returns. -/
theorem keeps_throws (h : ¬ ThrowsNothing t) : Keeps t (text "throws" ++ afterThrows) := by
  intro β β' f next next' hnext
  refine ⟨fun i hi parts => ?_, byPlace_lead _ hnext.byPlace⟩
  have hline : Text.OnOneLine "throws".toList := by simp [Text.OnOneLine]
  rw [append_eq, lead_andThen, lead_andThen, text, lead_fixed_crlf hline, lead_fixed_inText]
  by_cases hpre : "throws".toList <+: t.drop i
  swap
  · rw [if_neg hpre, if_neg hpre, Option.map_none]
  rw [if_pos hpre, if_pos hpre]
  generalize hj : i + "throws".toList.length = j
  have hiff := throwsFrom_crlf (inThrows_of_not_throwsNothing h hpre hj)
  by_cases hthrows : ThrowsFrom t j
  · obtain ⟨hstop, hlast⟩ := crlfOffset_of_throwsFrom hthrows
    rw [lead_afterThrows hthrows, Cursor.crlf, lead_afterThrows (hiff.2 hthrows), hstop, ← hlast]
    exact hnext.answer _ hthrows.2.2 ((.terminator, ⟨_, _⟩) :: parts)
  · rw [lead_afterThrows_eq_none hthrows, Cursor.crlf,
      lead_afterThrows_eq_none fun hthrows' => hthrows (hiff.1 hthrows'), Option.map_none]

/-- What stands behind the parameters of a method. -/
def methodEnd : HeaderPattern :=
  maybe (text "throws" ++ someBlanks ++ someOf inThrows) ++ (blanks ++ terminator)

theorem keeps_methodEnd (h : ¬ ThrowsNothing t) : Keeps t methodEnd := by
  have hterminator : Keeps t terminator := (Keeps.one rfl rfl).part _
  have hblanks : Keeps t (blanks ++ terminator) :=
    carries_blanks.append_keeps hterminator ((StaysOut.one rfl).part _)
  have hthrows : LeadsAs (text "throws" ++ someBlanks ++ someOf inThrows ++ (blanks ++ terminator))
      (text "throws" ++ afterThrows) := by
    intro β o next
    simp only [afterThrows, append_eq, lead_andThen]
  exact (LeadsAs.orElse_append _ _ _).keeps
    ((hthrows.keeps (keeps_throws h)).orElse (Keeps.empty.append hblanks))

theorem settles_methodEnd : Settles t methodEnd :=
  (((StaysOut.text (by simp [Text.OnOneLine]) (by simp)).append _).append _).settles.maybe.append
    (settles_blanks.append ((StaysOut.one rfl).part _).settles)

/-- Headers of methods are the same with the returns. -/
theorem carries_methodHeader (ht : '\r' ∉ t) (h : ¬ ThrowsNothing t) : Carries t methodHeader := by
  have hname : Keeps t (methodFront ++ methodDeclaration ++ named .name word) :=
    ((carries_methodFront ht).append carries_methodDeclaration.1
      carries_methodDeclaration.2).append_keeps (keeps_word.part _) (staysOut_word.part _)
  have hparameters : Keeps t (text "(" ++ named .parameters (nested 2) ++ text ")") :=
    keeps_group ((carries_nested 2).part _)
  have hend : Carries t (blanks ++ methodEnd) :=
    carries_blanks.append (keeps_methodEnd h).carries settles_methodEnd
  have hopen : Keeps t (methodFront ++ methodDeclaration ++ named .name word ++ blanks ++
      (text "(" ++ named .parameters (nested 2) ++ text ")")) :=
    (Carries.of_keeps_append hname carries_blanks).append_keeps hparameters
      ((staysOut_open _).append _)
  have hheader : LeadsAs methodHeader (methodFront ++ methodDeclaration ++ named .name word ++
      blanks ++ (text "(" ++ named .parameters (nested 2) ++ text ")") ++
        (blanks ++ methodEnd)) := by
    intro β o next
    simp only [methodHeader, methodFront, methodEnd, terminator, append_eq, lead_andThen]
    rfl
  exact hheader.carries (.of_keeps_append hopen hend)

theorem staysOut_methodHeader (ht : '\r' ∉ t) : StaysOut t methodHeader := by
  have hheader :
      LeadsAs methodHeader (methodFront ++ (methodDeclaration ++ behindDeclaration)) := by
    intro β o next
    rw [lead_methodHeader]
    simp only [append_eq, lead_andThen]
  exact hheader.staysOut ((staysOut_methodFront ht).append _)

end Glossator.Java
