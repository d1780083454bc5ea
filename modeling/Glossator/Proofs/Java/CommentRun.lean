import Glossator.Proofs.Java.PartText

/-!
# The comments before a declaration

The headers of types and methods start with a run of comments: blocks and line comments in any
order, with blanks around them. A block ends at its first closer, and behind a line comment a new
line starts.

* `Java.exists_run_of_comments`: what a header reports as comments is such a run.
-/

set_option autoImplicit false

namespace Glossator.Java

open Pattern

/-! ### Runs -/

/-- A comment before a declaration. -/
inductive Remark where
  /-- A block, closed by the first star that stands right before a slash. -/
  | block (body : Text) (unclosed : body.IsChain fun c d => c = '*' → d ≠ '/')
  /-- A comment on the rest of a line. -/
  | line (body : Text) (single : '\n' ∉ body)

namespace Remark

/-- The comment as it is written. -/
def text : Remark → Text
  | block body _ => "/**".toList ++ body ++ "*/".toList
  | line body _ => "//".toList ++ body

def isLine : Remark → Bool
  | block .. => false
  | line .. => true

end Remark

/-- A comment of a run, and the blanks around it. -/
structure Note where
  before : Text
  remark : Remark
  behind : Text
  blank : ∀ c ∈ before ++ behind, isBlank c = true

namespace Note

def text (n : Note) : Text := n.before ++ n.remark.text ++ n.behind

/-- What follows the comment starts on another line. -/
def endsLine (n : Note) : Prop := n.remark.isLine = true → '\n' ∈ n.behind

end Note

/-- The text of several comments. -/
def runText (notes : List Note) : Text := notes.flatMap Note.text

/-- Comments that can follow each other: a line comment ends with its line. -/
def IsRun (notes : List Note) : Prop := notes.IsChain fun n _ => n.endsLine

variable {notes : List Note} {n : Note} {u v : Text}

/-! ### The comments of a header -/

/-- The inside of a block up to the slash that closes it. -/
structure IsInside (u : Text) : Prop where
  unclosed : u.IsChain fun c d => c = '*' → d ≠ '/'
  last : u.getLast? = some '*'

namespace IsInside

theorem of_stars {stars : Text} (hu : ∀ c ∈ u, c ≠ '*') (hne : stars ≠ [])
    (hstars : ∀ c ∈ stars, c = '*') : IsInside (u ++ stars) where
  unclosed := by
    refine List.isChain_append.2 ⟨?_, ?_, fun c hc => ?_⟩
    · exact (List.pairwise_of_forall_mem_list fun c hc _ _ h => absurd h (hu c hc)).isChain
    · refine (List.pairwise_of_forall_mem_list fun _ _ d hd _ => ?_).isChain
      rw [hstars d hd]
      decide
    · exact fun _ _ h => absurd h (hu c (List.mem_of_mem_getLast? hc))
  last := by
    obtain ⟨front, c, rfl⟩ := List.eq_nil_or_concat stars |>.resolve_left hne
    rw [List.concat_eq_append] at hstars ⊢
    rw [← List.append_assoc, List.getLast?_concat, hstars c (by simp)]

theorem append (hu : IsInside u) (hv : IsInside v) (hhead : ∀ c ∈ v.head?, c ≠ '/') :
    IsInside (u ++ v) where
  unclosed := List.isChain_append.2 ⟨hu.unclosed, hv.unclosed, fun _ _ d hd _ => hhead d hd⟩
  last := by rw [List.getLast?_append, hv.last]; rfl

end IsInside

/-- A documentation comment is a block. -/
theorem exists_block_of_inLanguage (h : docComment.InLanguage u) :
    ∃ body unclosed, u = (Remark.block body unclosed).text := by
  simp only [docComment, text, append_eq, InLanguage, inLanguage_someOf, decide_eq_true_eq,
    Bool.and_eq_true] at h
  obtain ⟨_, _, ⟨_, _, ⟨_, stars, ⟨_, first, rfl, hfirst, rfl⟩, ⟨hne, hstars⟩, rfl⟩,
    ⟨pieces, hpieces, rfl⟩, rfl⟩, rfl, rfl⟩ := h
  have hinside : IsInside (first ++ stars ++ pieces.flatten) := by
    have hstart := IsInside.of_stars hfirst hne hstars
    generalize first ++ stars = start at hstart
    clear hstars hfirst
    induction pieces generalizing start with
    | nil => simpa using hstart
    | cons piece pieces ih =>
      obtain ⟨hpiece, hrest⟩ := List.forall_mem_cons.1 hpieces
      obtain ⟨_, stars, ⟨_, inner, ⟨c, hc, rfl⟩, hinner, rfl⟩, ⟨hne, hstars⟩, rfl⟩ := hpiece
      rw [List.flatten_cons, ← List.append_assoc]
      refine ih hrest _ (hstart.append (.of_stars ?_ hne hstars) ?_)
      · simpa using ⟨hc.2, hinner⟩
      · simpa using hc.1
  obtain ⟨body, hbody⟩ : ∃ body, first ++ stars ++ pieces.flatten = body ++ ['*'] :=
    List.getLast?_eq_some_iff.1 hinside.last
  refine ⟨body, (List.isChain_append.1 (hbody ▸ hinside.unclosed)).1, ?_⟩
  have hwhole := congrArg (fun inside => "/**".toList ++ inside ++ "/".toList) hbody
  simpa [Remark.text] using hwhole

/-- A line comment is one. -/
theorem exists_line_of_inLanguage (h : lineComment.InLanguage u) :
    ∃ body single, u = (Remark.line body single).text := by
  simp only [lineComment, Pattern.text, append_eq, InLanguage, decide_eq_true_eq] at h
  obtain ⟨_, body, rfl, hbody, rfl⟩ := h
  exact ⟨body, fun hmem => hbody _ hmem rfl, rfl⟩

theorem isRun_of_forall (h : ∀ n ∈ notes, n.endsLine) : IsRun notes :=
  (List.pairwise_of_forall_mem_list fun n hn _ _ => h n hn).isChain

/-- The comments of a type stand behind each other. -/
def typeNote : HeaderPattern := docComment ++ blanks ||| lineComment ++ text "\n"

theorem exists_note_of_typeNote (h : typeNote.InLanguage u) :
    ∃ n : Note, n.endsLine ∧ u = n.text := by
  rcases h with ⟨w, behind, hw, hbehind, rfl⟩ | ⟨w, behind, hw, hbehind, rfl⟩
  · obtain ⟨body, unclosed, rfl⟩ := exists_block_of_inLanguage hw
    exact ⟨⟨[], .block body unclosed, behind, hbehind⟩, by simp [Note.endsLine, Remark.isLine],
      rfl⟩
  · obtain ⟨body, single, rfl⟩ := exists_line_of_inLanguage hw
    obtain rfl : behind = ['\n'] := hbehind
    exact ⟨⟨[], .line body single, ['\n'], by simp; decide⟩, by simp [Note.endsLine], rfl⟩

/-- The comments of a method stand on lines of their own. -/
def methodNote : HeaderPattern :=
  lineStart ++ indentation ++ (docComment ||| lineComment) ++ blanks

theorem exists_note_of_methodNote (h : methodNote.InLanguage u) : ∃ n : Note, u = n.text := by
  obtain ⟨_, behind, ⟨before, w, ⟨_, _, rfl, hbefore, rfl⟩, hw, rfl⟩, hbehind, rfl⟩ := h
  have hblank : ∀ c ∈ before ++ behind, isBlank c = true := by
    intro c hc
    rcases List.mem_append.1 hc with hc | hc
    · have := hbefore c hc
      simp only [Bool.or_eq_true, decide_eq_true_eq] at this
      rcases this with rfl | rfl <;> rfl
    · exact hbehind c hc
  rcases hw with hw | hw
  · obtain ⟨body, unclosed, rfl⟩ := exists_block_of_inLanguage hw
    exact ⟨⟨before, .block body unclosed, behind, hblank⟩, rfl⟩
  · obtain ⟨body, single, rfl⟩ := exists_line_of_inLanguage hw
    exact ⟨⟨before, .line body single, behind, hblank⟩, rfl⟩

/-- A line comment that a line end follows has it among the blanks behind it. -/
theorem endsLine_of_getLast? (h : n.text.getLast? = some '\n') : n.endsLine := by
  intro hline
  obtain ⟨before, remark, behind, hblank⟩ := n
  cases remark with
  | block => cases hline
  | line body single =>
    by_contra hbehind
    have hmem : '\n' ∈ "//".toList ++ body ++ behind := by
      have hne : "//".toList ++ body ++ behind ≠ [] := by simp
      have hlast : (before ++ ("//".toList ++ body ++ behind)).getLast? = some '\n' := by
        simpa [Note.text, Remark.text] using h
      rw [List.getLast?_append_of_ne_nil _ hne] at hlast
      exact List.mem_of_getLast? hlast
    simp [single, hbehind] at hmem

theorem text_ne_nil (n : Note) : n.text ≠ [] := by
  obtain ⟨before, remark, behind, hblank⟩ := n
  cases remark <;> simp [Note.text, Remark.text]

/-- From one place to another, a run of comments is read. -/
def ReadsRun (o o' : Outcome HeaderPart) : Prop :=
  ∃ notes, IsRun notes ∧ o.cursor.Reads (runText notes) o'.cursor

/-- One more comment at the start of a line goes on with the run. -/
theorem ReadsRun.step {o a b : Outcome HeaderPart} (ha : ReadsRun o a)
    (hb : b ∈ methodNote.outcomes a) : ReadsRun o b := by
  obtain ⟨notes, hrun, hreads⟩ := ha
  obtain ⟨u, hu, hlanguage⟩ := exists_inLanguage_of_mem_outcomes hb
  obtain ⟨n, rfl⟩ := exists_note_of_methodNote hlanguage
  have hstart : a.cursor.atLineStart = true := by
    obtain ⟨_, hmid, -⟩ := mem_outcomes_andThen.1 hb
    obtain ⟨_, hmid, -⟩ := mem_outcomes_andThen.1 hmid
    obtain ⟨_, hmid, -⟩ := mem_outcomes_andThen.1 hmid
    exact (mem_outcomes_lineStart.1 hmid).2
  refine ⟨notes ++ [n], List.isChain_append.2 ⟨hrun, List.isChain_singleton n, ?_⟩, ?_⟩
  · intro last hlast _ _
    obtain ⟨front, rfl⟩ := List.getLast?_eq_some_iff.1 hlast
    obtain ⟨c, hc⟩ := Option.ne_none_iff_exists'.1
      (mt List.getLast?_eq_none_iff.1 (text_ne_nil last))
    have hprevious : a.cursor.previous = some c := by
      rw [hreads.2, Cursor.behind, runText, List.flatMap_append, List.flatMap_singleton,
        List.getLast?_append_of_ne_nil _ (text_ne_nil last), hc]
      rfl
    rw [Cursor.atLineStart, hprevious, Option.all_some, decide_eq_true_eq] at hstart
    exact endsLine_of_getLast? (hstart ▸ hc)
  · rw [runText, List.flatMap_append, List.flatMap_singleton]
    exact hreads.trans hu

theorem bodies_methodHeader : methodHeader.bodies .comments = [plus methodNote] := by
  simp [methodHeader, methodComments, methodAnnotations, methodDeclaration, methodModifiers,
    modifierWords, annotationMark, nested, docComment, lineComment, named, maybe, maybeLazy, plus,
    someOf, someBlanks, blanks, indentation, word, text, anyText, methodNote, bodies]

theorem bodies_typeHeader : typeHeader.bodies .comments = [Pattern.star typeNote] := by
  simp [typeHeader, typeModifiers, modifierWords, annotationMark, nested, docComment, lineComment,
    named, maybe, plus, someOf, someBlanks, blanks, word, text, anyText, typeNote, bodies]

/-- The comments that a header of a type or method reports are a run. -/
theorem exists_run_of_comments {header : HeaderPattern} {t : Text} {offset : Nat}
    {m : Match HeaderPart} (hheader : header ∈ [methodHeader, typeHeader])
    (hm : (Finder.ofPattern header t).find? offset = some m)
    (hu : m.text? t .comments = some u) : ∃ notes, IsRun notes ∧ u = runText notes := by
  simp only [List.mem_cons, List.not_mem_nil, or_false] at hheader
  rcases hheader with rfl | rfl
  · obtain ⟨body, hbody, a, b, hb, hreads⟩ := exists_body_of_find? hm hu
    rw [bodies_methodHeader, List.mem_singleton] at hbody
    subst hbody
    obtain ⟨first, hfirst, hstar⟩ := mem_outcomes_andThen.1 hb
    rw [outcomes] at hstar
    have hsteps := Outcome.reflTransGen_of_mem_repeat hstar
    have hnone : ReadsRun a a := ⟨[], List.isChain_nil, .refl _⟩
    have hrun : ReadsRun a b := by
      clear hstar hb hreads
      induction hsteps with
      | refl => exact hnone.step hfirst
      | tail _ hstep ih => exact ih.step hstep.1
    obtain ⟨notes, hnotes, hread⟩ := hrun
    exact ⟨notes, hnotes, List.append_cancel_right (hreads.rest_eq.symm.trans hread.rest_eq)⟩
  · obtain ⟨body, hbody, hlanguage⟩ := inLanguage_of_find? hm hu
    rw [bodies_typeHeader, List.mem_singleton] at hbody
    subst hbody
    obtain ⟨notes, hnotes, htext⟩ :=
      exists_flatMap_of_star (fun _ => exists_note_of_typeNote) hlanguage
    exact ⟨notes, isRun_of_forall hnotes, htext⟩

end Glossator.Java
