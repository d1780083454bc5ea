import Glossator.Proofs.Java.Annotation
import Glossator.Proofs.Java.ClassDeclarations
import Glossator.Proofs.Java.DeclaredType

/-!
# Headings

A heading is the header of a method without comments and annotations. Whatever the search prefers,
it reads such a header in one way only: the first parenthesis opens the parameters, the parenthesis
that balances it closes them, and the first brace or semicolon behind that is the end.

* `Java.Heading`: the pieces of a header.
* `Java.Heading.same_of_prefix`: a text starts with one heading at most.
* `Java.exists_heading_of_mem`: what is read where no comment and no annotation stands is a heading.
-/

set_option autoImplicit false

namespace Glossator.Java

open Pattern Text

variable {before rest u more t : Text} {z : Char}

/-- A character that may stand between the annotations of a method and its parameters. -/
def isHeadingChar (c : Char) : Bool := isTypeChar c || isBlank c

/-- The header of a method without comments and annotations. -/
structure Heading where
  indent : Text
  /-- Modifiers, type parameters and a return type, with the blanks behind them. -/
  declaration : Text
  name : Text
  /-- The blanks before the parameters. -/
  gap : Text
  parameters : Text
  /-- What stands between the parameters and the end: blanks, and exceptions perhaps. -/
  clause : Text
  /-- A brace or a semicolon. -/
  mark : Char
  indent_space : ∀ c ∈ indent, c = ' ' ∨ c = '\t'
  declaration_chars : ∀ c ∈ declaration, isHeadingChar c = true
  declaration_end : ∀ c ∈ declaration.getLast?, isBlank c = true
  name_ne : name ≠ []
  name_chars : ∀ c ∈ name, isWord c = true
  gap_blank : ∀ c ∈ gap, isBlank c = true
  parameters_match : ParensMatch parameters
  clause_free : ∀ c ∈ clause, c ≠ '{' ∧ c ≠ ';'
  mark_eq : mark = '{' ∨ mark = ';'

namespace Heading

/-- What stands before the parenthesis. -/
def front (h : Heading) : Text := h.indent ++ h.declaration ++ h.name ++ h.gap

def text (h : Heading) : Text :=
  h.front ++ '(' :: (h.parameters ++ ')' :: (h.clause ++ [h.mark]))

theorem isHeadingChar_of_mem_front (h : Heading) : ∀ c ∈ h.front, isHeadingChar c = true := by
  intro c hc
  simp only [front, List.mem_append] at hc
  rcases hc with ((hc | hc) | hc) | hc
  · rcases h.indent_space c hc with rfl | rfl <;> decide
  · exact h.declaration_chars c hc
  · simp [isHeadingChar, isTypeChar, h.name_chars c hc]
  · simp [isHeadingChar, h.gap_blank c hc]

/-- Texts that end in a blank, followed by words, can be told apart. -/
theorem eq_of_word {a b v w : Text} (h : a ++ v = b ++ w) (ha : ∀ c ∈ a.getLast?, isBlank c = true)
    (hb : ∀ c ∈ b.getLast?, isBlank c = true) (hv : ∀ c ∈ v, isWord c = true)
    (hw : ∀ c ∈ w, isWord c = true) : a = b ∧ v = w := by
  have hnil {m : Text} {y : Text} (hm : ∀ c ∈ m, isWord c = true)
      (hend : ∀ c ∈ (y ++ m).getLast?, isBlank c = true) : m = [] := by
    by_contra hne
    obtain ⟨c, hc⟩ := Option.isSome_iff_exists.1 (List.getLast?_isSome.2 hne)
    have hblank := hend c (by rw [List.getLast?_append_of_ne_nil _ hne, hc]; rfl)
    have hword := hm c (List.mem_of_getLast? hc)
    exact Bool.false_ne_true ((isBlank_eq_false_of_isWord hword).symm.trans hblank)
  rcases List.append_eq_append_iff.1 h with ⟨more, rfl, rfl⟩ | ⟨more, rfl, rfl⟩
  · obtain rfl := hnil (fun c hc => hv c (List.mem_append_left w hc)) hb
    exact ⟨(List.append_nil a).symm, rfl⟩
  · obtain rfl := hnil (fun c hc => hw c (List.mem_append_left v hc)) ha
    exact ⟨List.append_nil b, rfl⟩

/-- Texts that do not end in a blank, followed by blanks, can be told apart. -/
theorem eq_of_blanks {a b v w : Text} (h : a ++ v = b ++ w)
    (ha : ∀ c ∈ a.getLast?, isBlank c = false) (hb : ∀ c ∈ b.getLast?, isBlank c = false)
    (hv : ∀ c ∈ v, isBlank c = true) (hw : ∀ c ∈ w, isBlank c = true) : a = b ∧ v = w := by
  have ha' := trimEnd_eq_self ha
  have hb' := trimEnd_eq_self hb
  have htrim := congrArg trimEnd h
  rw [trimEnd_append_blanks hv, trimEnd_append_blanks hw, ha', hb'] at htrim
  subst htrim
  exact ⟨rfl, List.append_cancel_left h⟩

/-- A balanced text ends before the first parenthesis that closes nothing in it. -/
theorem eq_of_parensMatch {p p' r r' : Text} (hp : ParensMatch p) (hp' : ParensMatch p')
    (h : p ++ ')' :: r = p' ++ ')' :: r') : p = p' ∧ r = r' := by
  have hshort {p q more : Text} (hp : ParensMatch p) (hq : ParensMatch q)
      (h : q = p ++ ')' :: more) : False := by
    have hle := hq.count_le (p ++ [')']) ⟨more, by simp [h]⟩
    have heq := hp.count_eq
    rw [List.count_append, List.count_append, List.count_singleton_self,
      List.count_cons_of_ne (by decide), List.count_nil] at hle
    omega
  rcases List.append_eq_append_iff.1 h with ⟨more, hlong, hmore⟩ | ⟨more, hlong, hmore⟩
  · cases more with
    | nil =>
      rw [List.append_nil] at hlong
      exact ⟨hlong.symm, (List.cons.inj hmore).2⟩
    | cons c more =>
      obtain ⟨rfl, -⟩ := List.cons.inj hmore
      exact absurd (hshort hp hp' hlong) id
  · cases more with
    | nil =>
      rw [List.append_nil] at hlong
      exact ⟨hlong, (List.cons.inj hmore).2.symm⟩
    | cons c more =>
      obtain ⟨rfl, -⟩ := List.cons.inj hmore
      exact absurd (hshort hp' hp hlong) id

theorem isBlank_getLast? (h : Heading) :
    ∀ c ∈ (h.indent ++ h.declaration).getLast?, isBlank c = true := by
  intro c hc
  rw [List.getLast?_append] at hc
  cases hlast : h.declaration.getLast? with
  | some d =>
    rw [hlast] at hc
    obtain rfl := Option.some.inj hc
    exact h.declaration_end d hlast
  | none =>
    rw [hlast, Option.none_or] at hc
    rcases h.indent_space c (List.mem_of_getLast? hc) with rfl | rfl <;> decide

/-- What stands before the blanks in front of the parameters does not end in a blank. -/
theorem isBlank_getLast?_name (h : Heading) (a : Text) :
    ∀ c ∈ (a ++ h.name).getLast?, isBlank c = false := by
  intro c hc
  rw [List.getLast?_append_of_ne_nil _ h.name_ne] at hc
  exact isBlank_eq_false_of_isWord (h.name_chars c (List.mem_of_getLast? hc))

/-- The pieces of two headings are the same, apart from where the indentation ends. -/
structure Same (h h' : Heading) : Prop where
  declaration : h.indent ++ h.declaration = h'.indent ++ h'.declaration
  name : h.name = h'.name
  gap : h.gap = h'.gap
  parameters : h.parameters = h'.parameters
  clause : h.clause = h'.clause
  mark : h.mark = h'.mark

theorem Same.text {h h' : Heading} (hs : h.Same h') : h.text = h'.text := by
  simp only [Heading.text, front, hs.declaration, hs.name, hs.gap, hs.parameters, hs.clause,
    hs.mark]

/-- A text starts with one heading at most. -/
theorem same_of_prefix {h h' : Heading} (hpre : h.text <+: t) (hpre' : h'.text <+: t) :
    h.Same h' := by
  have hopen (h : Heading) : '(' ∉ h.front := fun hmem =>
    absurd (h.isHeadingChar_of_mem_front _ hmem) (by decide)
  obtain ⟨behind, rfl⟩ := hpre
  obtain ⟨behind', heq⟩ := hpre'
  have hlist (h : Heading) (behind : Text) : h.text ++ behind =
      h.front ++ '(' :: (h.parameters ++ ')' :: (h.clause ++ h.mark :: behind)) := by
    simp [Heading.text]
  rw [hlist, hlist] at heq
  obtain ⟨hfront, -, hinside⟩ := eq_of_append_cons heq (hopen h) (hopen h')
  obtain ⟨hparameters, hbehind⟩ :=
    eq_of_parensMatch h'.parameters_match h.parameters_match hinside
  have hmark {h k : Heading} : h.mark ∉ k.clause := by
    intro hmem
    obtain ⟨hbrace, hsemicolon⟩ := k.clause_free _ hmem
    rcases h.mark_eq with hmark | hmark
    · exact hbrace hmark
    · exact hsemicolon hmark
  obtain ⟨hclause, hmarks, -⟩ := eq_of_append_cons hbehind hmark hmark
  obtain ⟨hnamed, hgap⟩ := eq_of_blanks hfront (h'.isBlank_getLast?_name _)
    (h.isBlank_getLast?_name _) h'.gap_blank h.gap_blank
  obtain ⟨hdeclaration, hname⟩ := eq_of_word hnamed h'.isBlank_getLast? h.isBlank_getLast?
    h'.name_chars h.name_chars
  exact ⟨hdeclaration.symm, hname.symm, hgap.symm, hparameters.symm, hclause.symm, hmarks.symm⟩

end Heading

/-! ### Reading a heading -/

theorem isHeadingChar_of_isBlank {c : Char} (h : isBlank c = true) : isHeadingChar c = true := by
  simp [isHeadingChar, h]

theorem isHeadingChar_of_isWord {c : Char} (h : isWord c = true) : isHeadingChar c = true := by
  simp [isHeadingChar, isTypeChar, h]

theorem isHeadingChar_of_isTypeChar {c : Char} (h : isTypeChar c = true) :
    isHeadingChar c = true := by
  simp [isHeadingChar, h]

theorem isHeadingChar_of_isParameterChar {c : Char} (h : isParameterChar c = true) :
    isHeadingChar c = true := by
  simp only [isParameterChar, Bool.or_eq_true, decide_eq_true_eq] at h
  simp only [isHeadingChar, isTypeChar, Bool.or_eq_true, decide_eq_true_eq]
  tauto

/-- Modifiers, type parameters and a return type are made of such characters. -/
theorem isHeadingChar_of_mayRead {c : Char} (h : methodDeclaration.mayRead c) :
    isHeadingChar c = true := by
  rcases h with ((hmodifier | hnone) | (hnone | hparameter)) | (htype | hnone)
  · rcases isWord_of_mayRead_modifiers (by decide) hmodifier with hword | hblank
    · exact isHeadingChar_of_isWord hword
    · exact isHeadingChar_of_isBlank hblank
  · exact absurd hnone id
  · exact absurd hnone id
  · rcases hparameter with ((hopen | (hinner | hinner)) | hclose) | (hblank | hblank)
    · obtain rfl : c = '<' := List.mem_singleton.1 hopen
      decide
    · exact isHeadingChar_of_isParameterChar hinner
    · exact isHeadingChar_of_isParameterChar hinner
    · obtain rfl : c = '>' := List.mem_singleton.1 hclose
      decide
    · exact isHeadingChar_of_isBlank hblank
    · exact isHeadingChar_of_isBlank hblank
  · rcases htype with (htype | htype) | (hblank | hblank)
    · exact isHeadingChar_of_isTypeChar htype
    · exact isHeadingChar_of_isTypeChar htype
    · exact isHeadingChar_of_isBlank hblank
    · exact isHeadingChar_of_isBlank hblank
  · exact absurd hnone id

/-- No comment and no annotation starts behind spaces and tabs. -/
def Unmarked (t : Text) : Prop :=
  ∀ indent c behind, t = indent ++ c :: behind → (∀ e ∈ indent, e = ' ' ∨ e = '\t') →
    c ≠ '/' ∧ c ≠ '@'

/-- A text is unmarked if a character that cannot stand in a heading comes first. -/
theorem unmarked_of_stop (hu : ∀ c ∈ u, c ≠ '/' ∧ c ≠ '@') (hz : z ≠ '/' ∧ z ≠ '@')
    (hstop : isHeadingChar z = false) : Unmarked (u ++ z :: more) := by
  have hne (c : Char) (hc : c ∉ u) (hcz : c ≠ z) {indent behind : Text}
      (heq : u ++ z :: more = indent ++ c :: behind)
      (hindent : ∀ e ∈ indent, e = ' ' ∨ e = '\t') : False := by
    have hzi : z ∉ indent := by
      intro hmem
      rcases hindent z hmem with rfl | rfl <;> exact absurd hstop (by decide)
    exact hcz (eq_of_append_cons heq hzi hc).2.1.symm
  intro indent c behind heq hindent
  constructor
  · rintro rfl
    exact hne _ (fun hmem => (hu _ hmem).1 rfl) (Ne.symm hz.1) heq hindent
  · rintro rfl
    exact hne _ (fun hmem => (hu _ hmem).2 rfl) (Ne.symm hz.2) heq hindent

/-- The pattern matches only where a character stands. -/
def StartsWith (d : Char) (p : HeaderPattern) : Prop :=
  ∀ o, ∀ o' ∈ p.outcomes o, o.cursor.rest.head? = some d

namespace StartsWith

variable {d : Char} {p : HeaderPattern}

theorem fixed (d : Char) (piece : Text) : StartsWith d (Pattern.fixed (d :: piece)) := by
  intro o o' h
  obtain ⟨⟨rest, hrest⟩, -⟩ := mem_outcomes_fixed.1 h
  rw [← hrest]
  rfl

theorem append (hp : StartsWith d p) (q : HeaderPattern) : StartsWith d (p ++ q) := by
  intro o o' h
  obtain ⟨mid, hmid, -⟩ := mem_outcomes_andThen.1 h
  exact hp o mid hmid

theorem docComment : StartsWith '/' docComment :=
  ((((StartsWith.fixed '/' ['*', '*']).append _).append _).append _).append _

theorem lineComment : StartsWith '/' lineComment := (StartsWith.fixed '/' ['/']).append _

theorem annotationMark : StartsWith '@' annotationMark :=
  ((StartsWith.fixed '@' []).append _).append _

end StartsWith

/-- Where no comment and no annotation starts, only indentation stands before a declaration. -/
theorem reads_of_mem_methodFront {c : Cursor} {a : Outcome HeaderPart} (hc : Unmarked c.rest)
    (h : a ∈ methodFront.outcomes ⟨c, []⟩) :
    ∃ indent, (∀ e ∈ indent, e = ' ' ∨ e = '\t') ∧ c.Reads indent a.cursor := by
  have hindentation {o i : Outcome HeaderPart} (ho : o.cursor = c)
      (hi : i ∈ indentation.outcomes o) : (∃ indent, (∀ e ∈ indent, e = ' ' ∨ e = '\t') ∧
        c.Reads indent i.cursor) ∧ i.cursor.rest.head? ≠ some '/' ∧
          i.cursor.rest.head? ≠ some '@' := by
    obtain ⟨indent, hindent, hpre, rfl⟩ := mem_outcomes_many.1 hi
    rw [ho] at hpre ⊢
    have hread : c.Reads indent (c.behind indent) := ⟨hpre, rfl⟩
    have hspace : ∀ e ∈ indent, e = ' ' ∨ e = '\t' := by simpa using hindent
    refine ⟨⟨indent, hspace, hread⟩, ?_, ?_⟩ <;> intro hhead <;>
      obtain ⟨behind, hbehind⟩ := List.head?_eq_some_iff.1 hhead
    · exact (hc indent '/' behind (hbehind ▸ hread.rest_eq) hspace).1 rfl
    · exact (hc indent '@' behind (hbehind ▸ hread.rest_eq) hspace).2 rfl
  simp only [methodFront, append_eq, mem_outcomes_andThen, named, mem_outcomes_part] at h
  obtain ⟨i, ⟨s, ⟨n, ⟨m, hcomments, hannotations⟩, hstart⟩, hindent⟩, e, hinline, rfl⟩ := h
  have hm : m.cursor = c := by
    rcases mem_outcomes_orElse.1 hcomments with htaken | hnone
    · obtain ⟨mid, hmid, -⟩ := mem_outcomes_part.1 htaken
      obtain ⟨first, hfirst, -⟩ := mem_outcomes_andThen.1 hmid
      simp only [append_eq, mem_outcomes_andThen, orOp_eq, mem_outcomes_orElse] at hfirst
      obtain ⟨b, ⟨j, ⟨l, hl, hj⟩, hcomment⟩, -⟩ := hfirst
      obtain ⟨rfl, -⟩ := mem_outcomes_lineStart.1 hl
      rcases hcomment with hcomment | hcomment
      · exact absurd (StartsWith.docComment j b hcomment) (hindentation rfl hj).2.1
      · exact absurd (StartsWith.lineComment j b hcomment) (hindentation rfl hj).2.1
    · rw [List.mem_singleton.1 hnone]
  have hn : n.cursor = c := by
    obtain ⟨mid, hmid, rfl⟩ := mem_outcomes_part.1 hannotations
    rw [outcomes_star, List.mem_append, List.mem_singleton] at hmid
    rcases hmid with htaken | rfl
    · obtain ⟨first, hfirst, -⟩ := List.mem_flatMap.1 htaken
      simp only [append_eq, mem_outcomes_andThen, plus] at hfirst
      obtain ⟨_, ⟨_, ⟨j, ⟨l, hl, hj⟩, _, ⟨b, hmark, -⟩, -⟩, -⟩, -⟩ := hfirst
      obtain ⟨rfl, -⟩ := mem_outcomes_lineStart.1 hl
      exact absurd (StartsWith.annotationMark j b hmark) (hindentation hm hj).2.2
    · exact hm
  obtain ⟨rfl, -⟩ := mem_outcomes_lineStart.1 hstart
  obtain ⟨hread, -, hat⟩ := hindentation hn hindent
  have he : e.cursor = i.cursor := by
    rw [outcomes_star, List.mem_append, List.mem_singleton] at hinline
    rcases hinline with htaken | rfl
    · obtain ⟨first, hfirst, -⟩ := List.mem_flatMap.1 htaken
      obtain ⟨b, hmark, -⟩ := mem_outcomes_andThen.1 hfirst
      exact absurd (StartsWith.annotationMark i b hmark) hat
    · rfl
  rw [he]
  exact hread

/-- A place behind a blank, or one where no word goes on. -/
def Apart (c : Cursor) : Prop :=
  (∃ e ∈ c.previous, isBlank e = true) ∨ ∀ e ∈ c.rest.head?, isWord e = false

theorem apart_of_mem_someBlanks {o o' : Outcome HeaderPart}
    (h : o' ∈ (someBlanks : HeaderPattern).outcomes o) : Apart o'.cursor := by
  obtain ⟨piece, hne, hpiece, -, rfl⟩ := mem_outcomes_someOf.1 h
  obtain ⟨e, he⟩ := Option.isSome_iff_exists.1 (List.getLast?_isSome.2 hne)
  exact .inl ⟨e, by simp [Cursor.behind, he], hpiece e (List.mem_of_getLast? he)⟩

/-- A declaration that is read is empty, or it ends behind a blank or where a word ends. -/
theorem apart_of_mem_methodDeclaration {a d : Outcome HeaderPart}
    (h : d ∈ methodDeclaration.outcomes a) : d.cursor = a.cursor ∨ Apart d.cursor := by
  rw [methodDeclaration_eq] at h
  obtain ⟨e, he, rfl⟩ := mem_outcomes_part.1 h
  obtain ⟨g, hg, htype⟩ := mem_outcomes_andThen.1 he
  obtain ⟨m, hmodifiers, hparameters⟩ := mem_outcomes_andThen.1 hg
  have hm : m.cursor = a.cursor ∨ Apart m.cursor := by
    rcases mem_outcomes_orElse.1 hmodifiers with htaken | hnone
    · obtain ⟨mid, hmid, rfl⟩ := mem_outcomes_part.1 htaken
      have hstar := (mem_outcomes_star_iff forward_modifierStep).2 (.inl hmid)
      rw [outcomes] at hstar
      rcases (Outcome.reflTransGen_of_mem_repeat hstar).cases_tail with rfl | ⟨b, -, hstep, -⟩
      · exact .inl rfl
      · rcases modifierStep_cases hstep with ⟨w, -, -, hnext⟩ | ⟨c, hc, hread⟩
        · exact .inr (.inr hnext)
        · refine .inr (.inl ⟨c, ?_, hc⟩)
          rw [hread.2]
          rfl
    · rw [List.mem_singleton.1 hnone]
      exact .inl rfl
  have hg' : g.cursor = a.cursor ∨ Apart g.cursor := by
    rcases mem_outcomes_orElse.1 hparameters with hnone | htaken
    · rwa [List.mem_singleton.1 hnone]
    · obtain ⟨mid, hmid, rfl⟩ := mem_outcomes_part.1 htaken
      obtain ⟨_, -, hblanks⟩ := mem_outcomes_andThen.1 hmid
      have hmid : Apart mid.cursor := apart_of_mem_someBlanks hblanks
      exact .inr hmid
  rcases mem_outcomes_orElse.1 htype with htaken | hnone
  · obtain ⟨_, -, hblanks⟩ := mem_outcomes_andThen.1 htaken
    have he : Apart e.cursor := apart_of_mem_someBlanks hblanks
    exact .inr he
  · rw [List.mem_singleton.1 hnone]
    exact hg'

/-- What stands between the parameters of a method and the end of its header. -/
def clausePattern : HeaderPattern :=
  blanks ++ (maybe (text "throws" ++ someBlanks ++ someOf (fun c => c ≠ '{' && c ≠ ';')) ++ blanks)

theorem methodTail_eq : methodTail = blanks ++ (text "(" ++ (part .parameters (nested 2) ++
    (text ")" ++ clausePattern))) := rfl

theorem ne_of_mayRead_clausePattern {c : Char} (h : clausePattern.mayRead c) :
    c ≠ '{' ∧ c ≠ ';' := by
  have hblank {c : Char} (h : isBlank c = true) : c ≠ '{' ∧ c ≠ ';' := by
    constructor <;> (rintro rfl; exact absurd h (by decide))
  rcases h with hb | (hthrows | hnone) | hb
  · exact hblank hb
  · rcases hthrows with (hword | hb | hb) | (hfree | hfree)
    · have hall : "throws".toList.all (fun c => c ≠ '{' && c ≠ ';') = true := by decide
      simpa using List.all_eq_true.1 hall c hword
    · exact hblank hb
    · exact hblank hb
    · have hfree : (c ≠ '{' && c ≠ ';') = true := hfree
      simpa using hfree
    · have hfree : (c ≠ '{' && c ≠ ';') = true := hfree
      simpa using hfree
  · exact absurd hnone id
  · exact hblank hb

section

variable {parts : List (HeaderPart × Span)} {o : Outcome HeaderPart}

theorem exists_declaration_of_mem
    (h : o ∈ methodDeclaration.outcomes ⟨.between before rest, parts⟩) :
    ∃ declaration rest', rest = declaration ++ rest' ∧
      (∀ c ∈ declaration, isHeadingChar c = true) ∧
      o.cursor = .between (before ++ declaration) rest' ∧
      o.parts.lookup .declaration = some ⟨before.length, (before ++ declaration).length⟩ := by
  obtain ⟨declaration, hread, hchars⟩ := (reads_of_mem_outcomes h).reads
  obtain ⟨rest', rfl, hcursor⟩ := hread.eq_between
  obtain ⟨e, -, rfl⟩ := mem_outcomes_part.1 h
  refine ⟨declaration, rest', rfl, fun c hc => isHeadingChar_of_mayRead (hchars c hc), hcursor, ?_⟩
  have he : e.cursor = .between (before ++ declaration) rest' := hcursor
  rw [List.lookup_cons_self, he]
  rfl

theorem exists_name_of_mem (h : o ∈ (part .name word).outcomes ⟨.between before rest, parts⟩) :
    ∃ name rest', rest = name ++ rest' ∧ name ≠ [] ∧ (∀ c ∈ name, isWord c = true) ∧
      o = ⟨.between (before ++ name) rest',
        (.name, ⟨before.length, (before ++ name).length⟩) :: parts⟩ := by
  obtain ⟨n, hn, rfl⟩ := mem_outcomes_part.1 h
  obtain ⟨hparts, name, hne, hread, hchars⟩ := reads_of_mem_someOf hn
  obtain ⟨rest', rfl, hcursor⟩ := hread.eq_between
  exact ⟨name, rest', rfl, hne, hchars, by rw [hcursor, hparts]; rfl⟩

theorem exists_mark_of_mem
    (h : o ∈ (part .terminator (one fun c => c = '{' || c = ';')).outcomes
      ⟨.between before rest, parts⟩) :
    ∃ mark rest', rest = mark :: rest' ∧ (mark = '{' ∨ mark = ';') ∧
      o = ⟨.between (before ++ [mark]) rest',
        (.terminator, ⟨before.length, (before ++ [mark]).length⟩) :: parts⟩ := by
  obtain ⟨n, hn, rfl⟩ := mem_outcomes_part.1 h
  obtain ⟨mark, hmark, hpre, rfl⟩ := mem_outcomes_one.1 hn
  obtain ⟨rest', rfl, hcursor⟩ := Cursor.Reads.eq_between ⟨hpre, rfl⟩
  exact ⟨mark, rest', rfl, by simpa using hmark, by rw [hcursor]; rfl⟩

/-- What stands behind a name: blanks, the parameters in parentheses, and a clause perhaps. -/
theorem exists_tail_of_mem (h : o ∈ methodTail.outcomes ⟨.between before rest, parts⟩) :
    ∃ gap parameters clause rest',
      rest = gap ++ '(' :: (parameters ++ ')' :: (clause ++ rest')) ∧
      (∀ c ∈ gap, isBlank c = true) ∧ ParensMatch parameters ∧
      (∀ c ∈ clause, c ≠ '{' ∧ c ≠ ';') ∧
      o = ⟨.between (before ++ gap ++ '(' :: (parameters ++ ')' :: clause)) rest',
        (.parameters, ⟨(before ++ gap ++ ['(']).length,
          (before ++ gap ++ ['('] ++ parameters).length⟩) :: parts⟩ := by
  rw [methodTail_eq] at h
  simp only [append_eq, mem_outcomes_andThen] at h
  obtain ⟨g, hgap, a, hopen, p, hparameters, b, hclose, hclause⟩ := h
  obtain ⟨gap, hgapBlank, hpre, rfl⟩ := mem_outcomes_many.1 hgap
  obtain ⟨rest1, rfl, hg⟩ := Cursor.Reads.eq_between ⟨hpre, rfl⟩
  obtain ⟨hpre, rfl⟩ := mem_outcomes_fixed.1 hopen
  simp only [hg] at hpre hparameters
  obtain ⟨rest2, rfl, ha⟩ := Cursor.Reads.eq_between ⟨hpre, rfl⟩
  rw [ha] at hparameters
  obtain ⟨n, hnested, rfl⟩ := mem_outcomes_part.1 hparameters
  obtain ⟨parameters, hread, hlanguage⟩ := exists_inLanguage_of_mem_outcomes hnested
  have hnestedParts := (reads_of_mem_outcomes hnested).parts_eq (by simp [nested, text, mayReport])
  obtain ⟨rest3, rfl, hn⟩ := hread.eq_between
  obtain ⟨hpre, rfl⟩ := mem_outcomes_fixed.1 hclose
  simp only [hn] at hpre hclause
  obtain ⟨rest4, rfl, hb⟩ := Cursor.Reads.eq_between ⟨hpre, rfl⟩
  rw [hb] at hclause
  obtain ⟨clause, hread, hclauseChars⟩ := (reads_of_mem_outcomes hclause).reads
  have hclauseParts := (reads_of_mem_outcomes hclause).parts_eq
    (by simp [clausePattern, maybe, someOf, someBlanks, blanks, text, mayReport])
  obtain ⟨rest5, rfl, hcursor⟩ := hread.eq_between
  refine ⟨gap, parameters, clause, rest5, rfl, hgapBlank, parensMatch_of_nested hlanguage,
    fun c hc => ne_of_mayRead_clausePattern (hclauseChars c hc), ?_⟩
  have hcursor' : o.cursor =
      .between (before ++ gap ++ '(' :: (parameters ++ ')' :: clause)) rest5 := by
    rw [hcursor]
    simp
  have hparts : o.parts = (.parameters, ⟨(before ++ gap ++ ['(']).length,
      (before ++ gap ++ ['('] ++ parameters).length⟩) :: parts := by
    rw [hclauseParts]
    simp [hnestedParts]
  rw [← hcursor', ← hparts]

end

/-- The match reports the pieces of a heading that stands behind a text. -/
structure Heading.ReadBy (h : Heading) (before : Text) (m : Match HeaderPart) : Prop where
  start : m.start = before.length
  stop : m.stop = (before ++ h.text).length
  declaration : m.span? .declaration =
    some ⟨(before ++ h.indent).length, (before ++ h.indent ++ h.declaration).length⟩
  name : m.span? .name = some ⟨(before ++ h.indent ++ h.declaration).length,
    (before ++ h.indent ++ h.declaration ++ h.name).length⟩
  parameters : m.span? .parameters = some
    ⟨(before ++ h.indent ++ h.declaration ++ h.name ++ h.gap ++ ['(']).length,
      (before ++ h.indent ++ h.declaration ++ h.name ++ h.gap ++ ['('] ++ h.parameters).length⟩
  terminator : m.span? .terminator = some
    ⟨(before ++ h.indent ++ h.declaration ++ h.name ++ h.gap ++
        '(' :: (h.parameters ++ ')' :: h.clause)).length,
      (before ++ h.indent ++ h.declaration ++ h.name ++ h.gap ++
        '(' :: (h.parameters ++ ')' :: h.clause) ++ [h.mark]).length⟩

/-- Where no comment and no annotation starts, what is read is a heading. -/
theorem exists_heading_of_mem {o : Outcome HeaderPart} (hrest : Unmarked rest)
    (h : o ∈ methodHeader.outcomes ⟨.between before rest, []⟩) : ∃ (k : Heading) (behind : Text),
      rest = k.text ++ behind ∧ k.ReadBy before ⟨before.length, o.cursor.offset, o.parts⟩ := by
  obtain ⟨⟨ca, pa⟩, hfront, ⟨cd, pd⟩, hdeclaration, n, hname, e, htail, hend⟩ :=
    mem_outcomes_methodHeader.1 h
  -- the pieces, one behind the other
  obtain ⟨indent, hindent, hread⟩ := reads_of_mem_methodFront hrest hfront
  obtain ⟨rest1, rfl, rfl⟩ := hread.eq_between
  have hapart := apart_of_mem_methodDeclaration hdeclaration
  obtain ⟨declaration, rest2, rfl, hdeclarationChars, hcd, hdeclared⟩ :=
    exists_declaration_of_mem hdeclaration
  simp only at hcd hdeclared
  subst hcd
  obtain ⟨name, rest3, rfl, hnameNe, hnameChars, rfl⟩ := exists_name_of_mem hname
  obtain ⟨gap, parameters, clause, rest4, rfl, hgap, hparameters, hclause, rfl⟩ :=
    exists_tail_of_mem htail
  obtain ⟨mark, behind, rfl, hmark, rfl⟩ := exists_mark_of_mem hend
  have hdeclarationEnd : ∀ c ∈ declaration.getLast?, isBlank c = true := by
    intro c hc
    have hne : declaration ≠ [] := by
      rintro rfl
      cases hc
    rcases hapart with hsame | ⟨e, he, hblank⟩ | hnext
    · have hoffset := congrArg Cursor.offset hsame
      rw [Cursor.between_offset, Cursor.between_offset, List.length_append] at hoffset
      have hpos := List.length_pos_iff.2 hne
      omega
    · rw [Cursor.between_previous, List.getLast?_append_of_ne_nil _ hne, Option.mem_def.1 hc] at he
      rwa [Option.some.inj he]
    · obtain ⟨c, letters, rfl⟩ := List.exists_cons_of_ne_nil hnameNe
      have hword := hnameChars c List.mem_cons_self
      exact absurd (hword.symm.trans (hnext c rfl)) (by decide)
  refine ⟨⟨indent, declaration, name, gap, parameters, clause, mark, hindent, hdeclarationChars,
    hdeclarationEnd, hnameNe, hnameChars, hgap, hparameters, hclause, hmark⟩, behind, ?_, ?_⟩
  · simp [Heading.text, Heading.front]
  · exact
      { start := rfl
        stop := by simp [Heading.text, Heading.front]
        declaration := hdeclared
        name := rfl
        parameters := rfl
        terminator := rfl }

end Glossator.Java
