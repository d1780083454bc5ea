import Glossator.Proofs.Java.ClassText
import Glossator.Proofs.Pattern.Preferred

/-!
# Headers in texts without comments and annotations

In the text of a class tree the patterns of headers have the same outcomes as simpler ones, without
comments, annotations and type parameters. These read words and blanks only, up to the keyword of a
type or the parenthesis of a method, so headers match only in front of these.

* `Java.exists_keyword_of_mem_outcomes`: a type header leads over words and blanks to a keyword.
* `Java.exists_parenthesis_of_mem_outcomes`: a method header leads over words, blanks and commas to
  a parenthesis.
-/

set_option autoImplicit false

namespace Glossator.Java

open Pattern

/-- The header of a type without comments, annotations and type parameters. -/
def plainTypeHeader : HeaderPattern :=
  named .comments .empty ++ .empty ++ maybe (modifierWords typeModifiers) ++ blanks ++
  wordEdge ++ named .kind (anyText ["class", "interface", "enum"]) ++ someBlanks ++
  named .name word ++ .empty

/-- The declaration of a method without type parameters. -/
def plainDeclaration : HeaderPattern :=
  maybe (modifierWords methodModifiers) ++ .empty ++
  maybe (named .returnType (someOf isTypeChar) ++ someBlanks)

/-- The header of a method up to its parameters, without comments and annotations. -/
def plainMethodFront : HeaderPattern :=
  .empty ++ named .annotations .empty ++ lineStart ++ indentation ++
  named .inlineAnnotations .empty ++ named .declaration plainDeclaration ++
  named .name word ++ blanks

/-- The header of a method without comments and annotations. -/
def plainMethodHeader : HeaderPattern :=
  plainMethodFront ++ text "(" ++ named .parameters (nested 2) ++ text ")" ++ blanks ++
  maybe (text "throws" ++ someBlanks ++ someOf (fun c => c ≠ '{' && c ≠ ';')) ++ blanks ++
  named .terminator (one fun c => c = '{' || c = ';')

theorem typeHeader_sameWithout : SameWithout openers typeHeader plainTypeHeader := by
  have hcomments : SameWithout openers
      (named .comments (Pattern.star (docComment ++ blanks ||| lineComment ++ text "\n")))
      (named .comments .empty) :=
    .part _ (.star (by decide : '/' ∈ openers) (by simp [mustRead, docComment, lineComment, text]))
  have hannotations : SameWithout openers (Pattern.star (annotationMark ++ blanks)) .empty :=
    .star (by decide : '@' ∈ openers) (by simp [mustRead, annotationMark, text])
  have hparameters : SameWithout openers
      (maybe (blanks ++ text "<" ++ someOf (· ≠ '>') ++ text ">") : HeaderPattern) .empty :=
    .maybe (by decide : '<' ∈ openers) (by simp [mustRead, text])
  refine .andThen ?_ hparameters
  iterate 6 refine .andThen ?_ (.refl _)
  exact hcomments.andThen hannotations

theorem methodHeader_sameWithout : SameWithout openers methodHeader plainMethodHeader := by
  have hcomments : SameWithout openers methodComments .empty :=
    .maybe (by decide : '/' ∈ openers)
      (by simp [mustRead, named, plus, docComment, lineComment, text])
  have hannotations : SameWithout openers methodAnnotations (named .annotations .empty) :=
    .part _ (.star (by decide : '@' ∈ openers) (by simp [mustRead, plus, annotationMark, text]))
  have hinline : SameWithout openers
      (named .inlineAnnotations (Pattern.star (annotationMark ++ someBlanks)))
      (named .inlineAnnotations .empty) :=
    .part _ (.star (by decide : '@' ∈ openers) (by simp [mustRead, annotationMark, text]))
  have hdeclaration : SameWithout openers methodDeclaration
      (named .declaration plainDeclaration) := by
    refine .part _ (((SameWithout.refl _).andThen ?_).andThen (.refl _))
    exact .maybeLazy (by decide : '<' ∈ openers) (by simp [mustRead, named, text])
  iterate 9 refine .andThen ?_ (.refl _)
  refine .andThen (.andThen ?_ hinline) hdeclaration
  iterate 2 refine .andThen ?_ (.refl _)
  exact hcomments.andThen hannotations

/-! ### What headers lead over -/

/-- The words of which the modifiers of types and methods are made. -/
theorem isWord_of_mayRead_modifiers {words : List String}
    (hwords : words.all (fun w => w.toList.all isAsciiWord) = true) {c : Char}
    (h : (modifierWords words).mayRead c) : isWord c = true ∨ isBlank c = true := by
  have hread : (anyText words : HeaderPattern).mayRead c ∨ isBlank c = true := by
    simpa [modifierWords, named, plus, mayRead] using h
  rcases hread with hword | hblank
  · obtain ⟨w, hw, hc⟩ := exists_of_mayRead_anyText hword
    have hchars := List.all_eq_true.1 hwords w hw
    exact .inl (isWord_of_isAsciiWord (List.all_eq_true.1 hchars c hc))
  · exact .inr hblank

/-- What stands before the keyword of a type, without comments and annotations. -/
def plainTypeFront : HeaderPattern :=
  named .comments .empty ++ .empty ++ maybe (modifierWords typeModifiers) ++ blanks

theorem mayRead_plainTypeFront {c : Char} (h : plainTypeFront.mayRead c) :
    isWord c = true ∨ isBlank c = true := by
  have hread : (modifierWords typeModifiers).mayRead c ∨ isBlank c = true := by
    simpa [plainTypeFront, named, maybe, blanks, mayRead] using h
  rcases hread with hmods | hblank
  · exact isWord_of_mayRead_modifiers (by decide) hmods
  · exact .inr hblank

theorem mayRead_plainMethodFront {c : Char} (h : plainMethodFront.mayRead c)
    (hc : isTreeChar c = true) : isWord c = true ∨ isBlank c = true ∨ c = ',' := by
  have hspace : isBlank ' ' = true := by decide
  have hread : (modifierWords methodModifiers).mayRead c ∨ isWord c = true ∨ isBlank c = true ∨
      c = '<' ∨ c = '>' ∨ c = '[' ∨ c = ']' ∨ c = ',' ∨ c = '?' ∨ c = ' ' ∨ c = '\t' := by
    simp only [plainMethodFront, plainDeclaration, named, maybe, indentation, someBlanks, someOf,
      word, blanks, append_eq, orOp_eq, mayRead, isTypeChar, Bool.or_eq_true, decide_eq_true_eq]
      at h
    tauto
  have hnot (d : Char) (hd : isTreeChar d = false) : c ≠ d := by
    rintro rfl
    exact Bool.false_ne_true (hd.symm.trans hc)
  rcases hread with h | h | h | h | h | h | h | h | h | rfl | rfl
  · rcases isWord_of_mayRead_modifiers (by decide) h with hword | hblank
    · exact .inl hword
    · exact .inr (.inl hblank)
  · exact .inl h
  · exact .inr (.inl h)
  · exact absurd h (hnot _ (by decide))
  · exact absurd h (hnot _ (by decide))
  · exact absurd h (hnot _ (by decide))
  · exact absurd h (hnot _ (by decide))
  · exact .inr (.inr h)
  · exact absurd h (hnot _ (by decide))
  · exact .inr (.inl hspace)
  · exact .inr (.inl (by decide))

section

variable {t : Text} (ht : ∀ c ∈ t, isTreeChar c = true)

include ht

theorem not_mem_drop {i : Nat} : ∀ c ∈ openers, c ∉ t.drop i := fun c hc hmem =>
  not_mem_openers_of_isTreeChar (ht c (List.mem_of_mem_drop hmem)) hc

/-- A type header leads over words and blanks to a keyword that stands as a word of the text, with a
blank behind it. -/
theorem exists_keyword_of_mem_outcomes {i : Nat} (hi : i ≤ t.length) {o : Outcome HeaderPart}
    (h : o ∈ typeHeader.outcomes ⟨.inText t i, []⟩) :
    ∃ j w, i ≤ j ∧ w ∈ typeKeywords ∧ w <+: t.drop j ∧
      (∀ c ∈ (t.take j).getLast?, isWord c = false) ∧
      (∃ b, t[j + w.length]? = some b ∧ isBlank b = true) ∧
      ∀ k c, i ≤ k → k < j → t[k]? = some c → isWord c = true ∨ isBlank c = true := by
  have hin : Outcome.IsIn t (⟨.inText t i, []⟩ : Outcome HeaderPart) := ⟨rfl, hi⟩
  rw [typeHeader_sameWithout _ (not_mem_drop ht)] at h
  obtain ⟨o5, h, -⟩ := mem_outcomes_andThen.1 h
  obtain ⟨o4, h, -⟩ := mem_outcomes_andThen.1 h
  obtain ⟨o3, h, hgap⟩ := mem_outcomes_andThen.1 h
  obtain ⟨o1, h, hkind⟩ := mem_outcomes_andThen.1 h
  obtain ⟨front, hfront, hedge⟩ := mem_outcomes_andThen.1 h
  obtain ⟨rfl, hedge⟩ := mem_outcomes_wordEdge.1 hedge
  obtain ⟨k, hk, rfl⟩ := mem_outcomes_part.1 hkind
  obtain ⟨w, hw, hinitial, rfl⟩ := mem_outcomes_anyText.1 hk
  obtain ⟨hin1, hle⟩ := hin.of_mem hfront
  obtain ⟨hink, -⟩ := hin1.of_mem hk
  rw [hin1.1, Cursor.inText_rest] at hinitial
  -- a keyword begins with a word character
  have hhead : (t.drop o1.cursor.offset).head?.any isWord = true := by
    have hall : ["class", "interface", "enum"].all (fun w => w.toList.head?.any isWord) = true := by
      decide
    obtain ⟨rest, hrest⟩ := hinitial
    have hfirst := List.all_eq_true.1 hall w hw
    cases hw' : w.toList with
    | nil =>
      rw [hw'] at hfirst
      cases hfirst
    | cons c letters =>
      rw [hw'] at hfirst
      rw [← hrest, hw']
      exact hfirst
  refine ⟨o1.cursor.offset, w.toList, hle, List.mem_map_of_mem hw, hinitial, ?_, ?_, ?_⟩
  · intro c hc
    rw [hin1.1, Cursor.atWordEdge, Cursor.inText_rest, hhead] at hedge
    have hprevious : (Cursor.inText t o1.cursor.offset).previous = some c := hc
    rw [hprevious] at hedge
    simpa using hedge
  · obtain ⟨-, piece, hne, hread, hblank⟩ := reads_of_mem_someOf hgap
    obtain ⟨b, piece, rfl⟩ := List.exists_cons_of_ne_nil hne
    have hbehind : o1.cursor.behind w.toList =
        .inText t (o1.cursor.offset + w.toList.length) := hink.1
    obtain ⟨rest, hrest⟩ := hread.1
    simp only [hbehind, Cursor.inText_rest] at hrest
    refine ⟨b, ?_, hblank b List.mem_cons_self⟩
    rw [← List.head?_drop, ← hrest]
    rfl
  · intro k c hik hkj hc
    exact mayRead_plainTypeFront (hin.mayRead_of_mem hfront hik hkj hc)

/-- A method header starts a line, and it leads over words, blanks and commas to a parenthesis. -/
theorem exists_parenthesis_of_mem_outcomes {i : Nat} (hi : i ≤ t.length) {o : Outcome HeaderPart}
    (h : o ∈ methodHeader.outcomes ⟨.inText t i, []⟩) :
    (Cursor.inText t i).atLineStart = true ∧ ∃ j, i ≤ j ∧ t[j]? = some '(' ∧
      ∀ k c, i ≤ k → k < j → t[k]? = some c → isWord c = true ∨ isBlank c = true ∨ c = ',' := by
  have hin : Outcome.IsIn t (⟨.inText t i, []⟩ : Outcome HeaderPart) := ⟨rfl, hi⟩
  rw [methodHeader_sameWithout _ (not_mem_drop ht)] at h
  obtain ⟨o6, h, -⟩ := mem_outcomes_andThen.1 h
  obtain ⟨o5, h, -⟩ := mem_outcomes_andThen.1 h
  obtain ⟨o4, h, -⟩ := mem_outcomes_andThen.1 h
  obtain ⟨o3, h, -⟩ := mem_outcomes_andThen.1 h
  obtain ⟨o2, h, -⟩ := mem_outcomes_andThen.1 h
  obtain ⟨o1, h, -⟩ := mem_outcomes_andThen.1 h
  obtain ⟨o, hfront, hparenthesis⟩ := mem_outcomes_andThen.1 h
  obtain ⟨hino, hle⟩ := hin.of_mem hfront
  constructor
  · obtain ⟨p5, h, -⟩ := mem_outcomes_andThen.1 hfront
    obtain ⟨p4, h, -⟩ := mem_outcomes_andThen.1 h
    obtain ⟨p3, h, -⟩ := mem_outcomes_andThen.1 h
    obtain ⟨p2, h, -⟩ := mem_outcomes_andThen.1 h
    obtain ⟨p1, h, -⟩ := mem_outcomes_andThen.1 h
    obtain ⟨_, h, hline⟩ := mem_outcomes_andThen.1 h
    obtain ⟨rfl, hline⟩ := mem_outcomes_lineStart.1 hline
    obtain ⟨p, hempty, hannotations⟩ := mem_outcomes_andThen.1 h
    obtain ⟨mid, hmid, rfl⟩ := mem_outcomes_part.1 hannotations
    obtain rfl := List.mem_singleton.1 hempty
    obtain rfl := List.mem_singleton.1 hmid
    exact hline
  · obtain ⟨hinitial, -⟩ := mem_outcomes_fixed.1 hparenthesis
    rw [hino.1, Cursor.inText_rest] at hinitial
    obtain ⟨rest, hrest⟩ := hinitial
    refine ⟨o.cursor.offset, hle, ?_, ?_⟩
    · rw [← List.head?_drop, ← hrest]
      rfl
    · intro k c hik hkj hc
      exact mayRead_plainMethodFront (hin.mayRead_of_mem hfront hik hkj hc)
        (ht c (List.mem_of_getElem? hc))

end

end Glossator.Java
