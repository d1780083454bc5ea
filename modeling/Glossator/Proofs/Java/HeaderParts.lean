import Glossator.Proofs.Java.Header
import Glossator.Proofs.Pattern.Greedy
import Glossator.Proofs.Text.Span
import Glossator.Proofs.Text.Split

/-!
# What the parts of a method's header hold

The header of a method is its front, its declaration and what stands behind that. The modifiers in
the declaration are words of the list, and each ends where a word ends, so no two of them run
together.

* `Java.lead_methodHeader`: a header is read piece by piece.
* `Java.words_modifiers_subset`: the words of the modifiers are modifiers.
-/

set_option autoImplicit false

namespace Glossator

namespace Java

open Pattern

/-! ### Declarations -/

/-- The type parameters of a method. -/
def typeParameters : HeaderPattern :=
  maybeLazy (named .typeParameters ((text "<" ++
    someOf (fun c => isWord c || isBlank c || c = ',' || c = '?' || c = '[' || c = ']') ++
    text ">") ++ someBlanks))

/-- The return type of a method and the blanks behind it. -/
def returnType : HeaderPattern := maybe (named .returnType (someOf isTypeChar) ++ someBlanks)

theorem methodDeclaration_eq : methodDeclaration = part .declaration
    ((maybe (modifierWords methodModifiers)).andThen typeParameters |>.andThen returnType) := rfl

/-- What stands behind the declaration of a method. -/
def behindDeclaration : HeaderPattern :=
  (part .name word).andThen
    (methodTail.andThen (part .terminator (one fun c => c = '{' || c = ';')))

theorem lead_methodHeader {β : Type} (o : Outcome HeaderPart)
    (next : Outcome HeaderPart → Option β) :
    lead methodHeader o next = lead methodFront o fun o1 => lead methodDeclaration o1 fun o2 =>
      lead behindDeclaration o2 next := by
  simp only [methodHeader, methodFront, behindDeclaration, methodTail, named, append_eq,
    lead_andThen]

/-! ### Modifiers -/

/-- A list of words that can be modifiers. -/
def AllWords (words : List String) : Prop :=
  ∀ s ∈ words, s.toList ≠ [] ∧ ∀ c ∈ s.toList, isWord c = true

theorem AllWords.of_all {words : List String}
    (h : words.all (fun w => w.toList ≠ [] ∧ w.toList.all isAsciiWord) = true) :
    AllWords words := by
  intro s hs
  obtain ⟨hne, hchars⟩ := of_decide_eq_true (List.all_eq_true.1 h s hs)
  exact ⟨hne, fun c hc => isWord_of_isAsciiWord (List.all_eq_true.1 hchars c hc)⟩

/-- One of the words, or a blank. -/
def modifierStep (words : List String) : HeaderPattern := anyText words ++ wordEdge ||| one isBlank

/-- What modifiers were read up to a place: words of a list, the last of which ends there or is
followed by blanks. -/
structure ModifiersRead (words : List String) (u : Text) (c : Cursor) : Prop where
  words_mem : ∀ w ∈ Text.words u, w ∈ words.map String.toList
  last : u = [] ∨ (∃ front b, u = front ++ [b] ∧ isBlank b = true) ∨
    ∀ d ∈ c.rest.head?, isWord d = false

/-- One more modifier or blank is read. -/
theorem ModifiersRead.step {words : List String} (hwords : AllWords words) {u : Text}
    {a b : Outcome HeaderPart} (h : ModifiersRead words u a.cursor)
    (hstep : b ∈ (modifierStep words).outcomes a) :
    b.parts = a.parts ∧ ∃ v, a.cursor.Reads v b.cursor ∧ ModifiersRead words (u ++ v) b.cursor := by
  rw [modifierStep, orOp_eq, outcomes, List.mem_append, append_eq, mem_outcomes_andThen] at hstep
  rcases hstep with ⟨mid, hmid, hedge⟩ | hblank
  · obtain ⟨rfl, hedge⟩ := mem_outcomes_wordEdge.1 hedge
    obtain ⟨w, hw, hpre, rfl⟩ := mem_outcomes_anyText.1 hmid
    obtain ⟨hne, hchars⟩ := hwords w hw
    have hblank : ∀ c ∈ w.toList, isBlank c = false :=
      fun c hc => isBlank_eq_false_of_isWord (hchars c hc)
    refine ⟨rfl, w.toList, ⟨hpre, rfl⟩, ?_, .inr (.inr ?_)⟩
    · -- no modifier was read right before this one
      rcases h.last with rfl | ⟨front, c, rfl, hc⟩ | hnext
      · rw [List.nil_append, Text.words_eq_singleton hne hblank]
        intro v hv
        rw [List.mem_singleton.1 hv]
        exact List.mem_map_of_mem hw
      · have hlist : front ++ [c] ++ w.toList = front ++ c :: w.toList := by simp
        have hfront := h.words_mem
        rw [Text.words_append_cons hc] at hfront
        rw [hlist, Text.words_append_cons hc, Text.words_eq_singleton hne hblank]
        intro v hv
        rcases List.mem_append.1 hv with hv | hv
        · exact hfront v (List.mem_append_left _ hv)
        · rw [List.mem_singleton.1 hv]
          exact List.mem_map_of_mem hw
      · obtain ⟨c, letters, hletters⟩ := List.exists_cons_of_ne_nil hne
        obtain ⟨rest, hrest⟩ := hpre
        have hword := hchars c (by rw [hletters]; exact List.mem_cons_self)
        have hnot := hnext c (by rw [← hrest, hletters]; rfl)
        exact absurd (hnot.symm.trans hword) Bool.false_ne_true
    · intro d hd
      obtain ⟨c, hc⟩ := Option.isSome_iff_exists.1 (List.getLast?_isSome.2 hne)
      have hprevious : (a.cursor.behind w.toList).previous.any isWord = true := by
        simp only [Cursor.behind, hc, Option.some_or, Option.any_some]
        exact hchars c (List.mem_of_getLast? hc)
      obtain hd : (a.cursor.behind w.toList).rest.head? = some d := hd
      simpa [Cursor.atWordEdge, hprevious, hd] using hedge
  · rw [outcomes] at hblank
    split at hblank
    · cases hblank
    · next c rest hrest =>
      split at hblank
      · next hc =>
        obtain rfl := List.mem_singleton.1 hblank
        refine ⟨rfl, [c], ⟨⟨rest, hrest.symm⟩, by simp [Cursor.behind, hrest]⟩, ?_,
          .inr (.inl ⟨u, c, rfl, hc⟩)⟩
        rw [Text.words_append_cons hc, Text.words_nil, List.append_nil]
        exact h.words_mem
      · cases hblank

/-- The modifiers of a header are words of the list. -/
theorem exists_read_of_mem_modifierWords {words : List String} (hwords : AllWords words)
    {a b : Outcome HeaderPart} (h : b ∈ (modifierWords words).outcomes a) :
    ∃ u, a.cursor.Reads u b.cursor ∧ (∀ w ∈ Text.words u, w ∈ words.map String.toList) ∧
      b.parts = (.modifiers, ⟨a.cursor.offset, b.cursor.offset⟩) :: a.parts := by
  obtain ⟨o, ho, rfl⟩ := mem_outcomes_part.1 h
  obtain ⟨first, hfirst, hstar⟩ := mem_outcomes_andThen.1 ho
  rw [outcomes] at hstar
  -- by induction on the steps taken, the first of which is taken in any case
  have hread : ∃ u, a.cursor.Reads u o.cursor ∧ ModifiersRead words u o.cursor ∧
      o.parts = a.parts := by
    have hsteps := Outcome.reflTransGen_of_mem_repeat hstar
    clear h ho hstar
    induction hsteps with
    | refl =>
      obtain ⟨hparts, v, hv, hmods⟩ := ModifiersRead.step hwords
        (⟨by simp, .inl rfl⟩ : ModifiersRead words [] a.cursor) hfirst
      exact ⟨v, hv, hmods, hparts⟩
    | tail _ hstep ih =>
      obtain ⟨u, hu, hmods, hparts⟩ := ih
      obtain ⟨hsame, v, hv, hmods'⟩ := hmods.step hwords hstep.1
      exact ⟨u ++ v, hu.trans hv, hmods', hsame.trans hparts⟩
  obtain ⟨u, hu, hmods, hparts⟩ := hread
  exact ⟨u, hu, hmods.words_mem, by rw [hparts]⟩

theorem allWords_methodModifiers : AllWords methodModifiers := .of_all (by decide)

theorem not_mayReport_modifiers : ¬ methodFront.mayReport .modifiers ∧
    ¬ typeParameters.mayReport .modifiers ∧ ¬ returnType.mayReport .modifiers ∧
    ¬ behindDeclaration.mayReport .modifiers := by
  simp [methodFront, methodComments, methodAnnotations, docComment, lineComment, annotationMark,
    nested, named, maybe, maybeLazy, plus, someOf, someBlanks, indentation, blanks, text, word,
    typeParameters, returnType, behindDeclaration, methodTail, mayReport]

/-- The modifiers of a header are those that are read first in its declaration. -/
theorem exists_modifiers_of_matchAt? {t : Text} {i : Nat} {m : Match HeaderPart}
    (h : methodHeader.matchAt? t i = some m) :
    ∃ o ∈ methodFront.outcomes ⟨.inText t i, []⟩,
      ∃ a ∈ (maybe (modifierWords methodModifiers)).outcomes o,
        o.parts.lookup .modifiers = none ∧ m.span? .modifiers = a.parts.lookup .modifiers := by
  obtain ⟨hfront, hparameters, htype, hbehind⟩ := not_mayReport_modifiers
  rw [matchAt?, lead_methodHeader] at h
  obtain ⟨o, ho, hlead⟩ := exists_of_lead_eq_some h
  obtain ⟨_, hdeclaration, hrest⟩ := exists_of_lead_eq_some hlead
  obtain ⟨e, he, hm⟩ := exists_of_lead_eq_some hrest
  rw [methodDeclaration_eq] at hdeclaration
  obtain ⟨d, hd, rfl⟩ := mem_outcomes_part.1 hdeclaration
  obtain ⟨b, hb, hd⟩ := mem_outcomes_andThen.1 hd
  obtain ⟨a, ha, hb⟩ := mem_outcomes_andThen.1 hb
  refine ⟨o, ho, a, ha, (reads_of_mem_outcomes ho).lookup_eq hfront, ?_⟩
  have hlater := (reads_of_mem_outcomes he).lookup_eq hbehind
  rw [← (reads_of_mem_outcomes hb).lookup_eq hparameters,
    ← (reads_of_mem_outcomes hd).lookup_eq htype, ← Option.some.inj hm]
  exact hlater

/-- The words of the modifiers of a method that is found are modifiers. -/
theorem words_modifiers_subset {t : Text} {i : Nat} {m : Match HeaderPart}
    (hi : i ≤ t.length) (h : methodHeader.matchAt? t i = some m) :
    ∀ w ∈ Text.words (m.text t .modifiers), w ∈ methodModifiers.map String.toList := by
  have hin : Outcome.IsIn t (⟨.inText t i, []⟩ : Outcome HeaderPart) := ⟨rfl, hi⟩
  obtain ⟨o, ho, a, ha, hnone, hspan⟩ := exists_modifiers_of_matchAt? h
  obtain ⟨hino, -⟩ := hin.of_mem ho
  rw [maybe, orOp_eq, outcomes, List.mem_append] at ha
  rw [Match.text, Match.text?, hspan]
  rcases ha with hmodifiers | habsent
  · obtain ⟨u, hu, hwords, hparts⟩ :=
      exists_read_of_mem_modifierWords allWords_methodModifiers hmodifiers
    rw [hparts, List.lookup_cons_self, Option.map_some, Option.getD_some, hino.slice_eq hu]
    exact hwords
  · have hsame : a = o := by simpa only [outcomes, List.mem_singleton] using habsent
    rw [hsame, hnone]
    exact fun w hw => absurd hw List.not_mem_nil

end Java

end Glossator
