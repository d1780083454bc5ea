import Glossator.Proofs.Java.Brackets
import Glossator.Proofs.Java.ClassText
import Glossator.Java.Method

/-!
# Reading words back

The parts of a method's header are split again into the words, types and parameters that they were
written from.

* `Java.words_modifiersText`: the words of the modifiers of a method.
* `Java.splitParameters_parametersText`: the parameters of a method.
-/

set_option autoImplicit false

namespace Glossator

namespace Java

theorem isAlphanumeric_of_isAsciiWord {c : Char} (h : isAsciiWord c = true) :
    isAlphanumeric c = true ∨ c = '_' := by
  rw [isAlphanumeric, CodePoints.member_of_lt (toNat_lt_of_isAsciiWord h)]
  simpa [isAsciiWord] using h

namespace PlainWord

variable {w : Text} (hw : PlainWord w)

include hw

theorem isBlank : ∀ c ∈ w, Glossator.isBlank c = false :=
  fun c hc => isBlank_eq_false_of_isWord (hw.isWord c hc)

theorem words : Text.words w = [w] := Text.words_eq_singleton hw.ne_nil hw.isBlank

theorem not_mem_statementStarts : w ∉ statementStarts := by
  intro hmem
  refine hw.plain ?_
  simp only [specialWords, List.mem_append]
  tauto

theorem not_mem_reservedNames : w ∉ reservedNames := by
  intro hmem
  refine hw.plain ?_
  simp only [specialWords, List.mem_append]
  tauto

/-- A plain word is the only word of a return type. -/
theorem returnTypeWords : returnTypeWords w = [w] := by
  refine Text.splitAt_eq_singleton ?_
  intro c hc
  rcases isAlphanumeric_of_isAsciiWord (hw.chars c hc) with h | rfl
  · simp [h]
  · simp

end PlainWord

/-! ### Modifiers -/

/-- The words of the modifiers of a method and of what follows them. -/
theorem words_modifiersText {modifiers : List String}
    (hmods : ∀ w ∈ modifiers, w ∈ memberModifiers) (t : Text) :
    Text.words (modifiersText modifiers ++ t) = modifiers.map String.toList ++ Text.words t := by
  induction modifiers with
  | nil => rfl
  | cons w modifiers ih =>
    obtain ⟨hne, hchars, -⟩ := word_of_mem_memberModifiers (hmods w List.mem_cons_self)
    have hblank : ∀ c ∈ w.toList, isBlank c = false :=
      fun c hc => isBlank_eq_false_of_isWord (hchars c hc)
    rw [modifiersText_cons, List.append_assoc, List.cons_append,
      Text.words_append_cons (by decide), Text.words_eq_singleton hne hblank,
      ih fun v hv => hmods v (List.mem_cons_of_mem w hv)]
    rfl

/-- Words that occur once each are kept. -/
theorem distinct_eq_self {words : List Text} (h : words.Nodup) : distinct words = words := by
  have hfold (seen words : List Text) (hnodup : (seen ++ words).Nodup) :
      words.foldl (fun seen w => if seen.contains w then seen else seen ++ [w]) seen =
        seen ++ words := by
    induction words generalizing seen with
    | nil => simp
    | cons w words ih =>
      have hnew : w ∉ seen := by
        intro hmem
        exact (List.nodup_append.1 hnodup).2.2 w hmem w List.mem_cons_self rfl
      rw [List.foldl_cons, List.contains_eq_mem, decide_eq_false hnew, if_neg Bool.false_ne_true,
        ih (seen ++ [w]) (by simpa using hnodup)]
      simp
  exact hfold [] words h

/-! ### Types and parameters -/

/-- A type of a class tree is one word. -/
theorem typeWords_text (type : TypeName) : typeWords type.text = [type.text] := by
  have hplain : typeBrackets.Plain 0 type.text := by
    intro c hc
    have hword := type.plainWord.isWord c hc
    have hne {d : Char} (hd : isWord d = false) : c ≠ d := by
      rintro rfl
      exact Bool.false_ne_true (hd.symm.trans hword)
    have hopen : c ≠ '<' := hne (by decide)
    have hclose : c ≠ '>' := hne (by decide)
    simp [typeBrackets, hopen, hclose, isBlank_eq_false_of_isWord hword]
  rw [typeWords, Brackets.split_eq_singleton hplain]
  simp [type.plainWord.ne_nil]

/-- The words of a parameter, joined again. -/
theorem join_words_text (p : Parameter) {gap : Text} (hgap : ∀ c ∈ gap, isBlank c = true) :
    Text.join [' '] (Text.words (gap ++ p.text)) = p.text := by
  rw [Text.words_blanks_append hgap, Parameter.text, Text.words_append_cons (by decide),
    p.type.plainWord.words, p.name.plainWord.words]
  simp [Text.join]

theorem parameter_plain (p : Parameter) {gap : Text} (hgap : ∀ c ∈ gap, isBlank c = true) :
    parameterBrackets.Plain 0 (gap ++ p.text) := by
  have hchars : ∀ c ∈ gap ++ p.text, isWord c = true ∨ isBlank c = true := by
    intro c hc
    simp only [Parameter.text, List.mem_append, List.mem_cons] at hc
    rcases hc with hc | hc | rfl | hc
    · exact .inr (hgap c hc)
    · exact .inl (p.type.plainWord.isWord c hc)
    · exact .inr (by decide)
    · exact .inl (p.name.plainWord.isWord c hc)
  intro c hc
  have hne {d : Char} (hword : isWord d = false) (hblank : isBlank d = false) : c ≠ d := by
    rintro rfl
    rcases hchars c hc with h | h
    · exact Bool.false_ne_true (hword.symm.trans h)
    · exact Bool.false_ne_true (hblank.symm.trans h)
  have hangle : c ≠ '<' := hne (by decide) (by decide)
  have hopen : c ≠ '(' := hne (by decide) (by decide)
  have hangle' : c ≠ '>' := hne (by decide) (by decide)
  have hclose : c ≠ ')' := hne (by decide) (by decide)
  have hcomma : c ≠ ',' := hne (by decide) (by decide)
  simp [parameterBrackets, hangle, hopen, hangle', hclose, hcomma]

/-- The parameters of a method are read back as they were written. -/
theorem splitParameters_parametersText (parameters : List Parameter) :
    splitParameters (parametersText parameters) = parameters.map Parameter.text := by
  have hne (p : Parameter) : (!p.text.isEmpty) = true := by simp [Parameter.text]
  have hpieces (p : Parameter) (parameters : List Parameter) {gap : Text}
      (hgap : ∀ c ∈ gap, isBlank c = true) :
      (parameterBrackets.split 0 (gap ++ parametersText (p :: parameters))).map
        (fun piece => Text.join [' '] (Text.words piece)) =
          (p :: parameters).map Parameter.text := by
    induction parameters generalizing p gap with
    | nil =>
      have hlist : gap ++ parametersText [p] = gap ++ p.text := by
        simp [parametersText, Text.join]
      rw [hlist, Brackets.split_eq_singleton (parameter_plain p hgap), List.map_singleton,
        join_words_text p hgap, List.map_singleton]
    | cons q parameters ih =>
      have hlist : gap ++ parametersText (p :: q :: parameters) =
          (gap ++ p.text) ++ ',' :: ([' '] ++ parametersText (q :: parameters)) := by
        simp [parametersText, Text.join]
      rw [hlist, Brackets.split_append_cons (parameter_plain p hgap) (by decide), List.map_cons,
        join_words_text p hgap, ih q isBlank_of_mem_space]
      rfl
  cases parameters with
  | nil => rfl
  | cons p parameters =>
    have hsplit := hpieces p parameters (List.forall_mem_nil _)
    rw [List.nil_append] at hsplit
    rw [splitParameters, hsplit, List.filter_eq_self]
    intro t ht
    obtain ⟨q, -, rfl⟩ := List.mem_map.1 ht
    exact hne q

end Java

end Glossator
