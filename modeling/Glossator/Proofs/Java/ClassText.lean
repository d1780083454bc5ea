import Glossator.Proofs.Java.ClassTree
import Glossator.Proofs.Text.Split

/-!
# What the texts of class trees are made of

The search for headers passes over the pieces of a class tree's text: methods, the openings of
nested classes and the ends of these. This module says which words and which characters there are in
such pieces, and that their braces are balanced.

* `Java.Keywordless.append_cons`: words are looked for on both sides of what is no word character.
* `Java.openBraces?_text`: the members of a class leave no brace open.
-/

set_option autoImplicit false

namespace Glossator

namespace Java

/-! ### Words -/

namespace Keywordless

theorem nil : Keywordless [] := by
  have hnil : ([] : Text) ∉ typeKeywords := by decide
  simpa [Keywordless, wholeWords, Text.splitAt] using hnil

/-- Words are looked for on both sides of what is no word character. -/
theorem append_cons {c : Char} (hc : isWord c = false) {a b : Text} (ha : Keywordless a)
    (hb : Keywordless b) : Keywordless (a ++ c :: b) := by
  intro w hw
  rw [wholeWords, Text.splitAt_append_cons (by simp [hc]), List.mem_append] at hw
  exact hw.elim (ha w) (hb w)

theorem cons {c : Char} (hc : isWord c = false) {b : Text} (hb : Keywordless b) :
    Keywordless (c :: b) := append_cons hc nil hb

/-- A word that begins no type header. -/
theorem of_word {w : Text} (hw : ∀ c ∈ w, isWord c = true) (h : w ∉ typeKeywords) :
    Keywordless w := by
  intro v hv
  rw [wholeWords, Text.splitAt_eq_singleton (by simpa using hw), List.mem_singleton] at hv
  exact hv ▸ h

theorem blanks_append {gap t : Text} (hgap : ∀ c ∈ gap, isBlank c = true) (ht : Keywordless t) :
    Keywordless (gap ++ t) := by
  induction gap with
  | nil => exact ht
  | cons c gap ih =>
    exact cons (isWord_eq_false_of_isBlank (hgap c List.mem_cons_self))
      (ih fun d hd => hgap d (List.mem_cons_of_mem c hd))

end Keywordless

/-- The words that the search for headers takes for something else than a name. -/
def specialWords : List Text :=
  methodModifiers.map String.toList ++ typeKeywords ++ statementStarts ++ reservedNames

/-- A word that the search for headers takes for a name. -/
structure PlainWord (w : Text) : Prop where
  ne_nil : w ≠ []
  chars : ∀ c ∈ w, isAsciiWord c = true
  plain : w ∉ specialWords

namespace PlainWord

variable {w : Text}

theorem isWord (h : PlainWord w) : ∀ c ∈ w, Glossator.isWord c = true :=
  fun c hc => isWord_of_isAsciiWord (h.chars c hc)

theorem keywordless (h : PlainWord w) : Keywordless w := by
  refine .of_word h.isWord fun hmem => h.plain ?_
  simp only [specialWords, List.mem_append]
  tauto

end PlainWord

theorem specialWords_subset : specialWords ⊆ reservedWords.map String.toList := by
  have hall : specialWords.all (reservedWords.map String.toList).contains = true := by decide
  intro w hw
  have hw' := List.all_eq_true.1 hall w hw
  simpa using hw'

theorem Identifier.plainWord (name : Identifier) : PlainWord name.text := by
  refine ⟨?_, name.chars, fun h => name.free (specialWords_subset h)⟩
  intro hnil
  have hstarts := name.starts
  rw [hnil] at hstarts
  exact absurd hstarts (by decide)

theorem TypeName.plainWord (type : TypeName) : PlainWord type.text := by
  cases type with
  | declared name => exact name.plainWord
  | builtIn word h =>
    have hall : builtInTypes.all (fun word => word.toList ≠ [] ∧ word.toList.all isAsciiWord ∧
        word.toList ∉ specialWords) = true := by decide
    obtain ⟨hne, hchars, hplain⟩ := of_decide_eq_true (List.all_eq_true.1 hall word h)
    exact ⟨hne, List.all_eq_true.1 hchars, hplain⟩

/-- The modifiers of methods are words that begin neither the header of a type nor a statement. -/
theorem word_of_mem_memberModifiers {w : String} (h : w ∈ memberModifiers) :
    w.toList ≠ [] ∧ (∀ c ∈ w.toList, isWord c = true) ∧ w.toList ∉ typeKeywords ∧
      w.toList ∉ statementStarts := by
  have hall : memberModifiers.all (fun w => w.toList ≠ [] ∧ w.toList.all isAsciiWord ∧
      w.toList ∉ typeKeywords ∧ w.toList ∉ statementStarts) = true := by decide
  obtain ⟨hne, hchars, hplain⟩ := of_decide_eq_true (List.all_eq_true.1 hall w h)
  exact ⟨hne, fun c hc => isWord_of_isAsciiWord (List.all_eq_true.1 hchars c hc), hplain⟩

theorem isBlank_of_mem_space : ∀ c ∈ ([' '] : Text), isBlank c = true := by
  intro c hc
  rw [List.mem_singleton.1 hc]
  decide

/-! ### Characters -/

/-- The characters of the text of a class tree. -/
def isTreeChar (c : Char) : Bool :=
  isWord c || isBlank c || c = '(' || c = ')' || c = ',' || c = ';' || c = '=' || c = '{' || c = '}'

theorem isTreeChar_of_isWord {c : Char} (h : isWord c = true) : isTreeChar c = true := by
  simp [isTreeChar, h]

theorem isTreeChar_of_isBlank {c : Char} (h : isBlank c = true) : isTreeChar c = true := by
  simp [isTreeChar, h]

/-- The characters that open comments, literals, annotations and type parameters. -/
def openers : List Char := ['/', '@', '<', '"', '\'']

theorem not_mem_openers_of_isTreeChar {c : Char} (h : isTreeChar c = true) : c ∉ openers := by
  have hall : openers.all (fun c => !isTreeChar c) = true := by decide
  intro hc
  have hnot := List.all_eq_true.1 hall c hc
  rw [h] at hnot
  cases hnot

theorem isTreeChar_of_isBodyChar {c : Char} (h : isBodyChar c = true) : isTreeChar c = true := by
  have hspace : isBlank ' ' = true := by decide
  have hnewline : isBlank '\n' = true := by decide
  simp only [isBodyChar, Bool.or_eq_true, decide_eq_true_eq] at h
  simp only [isTreeChar, Bool.or_eq_true, decide_eq_true_eq]
  rcases h with (((((h | rfl) | rfl) | h) | h) | h) | h <;> tauto

theorem Layout.isBlank_newLine (layout : Layout) (depth : Nat) :
    ∀ c ∈ layout.newLine depth, isBlank c = true := by
  intro c hc
  rcases List.mem_cons.1 hc with rfl | hc
  · decide
  · rcases layout.indent_blank depth c hc with rfl | rfl <;> decide

/-- The characters of the parameters of a method. -/
theorem mem_parametersText {parameters : List Parameter} {c : Char}
    (h : c ∈ parametersText parameters) : isWord c = true ∨ c = ',' ∨ c = ' ' := by
  induction parameters with
  | nil => cases h
  | cons p parameters ih =>
    have hp (hc : c ∈ p.text) : isWord c = true ∨ c = ',' ∨ c = ' ' := by
      rw [Parameter.text, List.mem_append, List.mem_cons] at hc
      rcases hc with hc | rfl | hc
      · exact .inl (p.type.plainWord.isWord c hc)
      · exact .inr (.inr rfl)
      · exact .inl (p.name.plainWord.isWord c hc)
    cases parameters with
    | nil =>
      refine hp ?_
      simpa [parametersText, Text.join] using h
    | cons q parameters =>
      have hmem : c ∈ p.text ++ [',', ' '] ++ parametersText (q :: parameters) := by
        simpa [parametersText, Text.join] using h
      simp only [List.mem_append, List.mem_cons, List.not_mem_nil, or_false] at hmem
      rcases hmem with (hc | hc) | hc
      · exact hp hc
      · exact .inr hc
      · exact ih hc

/-- The characters of the modifiers of a method. -/
theorem mem_modifiersText {modifiers : List String} (hmods : ∀ w ∈ modifiers, w ∈ memberModifiers)
    {c : Char} (h : c ∈ modifiersText modifiers) : isWord c = true ∨ c = ' ' := by
  obtain ⟨w, hw, hc⟩ := List.mem_flatMap.1 h
  rcases List.mem_append.1 hc with hc | hc
  · exact .inl ((word_of_mem_memberModifiers (hmods w hw)).2.1 c hc)
  · exact .inr (List.mem_singleton.1 hc)

/-- The characters that stand before the parameters of a method are word characters and spaces. -/
theorem MethodDeclaration.mem_front (m : MethodDeclaration) {c : Char}
    (h : c ∈ modifiersText m.modifiers ++ m.returnType.text ++ ' ' :: m.name.text) :
    isWord c = true ∨ c = ' ' := by
  simp only [List.mem_append, List.mem_cons] at h
  rcases h with (h | h) | rfl | h
  · exact mem_modifiersText m.isModifier h
  · exact .inl (m.returnType.plainWord.isWord c h)
  · exact .inr rfl
  · exact .inl (m.name.plainWord.isWord c h)

theorem MethodDeclaration.text_eq (m : MethodDeclaration) : m.text =
    (modifiersText m.modifiers ++ m.returnType.text ++ ' ' :: m.name.text) ++
      '(' :: (parametersText m.parameters ++ ')' :: ' ' :: '{' :: (m.body.text ++ ['}'])) := by
  simp [text, header, call, block]

theorem MethodDeclaration.isTreeChar (m : MethodDeclaration) :
    ∀ c ∈ m.text, isTreeChar c = true := by
  have hspace : isBlank ' ' = true := by decide
  intro c hc
  rw [m.text_eq] at hc
  rcases List.mem_append.1 hc with hc | hc
  · rcases m.mem_front hc with hword | rfl
    · exact isTreeChar_of_isWord hword
    · exact isTreeChar_of_isBlank hspace
  · simp only [List.mem_cons, List.mem_append, List.not_mem_nil, or_false] at hc
    rcases hc with rfl | hc | rfl | rfl | rfl | hc | rfl
    · decide
    · rcases mem_parametersText hc with hword | rfl | rfl
      · exact isTreeChar_of_isWord hword
      · decide
      · exact isTreeChar_of_isBlank hspace
    · decide
    · exact isTreeChar_of_isBlank hspace
    · decide
    · exact isTreeChar_of_isBodyChar (m.body.chars c hc)
    · decide

theorem isTreeChar_classHeader (name : Identifier) :
    ∀ c ∈ classHeader name, isTreeChar c = true := by
  have hclass : "class ".toList.all isTreeChar = true := by decide
  intro c hc
  rcases List.mem_append.1 hc with hc | hc
  · exact List.all_eq_true.1 hclass c hc
  · exact isTreeChar_of_isWord (name.plainWord.isWord c hc)

theorem isTreeChar_classText {gap inside : Text} (hgap : ∀ c ∈ gap, isBlank c = true)
    (hinside : ∀ c ∈ inside, isTreeChar c = true) (name : Identifier) :
    ∀ c ∈ classText gap name inside, isTreeChar c = true := by
  intro c hc
  simp only [classText, classOpening, List.mem_append, List.mem_cons, List.not_mem_nil, or_false]
    at hc
  rcases hc with (((hc | hc) | rfl | rfl) | hc) | rfl
  · exact isTreeChar_of_isBlank (hgap c hc)
  · exact isTreeChar_classHeader name c hc
  · decide
  · decide
  · exact hinside c hc
  · decide

/-- The text of members consists of the characters of class trees. -/
theorem Members.isTreeChar (layout : Layout) (depth : Nat) (ms : Members) :
    ∀ c ∈ ms.text layout depth, isTreeChar c = true := by
  have hline (depth : Nat) (c : Char) (hc : c ∈ layout.newLine depth) :
      Java.isTreeChar c = true :=
    isTreeChar_of_isBlank (layout.isBlank_newLine depth c hc)
  induction ms generalizing depth with
  | none =>
    intro c hc
    cases hc
  | method m rest ih =>
    intro c hc
    simp only [text, List.mem_append] at hc
    rcases hc with (hc | hc) | hc
    · exact hline depth c hc
    · exact m.isTreeChar c hc
    · exact ih depth c hc
  | type name members rest ihMembers ihRest =>
    intro c hc
    rcases List.mem_append.1 hc with hc | hc
    · refine isTreeChar_classText (layout.isBlank_newLine depth) ?_ name c hc
      intro d hd
      exact (List.mem_append.1 hd).elim (ihMembers (depth + 1) d) (hline depth d)
    · exact ihRest depth c hc

theorem Members.isTreeChar_inside (layout : Layout) (depth : Nat) (ms : Members) :
    ∀ c ∈ ms.inside layout depth, Java.isTreeChar c = true := by
  intro c hc
  rcases List.mem_append.1 hc with hc | hc
  · exact ms.isTreeChar layout (depth + 1) c hc
  · exact isTreeChar_of_isBlank (layout.isBlank_newLine depth c hc)

/-- The text of a class tree consists of the characters of class trees. -/
theorem ClassTree.isTreeChar (tree : ClassTree) (layout : Layout) :
    ∀ c ∈ tree.text layout, isTreeChar c = true := by
  intro c hc
  rcases List.mem_append.1 hc with hc | hc
  · refine isTreeChar_classText ?_ (tree.members.isTreeChar_inside layout 0) tree.name c hc
    intro d hd
    cases hd
  · exact isTreeChar_of_isBlank (layout.ending_blank c hc)

/-! ### Words of methods -/

theorem keywordless_modifiersText {modifiers : List String}
    (hmods : ∀ w ∈ modifiers, w ∈ memberModifiers) {t : Text} (ht : Keywordless t) :
    Keywordless (modifiersText modifiers ++ t) := by
  induction modifiers with
  | nil => exact ht
  | cons w modifiers ih =>
    obtain ⟨-, hchars, hword, -⟩ := word_of_mem_memberModifiers (hmods w List.mem_cons_self)
    rw [modifiersText_cons, List.append_assoc, List.cons_append]
    exact .append_cons (by decide) (.of_word hchars hword)
      (ih fun v hv => hmods v (List.mem_cons_of_mem w hv))

theorem keywordless_parametersText (parameters : List Parameter) :
    Keywordless (parametersText parameters) := by
  have hparameter (p : Parameter) : Keywordless p.text :=
    .append_cons (by decide) p.type.plainWord.keywordless p.name.plainWord.keywordless
  induction parameters with
  | nil => exact .nil
  | cons p parameters ih =>
    cases parameters with
    | nil => simpa [parametersText, Text.join] using hparameter p
    | cons q parameters =>
      have hlist : parametersText (p :: q :: parameters) =
          p.text ++ ',' :: ' ' :: parametersText (q :: parameters) := by
        simp [parametersText, Text.join]
      rw [hlist]
      exact .append_cons (by decide) (hparameter p) (.cons (by decide) ih)

/-- No word of a method begins the header of a type. -/
theorem MethodDeclaration.keywordless (m : MethodDeclaration) : Keywordless m.text := by
  rw [m.text_eq]
  refine .append_cons (by decide) ?_ ?_
  · exact .append_cons (by decide)
      (keywordless_modifiersText m.isModifier m.returnType.plainWord.keywordless)
      m.name.plainWord.keywordless
  · refine .append_cons (by decide) (keywordless_parametersText _)
      (.cons (by decide) (.cons (by decide) ?_))
    exact .append_cons (by decide) m.body.keywordless .nil

/-! ### Braces -/

theorem openBraces?_append {depth depth' : Nat} {a : Text} (h : openBraces? depth a = some depth')
    (b : Text) : openBraces? depth (a ++ b) = openBraces? depth' b := by
  fun_induction openBraces? depth a with
  | case1 depth => rw [List.nil_append, Option.some.inj h]
  | case2 depth rest ih => rw [List.cons_append, openBraces?, if_pos rfl, ih h]
  | case3 rest _ => cases h
  | case4 depth rest hdepth hopen ih =>
    rw [List.cons_append, openBraces?, if_neg hopen, if_pos rfl, if_neg hdepth, ih h]
  | case5 depth c rest hopen hclose ih =>
    rw [List.cons_append, openBraces?, if_neg hopen, if_neg hclose, ih h]

/-- A text that is balanced on its own is so within open braces. -/
theorem openBraces?_add {depth depth' : Nat} {a : Text} (h : openBraces? depth a = some depth')
    (more : Nat) : openBraces? (depth + more) a = some (depth' + more) := by
  fun_induction openBraces? depth a with
  | case1 depth => rw [openBraces?, Option.some.inj h]
  | case2 depth rest ih =>
    rw [openBraces?, if_pos rfl, Nat.add_right_comm, ih h]
  | case3 rest _ => cases h
  | case4 depth rest hdepth hopen ih =>
    have hsub : depth + more - 1 = depth - 1 + more := by omega
    rw [openBraces?, if_neg hopen, if_pos rfl, if_neg (by omega), hsub, ih h]
  | case5 depth c rest hopen hclose ih => rw [openBraces?, if_neg hopen, if_neg hclose, ih h]

theorem openBraces?_of_forall {a : Text} (h : ∀ c ∈ a, c ≠ '{' ∧ c ≠ '}') (depth : Nat) :
    openBraces? depth a = some depth := by
  induction a with
  | nil => rfl
  | cons c a ih =>
    obtain ⟨hopen, hclose⟩ := h c List.mem_cons_self
    rw [openBraces?, if_neg hopen, if_neg hclose, ih fun d hd => h d (List.mem_cons_of_mem c hd)]

/-- A balanced text within braces leaves no brace open. -/
theorem openBraces?_braced {a : Text} (h : openBraces? 0 a = some 0) (depth : Nat) (b : Text) :
    openBraces? depth ('{' :: (a ++ '}' :: b)) = openBraces? depth b := by
  have hinner : openBraces? (depth + 1) a = some (depth + 1) := by
    simpa [Nat.add_comm] using openBraces?_add h (depth + 1)
  have hclose : ('}' : Char) ≠ '{' := by decide
  rw [openBraces?, if_pos rfl, openBraces?_append hinner, openBraces?, if_neg hclose, if_pos rfl,
    if_neg (by omega), Nat.add_sub_cancel]

theorem ne_brace_of_isWord {c : Char} (h : isWord c = true) : c ≠ '{' ∧ c ≠ '}' := by
  constructor <;> (rintro rfl; exact absurd h (by decide))

theorem ne_brace_of_isBlank {c : Char} (h : isBlank c = true) : c ≠ '{' ∧ c ≠ '}' := by
  constructor <;> (rintro rfl; exact absurd h (by decide))

/-- There is no brace in the header of a method. -/
theorem MethodDeclaration.ne_brace_of_mem_header (m : MethodDeclaration) :
    ∀ c ∈ m.header, c ≠ '{' ∧ c ≠ '}' := by
  intro c hc
  have heq : m.header = (modifiersText m.modifiers ++ m.returnType.text ++ ' ' :: m.name.text) ++
      '(' :: (parametersText m.parameters ++ [')', ' ']) := by simp [header, call]
  rw [heq] at hc
  rcases List.mem_append.1 hc with hc | hc
  · rcases m.mem_front hc with hword | rfl
    · exact ne_brace_of_isWord hword
    · decide
  · simp only [List.mem_cons, List.mem_append, List.not_mem_nil, or_false] at hc
    rcases hc with rfl | hc | rfl | rfl
    · decide
    · rcases mem_parametersText hc with hword | rfl | rfl
      · exact ne_brace_of_isWord hword
      · decide
      · decide
    · decide
    · decide

theorem ne_brace_of_mem_classHeader {name : Identifier} : ∀ c ∈ classHeader name,
    c ≠ '{' ∧ c ≠ '}' := by
  have hclass : "class ".toList.all (fun c => c ≠ '{' ∧ c ≠ '}') = true := by decide
  intro c hc
  rcases List.mem_append.1 hc with hc | hc
  · exact of_decide_eq_true (List.all_eq_true.1 hclass c hc)
  · exact ne_brace_of_isWord (name.plainWord.isWord c hc)

/-- A method leaves no brace open. -/
theorem MethodDeclaration.openBraces?_text (m : MethodDeclaration) (depth : Nat) (b : Text) :
    openBraces? depth (m.text ++ b) = openBraces? depth b := by
  rw [text, List.append_assoc,
    openBraces?_append (openBraces?_of_forall m.ne_brace_of_mem_header depth), block,
    List.cons_append, List.append_assoc, List.singleton_append, openBraces?_braced m.body.balanced]

theorem openBraces?_blanks {gap : Text} (hgap : ∀ c ∈ gap, isBlank c = true) (depth : Nat)
    (b : Text) : openBraces? depth (gap ++ b) = openBraces? depth b :=
  openBraces?_append (openBraces?_of_forall (fun c hc => ne_brace_of_isBlank (hgap c hc)) depth) b

theorem Layout.openBraces?_newLine (layout : Layout) (depth depth' : Nat) :
    openBraces? depth' (layout.newLine depth) = some depth' :=
  openBraces?_of_forall (fun c hc => ne_brace_of_isBlank (layout.isBlank_newLine depth c hc)) depth'

/-- A class whose inside is balanced leaves no brace open. -/
theorem openBraces?_classText {gap inside : Text} (hgap : ∀ c ∈ gap, isBlank c = true)
    (hinside : openBraces? 0 inside = some 0) (name : Identifier) (depth : Nat) (b : Text) :
    openBraces? depth (classText gap name inside ++ b) = openBraces? depth b := by
  have hlist : classText gap name inside ++ b =
      gap ++ (classHeader name ++ ' ' :: '{' :: (inside ++ '}' :: b)) := by
    simp [classText, classOpening]
  have hspace (b : Text) : openBraces? depth (' ' :: b) = openBraces? depth b := by
    rw [openBraces?, if_neg (by decide), if_neg (by decide)]
  rw [hlist, openBraces?_blanks hgap,
    openBraces?_append (openBraces?_of_forall ne_brace_of_mem_classHeader depth), hspace,
    openBraces?_braced hinside]

/-- The members of a class leave no brace open. -/
theorem Members.openBraces?_text (layout : Layout) (ms : Members) (depth open' : Nat) :
    openBraces? open' (ms.text layout depth) = some open' := by
  induction ms generalizing depth open' with
  | none => rfl
  | method m rest ih =>
    rw [text, List.append_assoc, openBraces?_blanks (layout.isBlank_newLine depth),
      m.openBraces?_text, ih]
  | type name members rest ihMembers ihRest =>
    have hinside := openBraces?_append (ihMembers (depth + 1) 0) (layout.newLine depth)
    rw [layout.openBraces?_newLine] at hinside
    rw [text, openBraces?_classText (layout.isBlank_newLine depth) hinside, ihRest]

theorem Members.openBraces?_inside (layout : Layout) (depth : Nat) (ms : Members) :
    openBraces? 0 (ms.inside layout depth) = some 0 := by
  rw [inside, openBraces?_append (ms.openBraces?_text layout (depth + 1) 0),
    layout.openBraces?_newLine]

/-! ### Blocks -/

/-- Over a balanced piece the brace is looked for that closes what is open behind it. -/
theorem closingLength?_append {depth depth' : Nat} {a : Text}
    (h : openBraces? depth a = some depth') (b : Text) :
    closingLength? (depth + 1) (a ++ b) = (closingLength? (depth' + 1) b).map (· + a.length) := by
  have hadd (n : Nat) (o : Option Nat) : (o.map (· + n)).map (· + 1) = o.map (· + (n + 1)) := by
    rw [Option.map_map]
    rfl
  fun_induction openBraces? depth a with
  | case1 depth =>
    obtain rfl := Option.some.inj h
    simp
  | case2 depth rest ih =>
    rw [List.cons_append, closingLength?, if_pos rfl, ih h, hadd, List.length_cons]
  | case3 rest _ => cases h
  | case4 depth rest hdepth hopen ih =>
    have hsub : depth + 1 - 1 = depth - 1 + 1 := by omega
    rw [List.cons_append, closingLength?, if_neg hopen, if_pos rfl, if_neg (by omega), hsub, ih h,
      hadd, List.length_cons]
  | case5 depth c rest hopen hclose ih =>
    rw [List.cons_append, closingLength?, if_neg hopen, if_neg hclose, ih h, hadd,
      List.length_cons]

/-- The block that opens with a brace before a balanced text ends behind that text. -/
theorem block?_eq_some {a : Text} (ha : openBraces? 0 a = some 0) {gap : Text}
    (hgap : '{' ∉ gap) (before rest : Text) :
    block? (before ++ gap ++ '{' :: (a ++ '}' :: rest)) before.length =
      some ⟨(before ++ gap).length, (before ++ gap ++ '{' :: (a ++ ['}'])).length, true⟩ := by
  have hgap' : ∀ c ∈ gap, decide (c ≠ '{') = true := by
    intro c hc
    have hne : c ≠ '{' := fun h => hgap (h ▸ hc)
    simp [hne]
  have hclose : closingLength? 0 ('{' :: (a ++ '}' :: rest)) = some (a.length + 2) := by
    have hbrace : ('}' : Char) ≠ '{' := by decide
    rw [closingLength?, if_pos rfl, closingLength?_append ha, closingLength?, if_neg hbrace,
      if_pos rfl, if_pos (by omega)]
    simp only [Option.map_some, Option.some.injEq]
    omega
  have hdrop : (before ++ gap ++ '{' :: (a ++ '}' :: rest)).drop before.length =
      gap ++ '{' :: (a ++ '}' :: rest) := by
    rw [List.append_assoc, List.drop_left]
  rw [block?, hdrop, List.takeWhile_append_of_pos hgap', List.dropWhile_append_of_pos hgap']
  simp [hclose]
  omega

end Java

end Glossator
