import Glossator.Proofs.Java.HeaderParts
import Glossator.Proofs.Java.Passing

/-!
# The headers of class trees

How the patterns of headers read the classes and methods of a class tree: which way they prefer, and
which parts they report.

* `Java.typeHeader_matchAt?`: the match of the header of a class.
* `Java.methodHeader_matchAt?`: the match of the header of a method.
-/

set_option autoImplicit false

namespace Glossator.Java

open Pattern

/-! ### Modifiers -/

theorem exists_head?_append {w : Text} (hne : w ≠ []) (hw : ∀ c ∈ w, isWord c = true)
    (rest : Text) : ∃ c, (w ++ rest).head? = some c ∧ isWord c = true := by
  obtain ⟨c, letters, rfl⟩ := List.exists_cons_of_ne_nil hne
  exact ⟨c, rfl, hw c List.mem_cons_self⟩

theorem isBlank_head?_append {w : Text} (hne : w ≠ []) (hw : ∀ c ∈ w, isWord c = true)
    (rest : Text) : ∀ c ∈ (w ++ rest).head?, isBlank c = false := by
  intro c hc
  obtain ⟨d, hd, hword⟩ := exists_head?_append hne hw rest
  obtain rfl : d = c := Option.some.inj (hd.symm.trans hc)
  exact isBlank_eq_false_of_isWord hword

/-- Blanks and words from a list, with a blank behind each word. -/
inductive ModifierText (words : List String) : Text → Prop where
  | nil : ModifierText words []
  | blank {c : Char} {t : Text} : isBlank c = true → ModifierText words t →
      ModifierText words (c :: t)
  | word {w : Text} {t : Text} : w ∈ words.map String.toList → ModifierText words (' ' :: t) →
      ModifierText words (w ++ ' ' :: t)

section

variable {words : List String} {before t rest : Text} {parts : List (HeaderPart × Span)}

theorem wholeWord_outcomes_eq_nil (hwords : AllWords words) {c : Char} (hc : isBlank c = true) :
    (anyText words ++ wordEdge : HeaderPattern).outcomes ⟨.between before (c :: rest), parts⟩ =
      [] := by
  rw [List.eq_nil_iff_forall_not_mem]
  intro o ho
  obtain ⟨mid, hmid, -⟩ := mem_outcomes_andThen.1 ho
  obtain ⟨s, hs, ⟨tail, htail⟩, -⟩ := mem_outcomes_anyText.1 hmid
  obtain ⟨hne, hchars⟩ := hwords s hs
  obtain ⟨d, letters, hletters⟩ := List.exists_cons_of_ne_nil hne
  rw [hletters, Cursor.between_rest, List.cons_append] at htail
  obtain rfl : d = c := (List.cons.inj htail).1
  have hword := hchars d (by rw [hletters]; exact List.mem_cons_self)
  exact Bool.false_ne_true ((isWord_eq_false_of_isBlank hc).symm.trans hword)

/-- Nothing but a modifier is read where a word stands. -/
theorem modifierStep_outcomes_eq_nil (hwords : AllWords words) {w : Text} (hne : w ≠ [])
    (hw : ∀ c ∈ w, isWord c = true) (hnot : w ∉ words.map String.toList)
    (hrest : ∀ c ∈ rest.head?, isWord c = false) :
    (modifierStep words).outcomes ⟨.between before (w ++ rest), parts⟩ = [] := by
  obtain ⟨c, letters, rfl⟩ := List.exists_cons_of_ne_nil hne
  have hblank := isBlank_eq_false_of_isWord (hw c List.mem_cons_self)
  rw [modifierStep, orOp_eq, outcomes, List.append_eq_nil_iff]
  constructor
  · rw [List.eq_nil_iff_forall_not_mem]
    intro o ho
    exact hnot (eq_of_mem_outcomes_wholeWord hw hrest hwords ho).1
  · simp [outcomes, hblank]

/-- The first of the blanks and modifiers of a text is read. -/
theorem ModifierText.exists_step (hwords : AllWords words) (h : ModifierText words t)
    (hne : t ≠ []) (before rest : Text) (parts : List (HeaderPart × Span)) :
    ∃ first t', first ≠ [] ∧ t = first ++ t' ∧ ModifierText words t' ∧
      Prefers (modifierStep words) ⟨.between before (t ++ rest), parts⟩
        ⟨.between (before ++ first) (t' ++ rest), parts⟩ := by
  cases h with
  | nil => exact absurd rfl hne
  | @blank c t hc ht =>
    exact ⟨[c], t, by simp, rfl, ht, .right (wholeWord_outcomes_eq_nil hwords hc) (.one hc)⟩
  | @word w t hw ht =>
    obtain ⟨s, hs, rfl⟩ := List.mem_map.1 hw
    obtain ⟨hwne, hchars⟩ := hwords s hs
    refine ⟨s.toList, ' ' :: t, hwne, rfl, ht, .left ?_⟩
    rw [List.append_assoc]
    refine .wholeWord hw hwne hchars ?_ hwords
    intro c hc
    obtain rfl : ' ' = c := Option.some.inj hc
    decide

/-- Blanks and modifiers are read as far as they go. -/
theorem ModifierText.prefers_star (hwords : AllWords words) (h : ModifierText words t)
    (hstop : (modifierStep words).outcomes ⟨.between (before ++ t) rest, parts⟩ = []) :
    Prefers (Pattern.star (modifierStep words)) ⟨.between before (t ++ rest), parts⟩
      ⟨.between (before ++ t) rest, parts⟩ := by
  induction hn : t.length using Nat.strong_induction_on generalizing before t with
  | _ n ih =>
    by_cases hne : t = []
    · subst hne
      simp only [List.append_nil, List.nil_append] at hstop ⊢
      exact .star_stop hstop
    · obtain ⟨first, t', hfirst, rfl, ht', hstep⟩ := h.exists_step hwords hne before rest parts
      have hpos := List.length_pos_iff.2 hfirst
      rw [List.length_append] at hn
      rw [← List.append_assoc] at hstop ⊢
      exact hstep.star_step (by simpa using hpos) (ih _ (by omega) ht' hstop rfl)

/-- The part that modifiers report: none where there are neither modifiers nor blanks. -/
def modifiersPart (before t : Text) : List (HeaderPart × Span) :=
  if t = [] then [] else [(.modifiers, ⟨before.length, (before ++ t).length⟩)]

/-- The modifiers of a declaration are read with all blanks around them. -/
theorem ModifierText.prefers (hwords : AllWords words) (h : ModifierText words t)
    (hstop : ∀ parts, (modifierStep words).outcomes ⟨.between (before ++ t) rest, parts⟩ = []) :
    Prefers (maybe (modifierWords words)) ⟨.between before (t ++ rest), parts⟩
      ⟨.between (before ++ t) rest, modifiersPart before t ++ parts⟩ := by
  by_cases hne : t = []
  · subst hne
    simp only [List.append_nil, List.nil_append] at hstop ⊢
    refine .left_out ?_
    have hstep := hstop parts
    change ((((modifierStep words).outcomes _).flatMap _).map _) = []
    rw [hstep]
    rfl
  · obtain ⟨first, t', -, rfl, ht', hstep⟩ := h.exists_step hwords hne before rest parts
    have hstop' := hstop parts
    rw [← List.append_assoc] at hstop'
    have hstar := ht'.prefers_star hwords hstop'
    rw [modifiersPart, if_neg hne, ← List.append_assoc]
    exact ((hstep.andThen hstar).part HeaderPart.modifiers).left

theorem ModifierText.of_blanks {gap : Text} (hgap : ∀ c ∈ gap, isBlank c = true)
    (ht : ModifierText words t) : ModifierText words (gap ++ t) := by
  induction gap with
  | nil => exact ht
  | cons c gap ih =>
    exact .blank (hgap c List.mem_cons_self) (ih fun d hd => hgap d (List.mem_cons_of_mem c hd))

theorem ModifierText.of_modifiers {modifiers : List String}
    (h : ∀ w ∈ modifiers, w ∈ words) : ModifierText words (modifiersText modifiers) := by
  induction modifiers with
  | nil => exact .nil
  | cons w modifiers ih =>
    rw [modifiersText_cons]
    exact .word (List.mem_map_of_mem (h w List.mem_cons_self))
      (.blank (by decide) (ih fun v hv => h v (List.mem_cons_of_mem w hv)))

end

/-! ### Classes -/

/-- The match of the header of a class that follows a text and blanks. -/
def classMatch (before gap : Text) (name : Identifier) : Match HeaderPart where
  start := before.length
  stop := (before ++ gap ++ "class".toList ++ [' '] ++ name.text).length
  parts :=
    (.name, ⟨(before ++ gap ++ "class".toList ++ [' ']).length,
      (before ++ gap ++ "class".toList ++ [' '] ++ name.text).length⟩) ::
    (.kind, ⟨(before ++ gap).length, (before ++ gap ++ "class".toList).length⟩) ::
    (modifiersPart before gap ++ [(.comments, ⟨before.length, before.length⟩)])

/-- The match of the header of a class. -/
theorem typeHeader_matchAt? {before gap rest : Text} {name : Identifier}
    (ht : ∀ c ∈ before ++ (gap ++ (classHeader name ++ rest)), isTreeChar c = true)
    (hgap : ∀ c ∈ gap, isBlank c = true)
    (hbefore : ∀ c ∈ (before ++ gap).getLast?, isWord c = false)
    (hrest : ∀ c ∈ rest.head?, isWord c = false) :
    typeHeader.matchAt? (before ++ (gap ++ (classHeader name ++ rest))) before.length =
      some (classMatch before gap name) := by
  have hwords : AllWords typeModifiers := .of_all (by decide)
  have hne : "class".toList ≠ [] := by decide
  have hclass : "class".toList.all isAsciiWord = true := by decide
  have hnot : "class".toList ∉ typeModifiers.map String.toList := by decide
  have hword : ∀ c ∈ "class".toList, isWord c = true :=
    fun c hc => isWord_of_isAsciiWord (List.all_eq_true.1 hclass c hc)
  have hafter : ∀ c ∈ ([' '] ++ (name.text ++ rest)).head?, isWord c = false := by
    intro c hc
    obtain rfl : ' ' = c := Option.some.inj hc
    decide
  have hstop (parts : List (HeaderPart × Span)) : (modifierStep typeModifiers).outcomes
      ⟨.between (before ++ gap) ("class".toList ++ ([' '] ++ (name.text ++ rest))), parts⟩ = [] :=
    modifierStep_outcomes_eq_nil hwords hne hword hnot hafter
  have hmods : ModifierText typeModifiers gap := by
    simpa using ModifierText.of_blanks hgap (.nil : ModifierText typeModifiers [])
  have hplain : Prefers plainTypeHeader
      ⟨.between before (gap ++ ("class".toList ++ ([' '] ++ (name.text ++ rest)))), []⟩
      ⟨.between (before ++ gap ++ "class".toList ++ [' '] ++ name.text) rest,
        (classMatch before gap name).parts⟩ := by
    have hcomments := (Prefers.empty
      (⟨.between before (gap ++ ("class".toList ++ ([' '] ++ (name.text ++ rest)))), []⟩ :
        Outcome HeaderPart)).part HeaderPart.comments
    have hfront := (hcomments.andThen (.empty _)).andThen (hmods.prefers hwords hstop)
    have hblanks := hfront.andThen (.many_stop (isBlank_head?_append hne hword _))
    have hedge := hblanks.andThen (.wordEdge hbefore (exists_head?_append hne hword _))
    have hkind := hedge.andThen
      ((Prefers.left (q := anyText ["interface", "enum"]) (.fixed _ _ _ _)).part HeaderPart.kind)
    have hgap' := hkind.andThen (.someOf (by simp) isBlank_of_mem_space
      (isBlank_head?_append name.plainWord.ne_nil name.plainWord.isWord _))
    have hname := hgap'.andThen
      ((Prefers.someOf name.plainWord.ne_nil name.plainWord.isWord hrest).part HeaderPart.name)
    exact hname.andThen (.empty _)
  have hlist : classHeader name ++ rest = "class".toList ++ ([' '] ++ (name.text ++ rest)) := by
    have hkeyword : "class ".toList = "class".toList ++ [' '] := by decide
    rw [classHeader, hkeyword, List.append_assoc, List.append_assoc]
  rw [hlist] at ht ⊢
  refine matchAt?_eq_some ((typeHeader_sameWithout.prefers_iff ?_).2 hplain)
  exact fun c hc hmem => not_mem_openers_of_isTreeChar (ht c (List.mem_append_right _ hmem)) hc

/-! ### Methods -/

/-- The match of the header of a method that follows a text and the indentation of a line; more
blanks may stand between these and the method. -/
def methodMatch (before indent gap : Text) (m : MethodDeclaration) : Match HeaderPart :=
  let line := before ++ indent
  let front := line ++ (gap ++ modifiersText m.modifiers)
  let type := front ++ m.returnType.text
  let name := type ++ [' '] ++ m.name.text
  let parameters := name ++ ['('] ++ parametersText m.parameters
  let header := parameters ++ [')'] ++ [' ']
  { start := before.length
    stop := (header ++ ['{']).length
    parts :=
      (.terminator, ⟨header.length, (header ++ ['{']).length⟩) ::
      (.parameters, ⟨(name ++ ['(']).length, parameters.length⟩) ::
      (.name, ⟨(type ++ [' ']).length, name.length⟩) ::
      (.declaration, ⟨line.length, (type ++ [' ']).length⟩) ::
      (.returnType, ⟨front.length, type.length⟩) ::
      (modifiersPart line (gap ++ modifiersText m.modifiers) ++
        [(.inlineAnnotations, ⟨line.length, line.length⟩),
          (.annotations, ⟨before.length, before.length⟩)]) }

section

variable {before rest : Text} {parts : List (HeaderPart × Span)}

/-- A return type is read up to the name of the method, though the characters of the name could
belong to it. -/
theorem returnType_prefers (type : TypeName) (name : Identifier) :
    Prefers (maybe (named .returnType (someOf isTypeChar) ++ someBlanks))
      ⟨.between before (type.text ++ ([' '] ++ (name.text ++ '(' :: rest))), parts⟩
      ⟨.between (before ++ type.text ++ [' ']) (name.text ++ '(' :: rest),
        (.returnType, ⟨before.length, (before ++ type.text).length⟩) :: parts⟩ := by
  have hchars : ∀ c ∈ type.text, isTypeChar c = true := by
    intro c hc
    simp [isTypeChar, type.plainWord.isWord c hc]
  obtain ⟨longer, shorter, hways, hlonger⟩ := outcomes_someOf_eq_append before
    ([' '] ++ (name.text ++ '(' :: rest)) parts type.plainWord.ne_nil hchars
  have hparts := congrArg (List.map fun o => (⟨o.cursor, (HeaderPart.returnType,
    ⟨before.length, o.cursor.offset⟩) :: o.parts⟩ : Outcome HeaderPart)) hways
  rw [List.map_append, List.map_cons] at hparts
  refine .left (.andThen_of_append hparts ?_ (.someOf (by simp) isBlank_of_mem_space
    (isBlank_head?_append name.plainWord.ne_nil name.plainWord.isWord _)))
  intro mid hmid
  obtain ⟨o, ho, rfl⟩ := List.mem_map.1 hmid
  obtain ⟨more, rest', hne, hlist, hmore, rfl⟩ := hlonger o ho
  refine outcomes_someOf_eq_nil ?_
  -- a longer way ends in the name or behind it
  obtain ⟨c, more, rfl⟩ := List.exists_cons_of_ne_nil hne
  have htail : name.text ++ '(' :: rest = more ++ rest' := (List.cons.inj hlist).2
  rcases List.append_eq_append_iff.1 htail with ⟨x, rfl, hx⟩ | ⟨x, hname, rfl⟩
  · cases x with
    | nil =>
      obtain rfl : '(' :: rest = rest' := hx
      intro d hd
      obtain rfl : '(' = d := Option.some.inj hd
      decide
    | cons d x =>
      obtain rfl : '(' = d := (List.cons.inj hx).1
      have hparenthesis := hmore '(' (by simp)
      exact absurd hparenthesis (by decide)
  · cases x with
    | nil =>
      intro d hd
      obtain rfl : '(' = d := Option.some.inj hd
      decide
    | cons d x =>
      intro e he
      obtain rfl : d = e := Option.some.inj he
      exact isBlank_eq_false_of_isWord (name.plainWord.isWord d (by rw [hname]; simp))

/-- Parameters are read up to the parenthesis behind them. -/
theorem parameters_prefers (parameters : List Parameter) :
    Prefers (nested 2) ⟨.between before (parametersText parameters ++ ')' :: rest), parts⟩
      ⟨.between (before ++ parametersText parameters) (')' :: rest), parts⟩ := by
  have hword : isWord '(' = false ∧ isWord ')' = false := by decide
  have hchars : ∀ c ∈ parametersText parameters,
      (decide (c ≠ '(') && decide (c ≠ ')')) = true := by
    intro c hc
    rcases mem_parametersText hc with h | rfl | rfl
    · have hopen : c ≠ '(' := by
        rintro rfl
        exact Bool.false_ne_true (hword.1.symm.trans h)
      have hclose : c ≠ ')' := by
        rintro rfl
        exact Bool.false_ne_true (hword.2.symm.trans h)
      simp [hopen, hclose]
    · decide
    · decide
  rw [nested, nested]
  refine .andThen (.many hchars ?_) (.star_stop ?_)
  · intro c hc
    obtain rfl : ')' = c := Option.some.inj hc
    decide
  · simp [text, append_eq, outcomes]

/-- The declaration of a method is read up to its name. -/
theorem declaration_prefers {gap : Text} (hgap : ∀ c ∈ gap, isBlank c = true)
    (m : MethodDeclaration) :
    Prefers (named .declaration plainDeclaration)
      ⟨.between before ((gap ++ modifiersText m.modifiers) ++
        (m.returnType.text ++ ([' '] ++ (m.name.text ++ '(' :: rest)))), parts⟩
      ⟨.between (before ++ (gap ++ modifiersText m.modifiers) ++ m.returnType.text ++ [' '])
          (m.name.text ++ '(' :: rest),
        (.declaration, ⟨before.length, (before ++ (gap ++ modifiersText m.modifiers) ++
          m.returnType.text ++ [' ']).length⟩) ::
        (.returnType, ⟨(before ++ (gap ++ modifiersText m.modifiers)).length,
          (before ++ (gap ++ modifiersText m.modifiers) ++ m.returnType.text).length⟩) ::
        (modifiersPart before (gap ++ modifiersText m.modifiers) ++ parts)⟩ := by
  have hwords : AllWords methodModifiers := .of_all (by decide)
  have hall : memberModifiers.all methodModifiers.contains = true := by decide
  have hmods : ModifierText methodModifiers (gap ++ modifiersText m.modifiers) := by
    refine .of_blanks hgap (.of_modifiers fun w hw => ?_)
    simpa using List.all_eq_true.1 hall w (m.isModifier w hw)
  have hnot : m.returnType.text ∉ methodModifiers.map String.toList := by
    intro hmem
    refine m.returnType.plainWord.plain ?_
    simp only [specialWords, List.mem_append]
    tauto
  have hstop (parts : List (HeaderPart × Span)) : (modifierStep methodModifiers).outcomes
      ⟨.between (before ++ (gap ++ modifiersText m.modifiers))
        (m.returnType.text ++ ([' '] ++ (m.name.text ++ '(' :: rest))), parts⟩ = [] := by
    refine modifierStep_outcomes_eq_nil hwords m.returnType.plainWord.ne_nil
      m.returnType.plainWord.isWord hnot ?_
    intro c hc
    obtain rfl : ' ' = c := Option.some.inj hc
    decide
  exact (((hmods.prefers hwords hstop).andThen (.empty _)).andThen
    (returnType_prefers m.returnType m.name)).part HeaderPart.declaration

end

theorem MethodDeclaration.header_append (m : MethodDeclaration) (rest : Text) :
    m.header ++ rest = modifiersText m.modifiers ++ (m.returnType.text ++ ([' '] ++ (m.name.text ++
      '(' :: (parametersText m.parameters ++ ')' :: ([' '] ++ rest))))) := by
  simp [header, call]

theorem MethodDeclaration.exists_head?_header (m : MethodDeclaration) (rest : Text) :
    ∃ c, (m.header ++ rest).head? = some c ∧ isWord c = true := by
  rw [m.header_append]
  cases hmods : m.modifiers with
  | nil => exact exists_head?_append m.returnType.plainWord.ne_nil m.returnType.plainWord.isWord _
  | cons w modifiers =>
    have hw : w ∈ memberModifiers := m.isModifier w (by rw [hmods]; exact List.mem_cons_self)
    obtain ⟨hne, hchars, -⟩ := word_of_mem_memberModifiers hw
    rw [modifiersText_cons, List.append_assoc]
    exact exists_head?_append hne hchars _

/-- The match of the header of a method. -/
theorem methodHeader_matchAt? {before indent gap behind t : Text} {m : MethodDeclaration}
    (hchars : ∀ c ∈ t, isTreeChar c = true) (ht : t = before ++ indent ++ gap ++ m.text ++ behind)
    (hbefore : before = [] ∨ before.getLast? = some '\n')
    (hindent : ∀ c ∈ indent, c = ' ' ∨ c = '\t')
    (hgap : ∀ c ∈ gap, isBlank c = true) (hline : ∀ c ∈ gap.head?, c = '\n') :
    methodHeader.matchAt? t before.length = some (methodMatch before indent gap m) := by
  obtain ⟨rest, hrest⟩ : ∃ rest, t = before ++ (indent ++ (gap ++ (m.header ++ '{' :: rest))) :=
    ⟨m.body.text ++ '}' :: behind, by
      simp [ht, MethodDeclaration.text, MethodDeclaration.block]⟩
  rw [hrest] at hchars ⊢
  have hindent' : ∀ c ∈ indent, (decide (c = ' ') || decide (c = '\t')) = true := by
    intro c hc
    simpa using hindent c hc
  have hstop : ∀ c ∈ (gap ++ (m.header ++ '{' :: rest)).head?,
      (decide (c = ' ') || decide (c = '\t')) = false := by
    intro c hc
    cases gap with
    | nil =>
      obtain ⟨d, hd, hword⟩ := m.exists_head?_header ('{' :: rest)
      obtain rfl : d = c := Option.some.inj (hd.symm.trans hc)
      have hblank := isBlank_eq_false_of_isWord hword
      have hspace : d ≠ ' ' := by
        rintro rfl
        exact absurd hblank (by decide)
      have htab : d ≠ '\t' := by
        rintro rfl
        exact absurd hblank (by decide)
      simp [hspace, htab]
    | cons d gap =>
      obtain rfl : d = c := Option.some.inj hc
      rw [hline d rfl]
      decide
  have hopen : ∀ c ∈ ('(' :: (parametersText m.parameters ++ ')' :: ([' '] ++ '{' :: rest))).head?,
      isWord c = false ∧ isBlank c = false := by
    intro c hc
    obtain rfl : '(' = c := Option.some.inj hc
    decide
  have hbrace : ∀ c ∈ ('{' :: rest).head?, isBlank c = false := by
    intro c hc
    obtain rfl : '{' = c := Option.some.inj hc
    decide
  have hthrows (parts : List (HeaderPart × Span)) (before : Text) :
      (text "throws" ++ someBlanks ++ someOf (fun c => c ≠ '{' && c ≠ ';') :
        HeaderPattern).outcomes ⟨.between before ('{' :: rest), parts⟩ = [] := by
    simp [text, append_eq, outcomes]
  have hplain : Prefers plainMethodHeader
      ⟨.between before (indent ++ (gap ++ (m.header ++ '{' :: rest))), []⟩
      ⟨.between (before ++ indent ++ (gap ++ modifiersText m.modifiers) ++ m.returnType.text ++
          [' '] ++ m.name.text ++ ['('] ++ parametersText m.parameters ++ [')'] ++ [' '] ++ ['{'])
          rest, (methodMatch before indent gap m).parts⟩ := by
    have hlines := (((Prefers.empty
      (⟨.between before (indent ++ (gap ++ (m.header ++ '{' :: rest))), []⟩ :
        Outcome HeaderPart)).andThen ((Prefers.empty _).part HeaderPart.annotations)).andThen
      (.lineStart hbefore)).andThen (.many hindent' hstop)
    have hinline := hlines.andThen ((Prefers.empty _).part HeaderPart.inlineAnnotations)
    rw [m.header_append, ← List.append_assoc gap] at hinline ⊢
    have hdeclaration := hinline.andThen (declaration_prefers hgap m)
    have hname := hdeclaration.andThen ((Prefers.someOf m.name.plainWord.ne_nil
      m.name.plainWord.isWord fun c hc => (hopen c hc).1).part HeaderPart.name)
    have hfront := hname.andThen (.many_stop fun c hc => (hopen c hc).2)
    have hparameters := (hfront.andThen (.fixed _ ['('] _ _)).andThen
      ((parameters_prefers m.parameters).part HeaderPart.parameters)
    have hclose := (hparameters.andThen (.fixed _ [')'] _ _)).andThen
      (.many isBlank_of_mem_space hbrace)
    have hterminator := (hclose.andThen (.left_out (hthrows _ _))).andThen (.many_stop hbrace)
    exact hterminator.andThen ((Prefers.one rfl).part HeaderPart.terminator)
  refine matchAt?_eq_some ((methodHeader_sameWithout.prefers_iff ?_).2 hplain)
  exact fun c hc hmem => not_mem_openers_of_isTreeChar (hchars c (List.mem_append_right _ hmem)) hc

end Glossator.Java
