import Glossator.Proofs.Java.HeaderParts
import Glossator.Proofs.Pattern.Language
import Glossator.Proofs.Text.Trim
import Glossator.Java.Parameters

/-!
# The type in a declaration

A declaration is the text between the annotations of a method and its name: modifiers, type
parameters, a return type. All the modifiers that stand first are taken as modifiers. What stands
behind them is taken for a type as a whole if its characters and the blanks at its end allow it, and
only otherwise the type parameters are left out first. The last word of the type outside angle
brackets is the return type of the record.

* `Java.behindModifiers`, `Java.declaredType?`: what stands behind the modifiers of a declaration,
  and the return type in it.
* `Java.exists_mem_methodDeclaration`: whatever may stand in a declaration is read as one.
* `Java.declared_of_matchAt?`: a header that is read has the return type of its declaration.
-/

set_option autoImplicit false

namespace Glossator

namespace Java

open Pattern

variable {d x gap type : Text} {c : Char}

/-! ### Declarations as texts -/

/-- The words that modify a method. -/
def modifierTexts : List Text := methodModifiers.map String.toList

theorem word_of_mem_modifierTexts {w : Text} (hw : w ∈ modifierTexts) :
    w ≠ [] ∧ ∀ c ∈ w, isWord c = true := by
  obtain ⟨s, hs, rfl⟩ := List.mem_map.1 hw
  exact allWords_methodModifiers s hs

theorem length_dropWhile_lt (h : (Text.trimStart d).takeWhile isWord ∈ modifierTexts) :
    ((Text.trimStart d).dropWhile isWord).length < d.length := by
  have hpos := List.length_pos_iff.2 (word_of_mem_modifierTexts h).1
  have hsplit := congrArg List.length
    (List.takeWhile_append_dropWhile (p := isWord) (l := Text.trimStart d))
  have hle : (Text.trimStart d).length ≤ d.length := (List.dropWhile_sublist isBlank).length_le
  rw [List.length_append] at hsplit
  omega

/-- What stands in a declaration behind its modifiers and the blanks around them. -/
def behindModifiers (d : Text) : Text :=
  if (Text.trimStart d).takeWhile isWord ∈ modifierTexts then
    behindModifiers ((Text.trimStart d).dropWhile isWord)
  else Text.trimStart d
termination_by d.length
decreasing_by exact length_dropWhile_lt ‹_›

/-- What can be read as a type in front of the blanks that a text ends with. -/
def typeText (x : Text) : Text := x.dropLast.takeWhile isTypeChar

/-- What stands behind that. -/
def behindType (x : Text) : Text := x.drop (typeText x).length

/-- What is read as a type where a text starts; nothing if there is no text. -/
def typeText? (x : Text) : Option Text := if x = [] then none else some (typeText x)

/-- What stands behind the type parameters that a text starts with. -/
def behindTypeParameters (x : Text) : Text := Text.trimStart ((x.dropWhile (· ≠ '>')).drop 1)

/-- The part of a text behind the modifiers in which a type is read: all of it if only blanks stand
behind the type in it, and what stands behind the type parameters otherwise. -/
def typePart (x : Text) : Text :=
  if (behindType x).all isBlank then x else behindTypeParameters x

/-- What is read as a type in a declaration. -/
def declaredText? (d : Text) : Option Text := typeText? (typePart (behindModifiers d))

/-- The return type in a declaration. -/
def declaredType? (d : Text) : Option Text :=
  (declaredText? d).bind fun type => (typeWords type).getLast?

/-- A text that is not modifiers in front. -/
structure OpensType (x : Text) : Prop where
  head : ∀ c ∈ x.head?, isBlank c = false
  word : x.takeWhile isWord ∉ modifierTexts

theorem behindModifiers_eq_self (h : OpensType x) : behindModifiers x = x := by
  have htrim : Text.trimStart x = x := by
    cases x with
    | nil => rfl
    | cons c x => exact List.dropWhile_cons_of_neg (by simp [h.head c rfl])
  rw [behindModifiers, htrim, if_neg h.word]

theorem behindModifiers_blanks_append (hgap : ∀ c ∈ gap, isBlank c = true) (d : Text) :
    behindModifiers (gap ++ d) = behindModifiers d := by
  conv_lhs => rw [behindModifiers, Text.trimStart_blanks_append hgap]
  conv_rhs => rw [behindModifiers]

/-- A modifier in front, which ends where a word ends. -/
theorem behindModifiers_word_append {w : Text} (hw : w ∈ modifierTexts)
    (hd : ∀ c ∈ d.head?, isWord c = false) : behindModifiers (w ++ d) = behindModifiers d := by
  obtain ⟨hne, hchars⟩ := word_of_mem_modifierTexts hw
  obtain ⟨c, v, rfl⟩ := List.exists_cons_of_ne_nil hne
  have htrim : Text.trimStart (c :: v ++ d) = c :: v ++ d :=
    List.dropWhile_cons_of_neg
      (by simp [isBlank_eq_false_of_isWord (hchars c List.mem_cons_self)])
  have hstop : d.takeWhile isWord = [] ∧ d.dropWhile isWord = d := by
    cases d with
    | nil => exact ⟨rfl, rfl⟩
    | cons e d =>
      have he : ¬ isWord e = true := by simp [hd e rfl]
      exact ⟨List.takeWhile_cons_of_neg he, List.dropWhile_cons_of_neg he⟩
  conv_lhs => rw [behindModifiers, htrim, List.takeWhile_append_of_pos hchars,
    List.dropWhile_append_of_pos hchars, hstop.1, hstop.2, List.append_nil, if_pos hw]

/-- Whatever stands first, the text behind the modifiers is not modifiers in front. -/
theorem opensType_behindModifiers (d : Text) : OpensType (behindModifiers d) := by
  fun_induction behindModifiers d with
  | case1 d hw ih => exact ih
  | case2 d hw => exact ⟨fun c hc => Text.isBlank_head?_trimStart hc, hw⟩

/-! ### Texts that are read as a type -/

/-- A text that can be read as a type and the blanks behind it. -/
structure ReadsType (x type gap : Text) : Prop where
  text : x = type ++ gap
  type_ne : type ≠ []
  type_chars : ∀ c ∈ type, isTypeChar c = true
  gap_ne : gap ≠ []
  gap_blank : ∀ c ∈ gap, isBlank c = true

theorem typeText_append_behindType (x : Text) : typeText x ++ behindType x = x :=
  List.prefix_iff_eq_append.1 ((List.takeWhile_prefix _).trans (List.dropLast_prefix x))

/-- A type leaves at least one character of a text. -/
theorem behindType_ne_nil (hne : x ≠ []) : behindType x ≠ [] := by
  have hlen := (List.takeWhile_prefix (p := isTypeChar) (l := x.dropLast)).length_le
  have hpos := List.length_pos_iff.2 hne
  have hsplit := congrArg List.length (typeText_append_behindType x)
  rw [List.length_dropLast] at hlen
  rw [List.length_append, typeText] at hsplit
  intro hnil
  rw [hnil, List.length_nil] at hsplit
  omega

/-- The type goes as far as it can. -/
theorem typeText_eq (h : ReadsType x type gap)
    (hstop : ∀ c gap', gap = c :: gap' → gap' ≠ [] → isTypeChar c = false) :
    typeText x = type := by
  obtain ⟨c, gap', rfl⟩ := List.exists_cons_of_ne_nil h.gap_ne
  have hnone : ((c :: gap').dropLast).takeWhile isTypeChar = [] := by
    cases gap' with
    | nil => rfl
    | cons e gap' =>
      rw [List.dropLast_cons_of_ne_nil (List.cons_ne_nil e gap')]
      exact List.takeWhile_cons_of_neg (by simp [hstop c _ rfl (List.cons_ne_nil e gap')])
  rw [typeText, h.text, List.dropLast_append_of_ne_nil h.gap_ne,
    List.takeWhile_append_of_pos h.type_chars, hnone, List.append_nil]

/-- Of all ways to read a type the one with the longest is taken. -/
theorem ReadsType.longest (h : ReadsType x type gap) :
    ReadsType x (typeText x) (behindType x) ∧ type <+: typeText x := by
  have hprefix : type <+: typeText x := by
    rw [typeText, h.text, List.dropLast_append_of_ne_nil h.gap_ne,
      List.takeWhile_append_of_pos h.type_chars]
    exact List.prefix_append _ _
  have hwhole := typeText_append_behindType x
  have hne : x ≠ [] := by
    rw [h.text]
    simp [h.type_ne]
  obtain ⟨more, hmore⟩ := hprefix
  refine ⟨⟨hwhole.symm, ?_, fun c hc => List.mem_takeWhile_imp hc, behindType_ne_nil hne, ?_⟩,
    more, hmore⟩
  · rw [← hmore]
    simp [h.type_ne]
  · intro c hc
    have hsplit : type ++ (more ++ behindType x) = type ++ gap := by
      rw [← List.append_assoc, hmore, hwhole, h.text]
    refine h.gap_blank c ?_
    rw [← List.append_cancel_left hsplit]
    exact List.mem_append_right more hc

/-- A text that opens a type is read as one if only blanks stand behind what can be read. -/
theorem readsType_of_all (hhead : ∀ c ∈ x.head?, isBlank c = false) (hne : x ≠ [])
    (h : (behindType x).all isBlank = true) : ReadsType x (typeText x) (behindType x) := by
  have hwhole := typeText_append_behindType x
  have hblank : ∀ c ∈ behindType x, isBlank c = true := List.all_eq_true.1 h
  refine ⟨hwhole.symm, ?_, fun c hc => List.mem_takeWhile_imp hc, behindType_ne_nil hne, hblank⟩
  intro hnil
  rw [hnil, List.nil_append] at hwhole
  obtain ⟨c, y, rfl⟩ := List.exists_cons_of_ne_nil hne
  have hc : c ∈ behindType (c :: y) := by
    rw [hwhole]
    exact List.mem_cons_self
  exact absurd (hblank c hc) (by simp [hhead c rfl])

theorem ReadsType.all (h : ReadsType x type gap) : (behindType x).all isBlank = true :=
  List.all_eq_true.2 h.longest.1.gap_blank

/-- What stands behind the first characters of a type is read as a type, unless it is blank. -/
theorem ReadsType.of_append {u y : Text} (h : ReadsType (u ++ y) type gap)
    (hy : ∃ c ∈ y.head?, isBlank c = false) : ∃ type', ReadsType y type' gap := by
  obtain ⟨c, hc, hblank⟩ := hy
  have hne : y ≠ [] := by
    rintro rfl
    cases hc
  have hgap (hmem : c ∈ gap) : False :=
    Bool.false_ne_true (hblank.symm.trans (h.gap_blank c hmem))
  rcases List.append_eq_append_iff.1 h.text with ⟨type', htype, rfl⟩ | ⟨more, -, hmore⟩
  · refine ⟨type', rfl, ?_, fun d hd => h.type_chars d ?_, h.gap_ne, h.gap_blank⟩
    · rintro rfl
      exact hgap (List.mem_of_mem_head? hc)
    · rw [htype]
      exact List.mem_append_right u hd
  · rw [hmore] at hgap
    exact absurd (List.mem_append_right more (List.mem_of_mem_head? hc)) hgap

/-- The first word of a text that is read as a type belongs to the type. -/
theorem ReadsType.exists_dropWhile_isWord (h : ReadsType x type gap) :
    ∃ more, x.dropWhile isWord = more ++ gap ∧ type = x.takeWhile isWord ++ more := by
  have hsplit : x.takeWhile isWord ++ x.dropWhile isWord = type ++ gap :=
    List.takeWhile_append_dropWhile.trans h.text
  rcases List.append_eq_append_iff.1 hsplit with ⟨more, htype, hy⟩ | ⟨more, hword, hgap⟩
  · exact ⟨more, hy, htype⟩
  · cases more with
    | nil => exact ⟨[], hgap.symm, by rw [hword, List.append_nil, List.append_nil]⟩
    | cons g more =>
      have hblank := h.gap_blank g (hgap ▸ List.mem_cons_self)
      have hword : isWord g = true :=
        List.mem_takeWhile_imp (l := x) (hword ▸ List.mem_append_right type List.mem_cons_self)
      exact absurd (isBlank_eq_false_of_isWord hword) (by simp [hblank])

/-- Without the blanks in front there is still a type to read, or nothing. -/
theorem readsType_trimStart (h : x = [] ∨ ∃ type gap, ReadsType x type gap) :
    Text.trimStart x = [] ∨ ∃ type gap, ReadsType (Text.trimStart x) type gap := by
  rcases h with rfl | ⟨type, gap, hread⟩
  · exact .inl rfl
  · obtain ⟨front, -, hx⟩ := Text.exists_blanks_append_trimStart x
    cases hy : Text.trimStart x with
    | nil => exact .inl rfl
    | cons f y =>
      have hf : f ∈ (Text.trimStart x).head? := by simp [hy]
      rw [hx] at hread
      obtain ⟨type', hread'⟩ := hread.of_append ⟨f, hf, Text.isBlank_head?_trimStart hf⟩
      exact .inr ⟨type', gap, hy ▸ hread'⟩

/-- A character of type parameters. -/
def isParameterChar (c : Char) : Bool :=
  isWord c || isBlank c || c = ',' || c = '?' || c = '[' || c = ']'

/-- A text that starts with type parameters, behind which there is a type or nothing. -/
structure ReadsParameters (x inner gap rest : Text) : Prop where
  text : x = '<' :: (inner ++ '>' :: (gap ++ rest))
  inner_ne : inner ≠ []
  inner_chars : ∀ c ∈ inner, isParameterChar c = true
  gap_ne : gap ≠ []
  gap_blank : ∀ c ∈ gap, isBlank c = true
  rest_head : ∀ c ∈ rest.head?, isBlank c = false
  rest_read : rest = [] ∨ ∃ type gap', ReadsType rest type gap'

theorem ReadsParameters.behindTypeParameters {inner rest : Text}
    (h : ReadsParameters x inner gap rest) : behindTypeParameters x = rest := by
  have hinner : ∀ c ∈ '<' :: inner, decide (c ≠ '>') = true := by
    intro c hc
    rw [decide_eq_true_iff]
    rintro rfl
    rcases List.mem_cons.1 hc with hc | hc
    · cases hc
    · exact absurd (h.inner_chars _ hc) (by decide)
  have htrim : Text.trimStart rest = rest := by
    cases rest with
    | nil => rfl
    | cons c rest => exact List.dropWhile_cons_of_neg (by simp [h.rest_head c rfl])
  rw [Java.behindTypeParameters, h.text, ← List.cons_append, List.dropWhile_append_of_pos hinner,
    List.dropWhile_cons_of_neg (by simp), List.drop_one, List.tail_cons,
    Text.trimStart_blanks_append h.gap_blank, htrim]

/-- A text that can stand behind the modifiers of a declaration. -/
def IsReadable (x : Text) : Prop :=
  x = [] ∨ (∃ type gap, ReadsType x type gap) ∨ ∃ inner gap rest, ReadsParameters x inner gap rest

/-- In a readable text a type is read where it starts, or nothing is left. -/
theorem IsReadable.typePart (h : IsReadable x) (hhead : ∀ c ∈ x.head?, isBlank c = false) :
    (∀ c ∈ (typePart x).head?, isBlank c = false) ∧
      (typePart x = [] ∨ ∃ type gap, ReadsType (typePart x) type gap) := by
  rw [Java.typePart]
  split
  · next hall =>
    by_cases hnil : x = []
    · exact ⟨hhead, .inl hnil⟩
    · exact ⟨hhead, .inr ⟨_, _, readsType_of_all hhead hnil hall⟩⟩
  · next hall =>
    rcases h with rfl | ⟨type, gap, hread⟩ | ⟨inner, gap, rest, hread⟩
    · exact absurd rfl hall
    · exact absurd hread.all hall
    · rw [hread.behindTypeParameters]
      exact ⟨hread.rest_head, hread.rest_read⟩

/-- What is read as a type in a readable declaration is not made of blanks only. -/
theorem exists_not_blank_of_declaredText? (h : IsReadable (behindModifiers d))
    (htype : declaredText? d = some type) : ∃ c ∈ type, isBlank c = false := by
  obtain ⟨hhead, hread⟩ := h.typePart (opensType_behindModifiers d).head
  rw [declaredText?, typeText?] at htype
  split at htype
  · cases htype
  · next hne =>
    obtain rfl := Option.some.inj htype
    obtain ⟨type, gap, hread⟩ := hread.resolve_left hne
    have hlongest := hread.longest.1
    obtain ⟨c, letters, hletters⟩ := List.exists_cons_of_ne_nil hlongest.type_ne
    refine ⟨c, by simp [hletters], hhead c ?_⟩
    rw [hlongest.text, hletters]
    rfl

/-! ### Reading modifiers -/

/-- A modifier is read where it ends as a word, or a blank. -/
theorem modifierStep_cases {a b : Outcome HeaderPart}
    (h : b ∈ (modifierStep methodModifiers).outcomes a) :
    (∃ w ∈ modifierTexts, a.cursor.Reads w b.cursor ∧
      ∀ c ∈ b.cursor.rest.head?, isWord c = false) ∨
        ∃ c, isBlank c = true ∧ a.cursor.Reads [c] b.cursor := by
  rw [modifierStep, orOp_eq, mem_outcomes_orElse, append_eq, mem_outcomes_andThen] at h
  rcases h with ⟨mid, hmid, hedge⟩ | hblank
  · obtain ⟨rfl, hedge⟩ := mem_outcomes_wordEdge.1 hedge
    obtain ⟨w, hw, hpre, rfl⟩ := mem_outcomes_anyText.1 hmid
    obtain ⟨hne, hchars⟩ := allWords_methodModifiers w hw
    refine .inl ⟨w.toList, List.mem_map_of_mem hw, ⟨hpre, rfl⟩, fun c hc => ?_⟩
    obtain ⟨last, hlast⟩ := Option.isSome_iff_exists.1 (List.getLast?_isSome.2 hne)
    have hprevious : (a.cursor.behind w.toList).previous.any isWord = true := by
      simp only [Cursor.behind, hlast, Option.some_or, Option.any_some]
      exact hchars last (List.mem_of_getLast? hlast)
    have hnext : (a.cursor.behind w.toList).rest.head? = some c := hc
    simpa [Cursor.atWordEdge, hprevious, hnext] using hedge
  · obtain ⟨c, hc, hpre, rfl⟩ := mem_outcomes_one.1 hblank
    exact .inr ⟨c, hc, hpre, rfl⟩

theorem forward_modifierStep : Forward (modifierStep methodModifiers) := by
  intro a b h
  rcases modifierStep_cases h with ⟨w, hw, hread, -⟩ | ⟨c, -, hread⟩
  · have hpos := List.length_pos_iff.2 (word_of_mem_modifierTexts hw).1
    rw [hread.offset_eq]
    omega
  · rw [hread.offset_eq, List.length_singleton]
    omega

/-- A modifier or a blank that is read does not count for what stands behind the modifiers. -/
theorem behindModifiers_of_step {a b : Outcome HeaderPart}
    (h : b ∈ (modifierStep methodModifiers).outcomes a) : ∃ v, a.cursor.Reads v b.cursor ∧
      ∀ d, d <+: b.cursor.rest → behindModifiers (v ++ d) = behindModifiers d := by
  rcases modifierStep_cases h with ⟨w, hw, hread, hnext⟩ | ⟨c, hc, hread⟩
  · refine ⟨w, hread, fun d hd => behindModifiers_word_append hw fun c hc => hnext c ?_⟩
    obtain ⟨rest, hrest⟩ := hd
    rw [← hrest, List.head?_append, Option.mem_def.1 hc]
    rfl
  · exact ⟨[c], hread, fun d _ =>
      behindModifiers_blanks_append (List.forall_mem_singleton.2 hc) d⟩

theorem behindModifiers_of_star {a b : Outcome HeaderPart}
    (h : b ∈ (star (modifierStep methodModifiers)).outcomes a) : ∃ front,
      a.cursor.Reads front b.cursor ∧
        ∀ d, d <+: b.cursor.rest → behindModifiers (front ++ d) = behindModifiers d := by
  rw [outcomes] at h
  have hsteps := Outcome.reflTransGen_of_mem_repeat h
  clear h
  -- by induction on the steps, the first of them first
  induction hsteps using Relation.ReflTransGen.head_induction_on with
  | refl => exact ⟨[], .refl _, fun d _ => rfl⟩
  | @head _ mid hstep _ ih =>
    obtain ⟨v, hv, hfirst⟩ := behindModifiers_of_step hstep.1
    obtain ⟨front, hfront, hmore⟩ := ih
    refine ⟨v ++ front, hv.trans hfront, fun d hd => ?_⟩
    have hpre : front ++ d <+: mid.cursor.rest := by
      rw [hfront.rest_eq]
      exact (List.prefix_append_right_inj front).2 hd
    rw [List.append_assoc, hfirst _ hpre, hmore d hd]

/-- A modifier can be read where it stands as a word. -/
theorem mem_modifierStep {c : Cursor} {w : Text} (parts : List (HeaderPart × Span))
    (hw : w ∈ modifierTexts) (hrest : c.rest = w ++ d) (hd : ∀ c ∈ d.head?, isWord c = false) :
    (⟨c.behind w, parts⟩ : Outcome HeaderPart) ∈
      (modifierStep methodModifiers).outcomes ⟨c, parts⟩ := by
  obtain ⟨hne, hchars⟩ := word_of_mem_modifierTexts hw
  obtain ⟨s, hs, rfl⟩ := List.mem_map.1 hw
  have hedge : (c.behind s.toList).atWordEdge = true := by
    obtain ⟨last, hlast⟩ := Option.isSome_iff_exists.1 (List.getLast?_isSome.2 hne)
    have hword := hchars last (List.mem_of_getLast? hlast)
    have hnext : d.head?.any isWord = false := by
      cases hhead : d.head? with
      | none => rfl
      | some e => exact hd e hhead
    simp [Cursor.atWordEdge, Cursor.behind, hlast, hword, hrest, hnext]
  rw [modifierStep, orOp_eq, mem_outcomes_orElse, append_eq, mem_outcomes_andThen]
  exact .inl ⟨_, mem_outcomes_anyText.2 ⟨s, hs, ⟨d, hrest.symm⟩, rfl⟩,
    mem_outcomes_wordEdge.2 ⟨rfl, hedge⟩⟩

/-- The modifiers of a declaration that ends in a blank are read where they stand. -/
theorem exists_star_of_behindModifiers {c : Cursor} {more : Text} (hrest : c.rest = d ++ more)
    (hend : ∀ e ∈ d.getLast?, isBlank e = true) (parts : List (HeaderPart × Span)) :
    ∃ front, d = front ++ behindModifiers d ∧ (⟨c.behind front, parts⟩ : Outcome HeaderPart) ∈
      (star (modifierStep methodModifiers)).outcomes ⟨c, parts⟩ := by
  fun_induction behindModifiers d generalizing c with
  | case1 d hw ih =>
    obtain ⟨hne, hchars⟩ := word_of_mem_modifierTexts hw
    obtain ⟨gap, hgap, hd⟩ := Text.exists_blanks_append_trimStart d
    have hsplit := List.takeWhile_append_dropWhile (p := isWord) (l := Text.trimStart d)
    have hstop := List.head?_dropWhile_not isWord (Text.trimStart d)
    generalize (Text.trimStart d).takeWhile isWord = w at hw hne hchars hsplit ih
    generalize (Text.trimStart d).dropWhile isWord = d' at hsplit hstop ih
    rw [← hsplit] at hd
    have hend' : ∀ e ∈ d'.getLast?, isBlank e = true := by
      intro e he
      refine hend e ?_
      rw [hd, ← List.append_assoc, List.getLast?_append, Option.mem_def.1 he]
      rfl
    -- a word cannot be the end of the declaration
    have hne' : d' ≠ [] := by
      rintro rfl
      obtain ⟨e, he⟩ := Option.isSome_iff_exists.1 (List.getLast?_isSome.2 hne)
      have hblank := hend e (by rw [hd, List.append_nil, List.getLast?_append, he]; rfl)
      have hword := hchars e (List.mem_of_getLast? he)
      exact Bool.false_ne_true ((isBlank_eq_false_of_isWord hword).symm.trans hblank)
    obtain ⟨f, letters, rfl⟩ := List.exists_cons_of_ne_nil hne'
    have hread : c.Reads gap (c.behind gap) :=
      ⟨⟨w ++ (f :: letters) ++ more, by simp [hrest, hd]⟩, rfl⟩
    have hbehind : (c.behind gap).rest = w ++ (f :: letters ++ more) :=
      List.append_cancel_left (hread.rest_eq.symm.trans (by simp [hrest, hd]))
    have hword : (c.behind gap).Reads w ((c.behind gap).behind w) := ⟨⟨_, hbehind.symm⟩, rfl⟩
    obtain ⟨front, hfront, hmem⟩ := ih (c := (c.behind gap).behind w)
      (List.append_cancel_left (hword.rest_eq.symm.trans hbehind)) hend'
    have hfrontRead : ((c.behind gap).behind w).Reads front
        (((c.behind gap).behind w).behind front) := by
      refine ⟨⟨behindModifiers (f :: letters) ++ more, ?_⟩, rfl⟩
      rw [← List.append_assoc, ← hfront]
      exact List.append_cancel_left (hbehind.symm.trans hword.rest_eq)
    have hblanks : (⟨c.behind gap, parts⟩ : Outcome HeaderPart) ∈
        (star (modifierStep methodModifiers)).outcomes ⟨c, parts⟩ :=
      mem_outcomes_star_orElse_one hgap hread.1
    have hstep := mem_modifierStep parts hw hbehind fun e he => by
      obtain rfl := Option.some.inj he
      simpa using hstop
    refine ⟨gap ++ w ++ front, ?_, ?_⟩
    · rw [List.append_assoc, ← hfront, List.append_assoc]
      exact hd
    · rw [← ((hread.trans hword).trans hfrontRead).2]
      rw [mem_outcomes_star_iff_reflTransGen forward_modifierStep] at hblanks hmem ⊢
      exact hblanks.trans (.head hstep hmem)
  | case2 d hw =>
    obtain ⟨gap, hgap, hd⟩ := Text.exists_blanks_append_trimStart d
    refine ⟨gap, hd, mem_outcomes_star_orElse_one hgap ⟨Text.trimStart d ++ more, ?_⟩⟩
    rw [← List.append_assoc, ← hd, hrest]

/-! ### Reading a declaration -/

/-- A type is read where it stands, and so is none. -/
theorem exists_mem_returnType {c e : Cursor} (hx : c.Reads x e)
    (hread : x = [] ∨ ∃ type gap, ReadsType x type gap) (parts : List (HeaderPart × Span)) :
    ∃ parts', (⟨e, parts'⟩ : Outcome HeaderPart) ∈ returnType.outcomes ⟨c, parts⟩ := by
  have hlanguage : returnType.InLanguage x := by
    rcases hread with hnil | ⟨type, gap, hread⟩
    · exact .inr hnil
    · exact .inl ⟨type, gap, inLanguage_someOf.2 ⟨hread.type_ne, hread.type_chars⟩,
        inLanguage_someOf.2 ⟨hread.gap_ne, hread.gap_blank⟩, hread.text⟩
  obtain ⟨⟨e', parts'⟩, hmem, hreads⟩ := exists_mem_outcomes_of_inLanguage (o := ⟨c, parts⟩)
    (by simp [returnType, maybe, named, someOf, someBlanks, Placeless]) hlanguage hx.1
  obtain rfl : e' = e := hreads.2.trans hx.2.symm
  exact ⟨parts', hmem⟩

/-- What can stand behind modifiers is read where it stands. -/
theorem exists_mem_rest {c e : Cursor} (hx : c.Reads x e) (hread : IsReadable x)
    (parts : List (HeaderPart × Span)) : ∃ parts', (⟨e, parts'⟩ : Outcome HeaderPart) ∈
      (typeParameters.andThen returnType).outcomes ⟨c, parts⟩ := by
  have hskip : (⟨c, parts⟩ : Outcome HeaderPart) ∈ typeParameters.outcomes ⟨c, parts⟩ :=
    mem_outcomes_orElse.2 (.inl (List.mem_singleton_self _))
  rcases hread with hnil | hread | ⟨inner, gap, rest, hread⟩
  · obtain ⟨parts', hmem⟩ := exists_mem_returnType hx (.inl hnil) parts
    exact ⟨parts', mem_outcomes_andThen.2 ⟨_, hskip, hmem⟩⟩
  · obtain ⟨parts', hmem⟩ := exists_mem_returnType hx (.inr hread) parts
    exact ⟨parts', mem_outcomes_andThen.2 ⟨_, hskip, hmem⟩⟩
  · have hsplit : x = '<' :: (inner ++ '>' :: gap) ++ rest := by
      rw [hread.text]
      simp
    have hlanguage : typeParameters.InLanguage ('<' :: (inner ++ '>' :: gap)) := by
      refine .inr ⟨'<' :: (inner ++ ['>']), gap, ⟨'<' :: inner, ['>'], ⟨['<'], inner, rfl,
        inLanguage_someOf.2 ⟨hread.inner_ne, hread.inner_chars⟩, rfl⟩, rfl, rfl⟩,
        inLanguage_someOf.2 ⟨hread.gap_ne, hread.gap_blank⟩, ?_⟩
      simp
    rw [hsplit] at hx
    obtain ⟨hfirst, hback⟩ := hx.of_append
    obtain ⟨⟨mid, partsMid⟩, hmid, hreads⟩ := exists_mem_outcomes_of_inLanguage
      (o := ⟨c, parts⟩) (by simp [typeParameters, maybeLazy, named, someOf, someBlanks, Placeless,
        Pattern.text]) hlanguage hfirst.1
    rw [← hreads.2] at hback
    obtain ⟨parts', hmem⟩ := exists_mem_returnType hback hread.rest_read partsMid
    exact ⟨parts', mem_outcomes_andThen.2 ⟨_, hmid, hmem⟩⟩

/-- A readable declaration is read where it stands. -/
theorem exists_mem_methodDeclaration {c e : Cursor} (hread : c.Reads d e)
    (hend : ∀ e ∈ d.getLast?, isBlank e = true) (hreadable : IsReadable (behindModifiers d))
    (parts : List (HeaderPart × Span)) : ∃ parts', (⟨e, parts'⟩ : Outcome HeaderPart) ∈
      methodDeclaration.outcomes ⟨c, parts⟩ := by
  obtain ⟨front, hd, hstar⟩ := exists_star_of_behindModifiers hread.rest_eq hend parts
  have hmodifiers : ∃ parts', (⟨c.behind front, parts'⟩ : Outcome HeaderPart) ∈
      (maybe (modifierWords methodModifiers)).outcomes ⟨c, parts⟩ := by
    rcases (mem_outcomes_star_iff forward_modifierStep).1 hstar with hplus | hnone
    · exact ⟨_, mem_outcomes_orElse.2 (.inl (mem_outcomes_part.2 ⟨_, hplus, rfl⟩))⟩
    · refine ⟨parts, mem_outcomes_orElse.2 (.inr ?_)⟩
      rw [hnone]
      exact List.mem_singleton_self _
  obtain ⟨partsFront, hfront⟩ := hmodifiers
  rw [hd] at hread
  obtain ⟨partsRest, hrest⟩ := exists_mem_rest hread.of_append.2 hreadable partsFront
  obtain ⟨mid, hparameters, htype⟩ := mem_outcomes_andThen.1 hrest
  rw [methodDeclaration_eq]
  exact ⟨_, mem_outcomes_part.2 ⟨_, mem_outcomes_andThen.2 ⟨mid, mem_outcomes_andThen.2
    ⟨_, hfront, hparameters⟩, htype⟩, rfl⟩⟩

section

variable {β : Type} {done : Outcome HeaderPart → Option β} {e : Cursor}

/-- A type that ends where there is an answer is not passed over. -/
theorem lead_returnType_ne_none (hdone : ∀ parts, done ⟨e, parts⟩ ≠ none) {c : Cursor}
    (hx : c.Reads x e) (hread : x = [] ∨ ∃ type gap, ReadsType x type gap)
    (parts : List (HeaderPart × Span)) : lead returnType ⟨c, parts⟩ done ≠ none := by
  obtain ⟨parts', hmem⟩ := exists_mem_returnType hx hread parts
  rw [ne_eq, lead_eq_none_iff]
  exact fun hall => hdone parts' (hall _ hmem)

/-- So neither is it if type parameters may stand before it. -/
theorem lead_typeParameters_ne_none (hdone : ∀ parts, done ⟨e, parts⟩ ≠ none) {c : Cursor}
    (hx : c.Reads x e) (hread : x = [] ∨ ∃ type gap, ReadsType x type gap)
    (parts : List (HeaderPart × Span)) :
    lead typeParameters ⟨c, parts⟩ (fun b => lead returnType b done) ≠ none := by
  rw [typeParameters, lead_maybeLazy, ne_eq, Option.or_eq_none_iff]
  exact fun hnone => lead_returnType_ne_none hdone hx hread parts hnone.1

/-- Further modifiers lead to no answer. -/
def EndsModifiers (done : Outcome HeaderPart → Option β) (c : Cursor) : Prop :=
  ∀ o ∈ (star (modifierStep methodModifiers)).outcomes ⟨c, []⟩, c.offset < o.cursor.offset →
    ∀ parts, lead typeParameters ⟨o.cursor, parts⟩ (fun b => lead returnType b done) = none

section

variable {c : Cursor} (hdone : ∀ parts, done ⟨e, parts⟩ ≠ none) (hstop : EndsModifiers done c)

include hdone hstop

/-- Modifiers that stand in front of a type would have been read with the others. -/
theorem not_mem_star_of_stop {u y : Text} (hx : c.Reads (u ++ y) e) (hne : u ≠ [])
    (hy : y = [] ∨ ∃ type gap, ReadsType y type gap) :
    ⟨c.behind u, []⟩ ∉ (star (modifierStep methodModifiers)).outcomes ⟨c, []⟩ := by
  intro hmem
  have hpos := List.length_pos_iff.2 hne
  exact lead_typeParameters_ne_none hdone hx.of_append.2 hy []
    (hstop _ hmem (by simp only [Cursor.behind]; omega) [])

variable (hx : c.Reads x e) (hread : IsReadable x)

include hx hread

theorem isBlank_head?_of_stop : ∀ d ∈ x.head?, isBlank d = false := by
  intro d hd
  by_contra hd'
  have hblank : isBlank d = true := by simpa using hd'
  have hsplit : x.takeWhile isBlank ++ Text.trimStart x = x := List.takeWhile_append_dropWhile
  obtain ⟨z, rfl⟩ := List.head?_eq_some_iff.1 hd
  have htype : d :: z = [] ∨ ∃ type gap, ReadsType (d :: z) type gap := by
    rcases hread with hnil | hread | ⟨inner, gap, rest, hread⟩
    · exact .inl hnil
    · exact .inr hread
    · obtain ⟨rfl, -⟩ := List.cons.inj hread.text
      exact absurd hblank (by decide)
  rw [← hsplit] at hx
  refine not_mem_star_of_stop hdone hstop hx (by simp [hblank]) (readsType_trimStart htype) ?_
  exact mem_outcomes_star_orElse_one (fun _ hc => List.mem_takeWhile_imp hc) hx.of_append.1.1

theorem takeWhile_isWord_not_mem_of_stop : x.takeWhile isWord ∉ modifierTexts := by
  intro hw
  obtain ⟨hne, hchars⟩ := word_of_mem_modifierTexts hw
  rcases hread with rfl | ⟨type, gap, hread⟩ | ⟨inner, gap, rest, hread⟩
  · exact hne rfl
  · obtain ⟨more, hmore, htype⟩ := hread.exists_dropWhile_isWord
    have hsplit : x.takeWhile isWord ++ x.dropWhile isWord = x := List.takeWhile_append_dropWhile
    have hnext : ∀ d ∈ (x.dropWhile isWord ++ e.rest).head?, isWord d = false := by
      intro d hd
      rw [List.head?_append_of_ne_nil _ (by simp [hmore, hread.gap_ne])] at hd
      have hnot := List.head?_dropWhile_not isWord x
      rw [Option.mem_def.1 hd] at hnot
      simpa using hnot
    generalize x.takeWhile isWord = w at hw hne hsplit htype
    rw [hmore] at hnext hsplit
    rw [← hsplit] at hx
    have hrest : c.rest = w ++ (more ++ gap ++ e.rest) := by
      rw [hx.rest_eq, List.append_assoc]
    have hstep := mem_modifierStep (c := c) [] hw hrest hnext
    have hlt : c.offset < (c.behind w).offset := by
      have hpos := List.length_pos_iff.2 hne
      simp only [Cursor.behind]
      omega
    cases more with
    | nil =>
      -- only blanks follow the word
      rw [List.nil_append] at hx
      have hback := hx.of_append.2
      have hmem := mem_outcomes_star_of_step hstep hlt
        (mem_outcomes_star_orElse_one hread.gap_blank hback.1)
      rw [← hback.2, hx.2] at hmem
      refine not_mem_star_of_stop (y := []) hdone hstop ?_ (by simp [hne]) (.inl rfl) hmem
      rwa [List.append_nil]
    | cons g more =>
      refine not_mem_star_of_stop hdone hstop hx hne (.inr ⟨g :: more, gap, rfl,
        List.cons_ne_nil g more, fun d hd => hread.type_chars d ?_, hread.gap_ne, hread.gap_blank⟩)
        (mem_outcomes_star_of_step hstep hlt (self_mem_outcomes_star _ _))
      rw [htype]
      exact List.mem_append_right w hd
  · rw [hread.text, List.takeWhile_cons_of_neg (by decide)] at hne
    exact hne rfl

/-- Where modifiers are read until no further ones lead to an answer, no further ones stand. -/
theorem opensType_of_stop : OpensType x :=
  ⟨isBlank_head?_of_stop hdone hstop hx hread,
    takeWhile_isWord_not_mem_of_stop hdone hstop hx hread⟩

end

/-- The return type is read as far as it can, and then the blanks behind it. -/
theorem exists_type_of_lead {t : Text} {b : Outcome HeaderPart} {r : β} (hb : b.IsIn t)
    (hnone : b.parts.lookup .returnType = none) (hplace : ByPlace done)
    (h : lead returnType b done = some r) : ∃ d ∈ returnType.outcomes b, done d = some r ∧
      ∃ x, b.cursor.Reads x d.cursor ∧ (x = [] ∨ ∃ type gap, ReadsType x type gap) ∧
        (d.parts.lookup .returnType).map (Span.slice · t) = typeText? x := by
  rw [returnType, lead_maybe, append_eq, lead_andThen, named, lead_part, Option.or_eq_some_iff] at h
  rcases h with htaken | ⟨-, hhere⟩
  · obtain ⟨o, ho, hblanks, hlonger⟩ := exists_stop_of_lead_someOf htaken
    obtain ⟨d, hd, hanswer⟩ := exists_of_lead_eq_some hblanks
    obtain ⟨type, htype, htypeChars, htypePre, rfl⟩ := mem_outcomes_someOf.1 ho
    obtain ⟨gap, hgap, hgapBlank, hgapPre, rfl⟩ := mem_outcomes_someOf.1 hd
    have hread : ReadsType (type ++ gap) type gap := ⟨rfl, htype, htypeChars, hgap, hgapBlank⟩
    have hreads : b.cursor.Reads type (b.cursor.behind type) := ⟨htypePre, rfl⟩
    refine ⟨_, mem_outcomes_orElse.2 (.inl (mem_outcomes_andThen.2 ⟨_, mem_outcomes_part.2
      ⟨_, ho, rfl⟩, hd⟩)), hanswer, type ++ gap, hreads.trans ⟨hgapPre, rfl⟩,
      .inr ⟨type, gap, hread⟩, ?_⟩
    have hslice : Span.slice ⟨b.cursor.offset, (b.cursor.behind type).offset⟩ t = type := by
      have hmid : b.cursor.Reads type (⟨b.cursor.behind type, []⟩ : Outcome HeaderPart).cursor :=
        hreads
      exact hb.slice_eq hmid
    rw [List.lookup_cons_self, Option.map_some, hslice, typeText?, if_neg (by simp [htype]),
      typeText_eq hread]
    -- a longer type with blanks behind it would have been taken
    intro c gap' hcons hne
    by_contra hchar
    rw [hcons] at hgapPre hanswer hgapBlank
    obtain ⟨hone, hmore⟩ := cons_prefix_rest_iff.1 hgapPre
    obtain ⟨parts, hparts⟩ := hlonger [c] (List.cons_ne_nil c [])
      (List.forall_mem_singleton.2 (by simpa using hchar)) hone
    have hnone := lead_eq_none_iff.1 hparts _ (mem_outcomes_someOf.2 ⟨gap', hne,
      fun d hd => hgapBlank d (List.mem_cons_of_mem c hd), hmore, rfl⟩)
    rw [← behind_cons] at hnone
    rw [hplace _ _ _ hnone] at hanswer
    cases hanswer
  · exact ⟨b, mem_outcomes_orElse.2 (.inr (List.mem_singleton_self b)), hhere, [], .refl _,
      .inl rfl, by rw [hnone]; rfl⟩

/-- Type parameters are read with all the blanks behind them. -/
theorem exists_parameters_of_lead {a : Outcome HeaderPart} {next : Outcome HeaderPart → Option β}
    {r : β} (h : lead typeParameters a next = some r) (hnot : next a = none) :
    ∃ b ∈ typeParameters.outcomes a, next b = some r ∧ Exhausts isBlank next b ∧ ∃ inner gap,
      inner ≠ [] ∧ (∀ c ∈ inner, isParameterChar c = true) ∧
        gap ≠ [] ∧ (∀ c ∈ gap, isBlank c = true) ∧
        a.cursor.Reads ('<' :: (inner ++ '>' :: gap)) b.cursor := by
  rw [typeParameters, lead_maybeLazy, hnot, Option.none_or, named, lead_part, append_eq,
    lead_andThen] at h
  obtain ⟨group, hgroup, hblanks⟩ := exists_of_lead_eq_some h
  obtain ⟨b, hb, hnext, hlonger⟩ := exists_stop_of_lead_someOf hblanks
  refine ⟨⟨b.cursor, (.typeParameters, ⟨a.cursor.offset, b.cursor.offset⟩) :: b.parts⟩,
    mem_outcomes_orElse.2 (.inr (mem_outcomes_part.2 ⟨b, mem_outcomes_andThen.2 ⟨group, hgroup, hb⟩,
      rfl⟩)), hnext, fun u hne hu hpre => ?_, ?_⟩
  · obtain ⟨parts, hparts⟩ := hlonger u hne hu hpre
    exact ⟨_, hparts⟩
  · simp only [append_eq, mem_outcomes_andThen, text, mem_outcomes_fixed] at hgroup
    obtain ⟨_, ⟨_, ⟨hopen, rfl⟩, hinner⟩, hangle, rfl⟩ := hgroup
    obtain ⟨inner, hinnerNe, hinnerChars, hinnerPre, rfl⟩ := mem_outcomes_someOf.1 hinner
    obtain ⟨gap, hgap, hgapBlank, hgapPre, rfl⟩ := mem_outcomes_someOf.1 hb
    have hlist : '<' :: (inner ++ '>' :: gap) = "<".toList ++ inner ++ ">".toList ++ gap := by simp
    refine ⟨inner, gap, hinnerNe, hinnerChars, hgap, hgapBlank, ?_⟩
    rw [hlist]
    exact ((Cursor.Reads.trans ⟨hopen, rfl⟩ ⟨hinnerPre, rfl⟩).trans ⟨hangle, rfl⟩).trans
      ⟨hgapPre, rfl⟩

/-- Where no further blanks lead to an answer, no type is read that starts with blanks. -/
theorem isBlank_head?_of_exhausts (hdone : ∀ parts, done ⟨e, parts⟩ ≠ none) {b : Outcome HeaderPart}
    (hb : Exhausts isBlank (fun o => lead returnType o done) b) (hx : b.cursor.Reads x e)
    (hread : x = [] ∨ ∃ type gap, ReadsType x type gap) : ∀ c ∈ x.head?, isBlank c = false := by
  intro c hc
  by_contra hblank
  have hne : x.takeWhile isBlank ≠ [] := by
    obtain ⟨y, rfl⟩ := List.head?_eq_some_iff.1 hc
    simpa using hblank
  have hsplit : x.takeWhile isBlank ++ Text.trimStart x = x := List.takeWhile_append_dropWhile
  rw [← hsplit] at hx
  obtain ⟨hfront, hback⟩ := hx.of_append
  obtain ⟨parts, hstop⟩ := hb _ hne (fun d hd => List.mem_takeWhile_imp hd) hfront.1
  exact lead_returnType_ne_none hdone hback (readsType_trimStart hread) parts hstop

/-- What stands behind the modifiers is read as a type as a whole if that can be, and without the
type parameters in front otherwise. -/
theorem exists_rest_of_lead {t : Text} {a : Outcome HeaderPart} {r : β} (ha : a.IsIn t)
    (hnone : a.parts.lookup .returnType = none) (hplace : ByPlace done)
    (h : lead typeParameters a (fun b => lead returnType b done) = some r) :
    ∃ d ∈ (typeParameters.andThen returnType).outcomes a, done d = some r ∧
      ∃ x, a.cursor.Reads x d.cursor ∧ IsReadable x ∧
        (d.parts.lookup .returnType).map (Span.slice · t) =
          typeText? (typePart x) := by
  cases hskip : lead returnType a done with
  | some r' =>
    -- without type parameters
    have hr : r' = r := by
      rw [typeParameters, lead_maybeLazy, hskip, Option.some_or] at h
      exact Option.some.inj h
    rw [hr] at hskip
    obtain ⟨d, hd, hanswer, x, hx, hread, htype⟩ := exists_type_of_lead ha hnone hplace hskip
    refine ⟨d, mem_outcomes_andThen.2 ⟨a, mem_outcomes_orElse.2 (.inl (List.mem_singleton_self a)),
      hd⟩, hanswer, x, hx, ?_, ?_⟩
    · rcases hread with hnil | hread
      · exact .inl hnil
      · exact .inr (.inl hread)
    · have hall : (behindType x).all isBlank = true := by
        rcases hread with rfl | ⟨type, gap, hread⟩
        · rfl
        · exact hread.all
      rw [typePart, if_pos hall, htype]
  | none =>
    obtain ⟨b, hb, hlead, hlonger, inner, gap, hinnerNe, hinner, hgapne, hgap, hreads⟩ :=
      exists_parameters_of_lead h hskip
    have hbnone : b.parts.lookup .returnType = none := by
      rw [(reads_of_mem_outcomes hb).lookup_eq, hnone]
      simp [typeParameters, named, maybeLazy, someOf, someBlanks, text, mayReport]
    obtain ⟨d, hd, hanswer, rest, hrest, hread, htype⟩ :=
      exists_type_of_lead (ha.of_mem hb).1 hbnone hplace hlead
    have hdone : ∀ parts, done ⟨d.cursor, parts⟩ ≠ none := by
      intro parts hnone
      rw [hplace _ _ d.parts hnone] at hanswer
      cases hanswer
    have hhead := isBlank_head?_of_exhausts hdone hlonger hrest hread
    have hparameters : ReadsParameters ('<' :: (inner ++ '>' :: gap) ++ rest) inner gap rest :=
      ⟨by simp, hinnerNe, hinner, hgapne, hgap, hhead, hread⟩
    have hwhole := hreads.trans hrest
    refine ⟨d, mem_outcomes_andThen.2 ⟨b, hb, hd⟩, hanswer, _, hwhole,
      .inr (.inr ⟨inner, gap, rest, hparameters⟩), ?_⟩
    have hall : ¬ (behindType ('<' :: (inner ++ '>' :: gap) ++ rest)).all isBlank = true := by
      intro hall
      have hopens : ∀ c ∈ ('<' :: (inner ++ '>' :: gap) ++ rest).head?, isBlank c = false := by
        intro c hc
        obtain rfl := Option.some.inj hc
        decide
      exact lead_returnType_ne_none hdone hwhole
        (.inr ⟨_, _, readsType_of_all hopens (by simp) hall⟩) a.parts hskip
    rw [typePart, if_neg hall, hparameters.behindTypeParameters, htype]

/-- The declaration that is taken has the return type that stands in it. -/
theorem exists_declared_of_lead {t : Text} {o : Outcome HeaderPart} {r : β} (ho : o.IsIn t)
    (hnone : o.parts.lookup .returnType = none) (hplace : ByPlace done)
    (h : lead methodDeclaration o done = some r) :
    ∃ d ∈ methodDeclaration.outcomes o, done d = some r ∧
      ∃ text, o.cursor.Reads text d.cursor ∧
        d.parts.lookup .declaration = some ⟨o.cursor.offset, d.cursor.offset⟩ ∧
        IsReadable (behindModifiers text) ∧
        (d.parts.lookup .returnType).map (Span.slice · t) = declaredText? text := by
  have hwords : modifierWords methodModifiers =
      part .modifiers (plus (modifierStep methodModifiers)) := rfl
  rw [methodDeclaration_eq, lead_part, lead_andThen, lead_andThen, hwords] at h
  have hplace' : ByPlace fun d => done ⟨d.cursor, (.declaration,
      ⟨o.cursor.offset, d.cursor.offset⟩) :: d.parts⟩ :=
    fun c parts parts' hnone => hplace _ _ _ hnone
  obtain ⟨a, ha, haNext, ⟨front, hfront, hcursor⟩, hstop⟩ :=
    exists_stop_of_lead_maybe_plus forward_modifierStep
      (byPlace_lead typeParameters (byPlace_lead returnType hplace')) h
  obtain ⟨hin, -⟩ := ho.of_mem ha
  have haParts : a.parts.lookup .returnType = none := by
    rw [(reads_of_mem_outcomes ha).lookup_eq, hnone]
    simp [modifierStep, methodModifiers, maybe, plus, anyText, text, mayReport]
  obtain ⟨d, hd, hanswer, x, hx, hread, htype⟩ := exists_rest_of_lead hin haParts hplace' haNext
  obtain ⟨u, hu, hmodifiers⟩ := behindModifiers_of_star hfront
  rw [hcursor] at hu hmodifiers
  have hopens : OpensType x := by
    refine opensType_of_stop (fun parts hnone => ?_) hstop hx hread
    exact Option.some_ne_none r (hanswer.symm.trans (hplace' _ _ d.parts hnone))
  have hrest : behindModifiers (u ++ x) = x := by
    rw [hmodifiers x hx.1, behindModifiers_eq_self hopens]
  have hmem : d ∈ (((maybe (modifierWords methodModifiers)).andThen typeParameters).andThen
      returnType).outcomes o := by
    obtain ⟨b, hb, hd⟩ := mem_outcomes_andThen.1 hd
    exact mem_outcomes_andThen.2 ⟨b, mem_outcomes_andThen.2 ⟨a, ha, hb⟩, hd⟩
  refine ⟨_, mem_outcomes_part.2 ⟨d, hmem, rfl⟩, hanswer, u ++ x, hu.trans hx,
    List.lookup_cons_self, ?_, ?_⟩
  · rwa [hrest]
  · rw [declaredText?, hrest]
    exact htype

end

/-- The declaration of a header that matches is readable, and its return type is read from it. -/
theorem declared_of_matchAt? {t : Text} {i : Nat} {m : Match HeaderPart} (hi : i ≤ t.length)
    (h : methodHeader.matchAt? t i = some m) :
    IsReadable (behindModifiers (m.text t .declaration)) ∧
      m.text? t .returnType = declaredText? (m.text t .declaration) := by
  have hin : Outcome.IsIn t (⟨.inText t i, []⟩ : Outcome HeaderPart) := ⟨rfl, hi⟩
  rw [matchAt?, lead_methodHeader] at h
  obtain ⟨o, ho, hlead⟩ := exists_of_lead_eq_some h
  obtain ⟨hino, -⟩ := hin.of_mem ho
  have hparts : o.parts.lookup .returnType = none := by
    rw [(reads_of_mem_outcomes ho).lookup_eq]
    · rfl
    · simp [methodFront, methodComments, methodAnnotations, docComment, lineComment,
        annotationMark, nested, named, maybe, plus, someOf, someBlanks, indentation, blanks, text,
        mayReport]
  -- whether a header goes on behind its declaration is a matter of the place
  have hplace : ByPlace fun o2 => lead behindDeclaration o2 fun o =>
      some (⟨i, o.cursor.offset, o.parts⟩ : Match HeaderPart) :=
    byPlace_lead _ fun c parts parts' hnone => by cases hnone
  obtain ⟨d, -, hnext, piece, hpiece, hdeclaration, hreadable, htype⟩ :=
    exists_declared_of_lead hino hparts hplace hlead
  obtain ⟨e, he, hm⟩ := exists_of_lead_eq_some hnext
  cases hm
  have hsame (part : HeaderPart) (hpart : part = .declaration ∨ part = .returnType) :
      e.parts.lookup part = d.parts.lookup part := by
    apply (reads_of_mem_outcomes he).lookup_eq
    rcases hpart with rfl | rfl <;>
      simp [behindDeclaration, methodTail, named, word, nested, maybe, someOf, someBlanks, blanks,
        text, mayReport]
  have htext : Match.text (⟨i, e.cursor.offset, e.parts⟩ : Match HeaderPart) t .declaration =
      piece := by
    rw [Match.text, Match.text?, Match.span?, hsame _ (.inl rfl), hdeclaration, Option.map_some,
      hino.slice_eq hpiece]
    rfl
  rw [htext, Match.text?, Match.span?, hsame _ (.inr rfl), htype]
  exact ⟨hreadable, rfl⟩

/-- A return type that is read is not made of blanks only. -/
theorem exists_not_blank_of_returnType {t : Text} {i : Nat} {m : Match HeaderPart} {type : Text}
    (hi : i ≤ t.length) (h : methodHeader.matchAt? t i = some m)
    (htype : m.text? t .returnType = some type) : ∃ c ∈ type, isBlank c = false := by
  obtain ⟨hreadable, hread⟩ := declared_of_matchAt? hi h
  exact exists_not_blank_of_declaredText? hreadable (hread ▸ htype)

end Java

end Glossator
