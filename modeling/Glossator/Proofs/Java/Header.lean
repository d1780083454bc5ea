import Glossator.Proofs.Pattern.Search
import Glossator.Java.Header

/-!
# What the headers of types and methods read

A match of a header tells where its parts lie. Here these spans are put in order: the keyword and
the name of a type, the name of a method and the character that ends its header.

* `Pattern.mayReadAs_of_find?`: a part consists of characters that the pattern may read as it.
* `Java.TypeHeader.of_find?`: the shape of a type header that a search finds.
* `Java.MethodHeader.of_find?`: the shape of a method header that a search finds.
-/

set_option autoImplicit false

namespace Glossator

namespace Pattern.Outcome

variable {γ : Type}

/-- The outcome is at a place of a text. -/
def IsIn (t : Text) (o : Outcome γ) : Prop :=
  o.cursor = .inText t o.cursor.offset ∧ o.cursor.offset ≤ t.length

variable {t piece : Text} {o o' : Outcome γ}

theorem IsIn.of_mem {p : Pattern γ} (ho : o.IsIn t) (h : o' ∈ p.outcomes o) :
    o'.IsIn t ∧ o.cursor.offset ≤ o'.cursor.offset := by
  obtain ⟨cursor, parts⟩ := o
  obtain ⟨hcursor, hlen⟩ := ho
  simp only at hcursor hlen ⊢
  rw [hcursor] at h
  obtain ⟨hin, hle, hlen'⟩ := inText_of_mem_outcomes hlen h
  exact ⟨⟨hin, hlen'⟩, hle⟩

/-- The piece that is read between two places of a text is what the span between them covers. -/
theorem IsIn.slice_eq (ho : o.IsIn t) (h : o.cursor.Reads piece o'.cursor) :
    Span.slice ⟨o.cursor.offset, o'.cursor.offset⟩ t = piece := by
  have hpre := h.1
  rw [ho.1, Cursor.inText_rest] at hpre
  obtain ⟨rest, hrest⟩ := hpre
  rw [Span.slice, ← hrest, h.offset_eq]
  simp

/-- A character between two places that a pattern leads between is one that it may read. -/
theorem IsIn.mayRead_of_mem {p : Pattern γ} {i : Nat} {c : Char} (ho : o.IsIn t)
    (h : o' ∈ p.outcomes o) (hle : o.cursor.offset ≤ i) (hlt : i < o'.cursor.offset)
    (hc : t[i]? = some c) : p.mayRead c := by
  obtain ⟨piece, hread, hchars⟩ := (reads_of_mem_outcomes h).reads
  apply hchars
  rw [← ho.slice_eq hread, Span.slice, List.mem_iff_getElem?]
  refine ⟨i - o.cursor.offset, ?_⟩
  have hsub : i - o.cursor.offset < o'.cursor.offset - o.cursor.offset := by omega
  have hadd : o.cursor.offset + (i - o.cursor.offset) = i := by omega
  rw [List.getElem?_take, if_pos hsub, List.getElem?_drop, hadd, hc]

end Pattern.Outcome

namespace Pattern

variable {γ : Type}

/-- What a pattern may read as a part with some name. -/
def mayReadAs (name : γ) : Pattern γ → Char → Prop
  | andThen first second, c => mayReadAs name first c ∨ mayReadAs name second c
  | orElse left right, c => mayReadAs name left c ∨ mayReadAs name right c
  | star body, c => mayReadAs name body c
  | part label body, c => label = name ∧ body.mayRead c ∨ mayReadAs name body c
  | _, _ => False

/-- The parts with a name consist of certain characters. -/
def PartsConsistOf (t : Text) (name : γ) (chars : Char → Prop) (parts : List (γ × Span)) : Prop :=
  ∀ x ∈ parts, x.1 = name → ∀ c ∈ x.2.slice t, chars c

/-- The parts that a pattern adds consist of what it may read as them. -/
theorem partsConsistOf_of_mem_outcomes {t : Text} {name : γ} {chars : Char → Prop} {p : Pattern γ}
    {o o' : Outcome γ} (ho : o.IsIn t) (h : o' ∈ p.outcomes o)
    (hp : ∀ c, p.mayReadAs name c → chars c) (hparts : PartsConsistOf t name chars o.parts) :
    PartsConsistOf t name chars o'.parts := by
  induction p generalizing o o' with
  | empty =>
    obtain rfl := List.mem_singleton.1 h
    exact hparts
  | fixed piece =>
    obtain ⟨-, rfl⟩ := mem_outcomes_fixed.1 h
    exact hparts
  | one cls =>
    obtain ⟨_, -, -, rfl⟩ := mem_outcomes_one.1 h
    exact hparts
  | many cls =>
    obtain ⟨_, -, -, rfl⟩ := mem_outcomes_many.1 h
    exact hparts
  | lineStart =>
    obtain ⟨rfl, -⟩ := mem_outcomes_lineStart.1 h
    exact hparts
  | wordEdge =>
    obtain ⟨rfl, -⟩ := mem_outcomes_wordEdge.1 h
    exact hparts
  | andThen first second ihFirst ihSecond =>
    obtain ⟨mid, hmid, h⟩ := mem_outcomes_andThen.1 h
    exact ihSecond (ho.of_mem hmid).1 h (fun c hc => hp c (.inr hc))
      (ihFirst ho hmid (fun c hc => hp c (.inl hc)) hparts)
  | orElse left right ihLeft ihRight =>
    rcases mem_outcomes_orElse.1 h with h | h
    · exact ihLeft ho h (fun c hc => hp c (.inl hc)) hparts
    · exact ihRight ho h (fun c hc => hp c (.inr hc)) hparts
  | star body ih =>
    rw [outcomes] at h
    have hsteps := Outcome.reflTransGen_of_mem_repeat h
    clear h
    suffices hboth : o'.IsIn t ∧ PartsConsistOf t name chars o'.parts from hboth.2
    induction hsteps with
    | refl => exact ⟨ho, hparts⟩
    | tail _ hstep ihSteps =>
      exact ⟨(ihSteps.1.of_mem hstep.1).1, ih ihSteps.1 hstep.1 hp ihSteps.2⟩
  | part label body ih =>
    obtain ⟨mid, hmid, rfl⟩ := mem_outcomes_part.1 h
    intro x hx hname c hc
    rcases List.mem_cons.1 hx with rfl | hx
    · obtain ⟨piece, hread, hchars⟩ := (reads_of_mem_outcomes hmid).reads
      rw [ho.slice_eq hread] at hc
      exact hp c (.inl ⟨hname, hchars c hc⟩)
    · exact ih ho hmid (fun c hc => hp c (.inr hc)) hparts x hx hname c hc

/-- The text of a part is what stands at its span in an outcome of the pattern. -/
theorem exists_part_of_text? [DecidableEq γ] {t : Text} {name : γ} {p : Pattern γ} {offset : Nat}
    {m : Match γ} {piece : Text} (h : (Finder.ofPattern p t).find? offset = some m)
    (hpiece : m.text? t name = some piece) :
    Outcome.IsIn t (⟨.inText t m.start, []⟩ : Outcome γ) ∧
      ∃ o ∈ p.outcomes ⟨.inText t m.start, []⟩, ∃ span, (name, span) ∈ o.parts ∧
        span.slice t = piece := by
  obtain ⟨hlen, o, ho, hm⟩ := Finder.exists_of_find? h
  obtain ⟨span, hspan, rfl⟩ := Option.map_eq_some_iff.1 hpiece
  rw [hm] at hspan
  obtain ⟨before, rest, hparts, -⟩ := List.lookup_eq_some_iff.1 hspan
  refine ⟨⟨rfl, hlen⟩, o, ho, span, ?_, rfl⟩
  change o.parts = _ at hparts
  rw [hparts]
  exact List.mem_append_right before List.mem_cons_self

/-- The part of a match that a search finds consists of what the pattern may read as it. -/
theorem mayReadAs_of_find? [DecidableEq γ] {t : Text} {name : γ} {p : Pattern γ} {offset : Nat}
    {m : Match γ} {piece : Text} (h : (Finder.ofPattern p t).find? offset = some m)
    (hpiece : m.text? t name = some piece) : ∀ c ∈ piece, p.mayReadAs name c := by
  obtain ⟨hin, o, ho, span, hmem, rfl⟩ := exists_part_of_text? h hpiece
  exact partsConsistOf_of_mem_outcomes hin ho (fun _ hc => hc) (by simp [PartsConsistOf]) _ hmem rfl

end Pattern

namespace Java

open Pattern

/-- The shape of the header of a type in a text: a keyword, blanks and a name. -/
structure TypeHeader (t : Text) (m : Match HeaderPart) (keyword title : Span) : Prop where
  kind_span : m.span? .kind = some keyword
  name_span : m.span? .name = some title
  start_le : m.start ≤ keyword.start
  keyword_le : keyword.start ≤ keyword.stop
  gap_lt : keyword.stop < title.start
  title_lt : title.start < title.stop
  title_le : title.stop ≤ m.stop
  stop_le : m.stop ≤ t.length
  keyword_text : keyword.slice t ∈ ["class", "interface", "enum"].map String.toList
  gap_text : ∀ c ∈ Span.slice ⟨keyword.stop, title.start⟩ t, isBlank c = true
  title_text : ∀ c ∈ title.slice t, isWord c = true

/-- The keywords of types are words. -/
theorem isWord_of_mem_keyword {w : Text} (hw : w ∈ ["class", "interface", "enum"].map String.toList)
    {c : Char} (hc : c ∈ w) : isWord c = true := by
  have hall : ∀ w ∈ ["class", "interface", "enum"], w.toList.all isAsciiWord = true := by decide
  obtain ⟨w, hmem, rfl⟩ := List.mem_map.1 hw
  exact isWord_of_isAsciiWord (List.all_eq_true.1 (hall w hmem) c hc)

/-- What stands before the keyword of a type. -/
def typePreamble : HeaderPattern :=
  named .comments (Pattern.star (docComment ++ blanks ||| lineComment ++ text "\n")) ++
  Pattern.star (annotationMark ++ blanks) ++
  maybe (modifierWords typeModifiers) ++ blanks ++ wordEdge

theorem typeHeader_eq : typeHeader = typePreamble ++
    named .kind (anyText ["class", "interface", "enum"]) ++ someBlanks ++
    named .name word ++ maybe (blanks ++ text "<" ++ someOf (· ≠ '>') ++ text ">") := rfl

/-- At least one character of a class is read as a span of such characters. -/
theorem span_of_mem_someOf {t : Text} {cls : Char → Bool} {o o' : Outcome HeaderPart}
    (ho : o.IsIn t) (h : o' ∈ (someOf cls).outcomes o) :
    o.cursor.offset < o'.cursor.offset ∧
      ∀ c ∈ Span.slice ⟨o.cursor.offset, o'.cursor.offset⟩ t, cls c = true := by
  obtain ⟨-, piece, hne, hread, hcls⟩ := reads_of_mem_someOf h
  have hpos := List.length_pos_iff.2 hne
  have hoffset := hread.offset_eq
  refine ⟨by omega, ?_⟩
  rw [ho.slice_eq hread]
  exact hcls

/-- A type header that a search finds has the shape of one. -/
theorem TypeHeader.of_find? {t : Text} {offset : Nat} {m : Match HeaderPart}
    (h : (Finder.ofPattern typeHeader t).find? offset = some m) :
    ∃ keyword title, TypeHeader t m keyword title := by
  obtain ⟨hlen, o, ho, hm⟩ := Finder.exists_of_find? h
  have hin : Outcome.IsIn t (⟨.inText t m.start, []⟩ : Outcome HeaderPart) := ⟨rfl, hlen⟩
  rw [typeHeader_eq] at ho
  simp only [append_eq, mem_outcomes_andThen, named, mem_outcomes_part] at ho
  obtain ⟨_, ⟨o3, ⟨_, ⟨o1, hpre, k, hkind, rfl⟩, hblanks⟩, n, hname, rfl⟩, hparams⟩ := ho
  obtain ⟨hin1, hle1⟩ := hin.of_mem hpre
  obtain ⟨hink, hlek⟩ := hin1.of_mem hkind
  have hink' : Outcome.IsIn t (⟨k.cursor, (.kind, ⟨o1.cursor.offset, k.cursor.offset⟩) :: k.parts⟩ :
    Outcome HeaderPart) := hink
  obtain ⟨hgap, hgapText⟩ := span_of_mem_someOf hink' hblanks
  obtain ⟨hin3, -⟩ := hink'.of_mem hblanks
  obtain ⟨htitle, htitleText⟩ := span_of_mem_someOf hin3 hname
  obtain ⟨hinn, -⟩ := hin3.of_mem hname
  have hinn' : Outcome.IsIn t (⟨n.cursor, (.name, ⟨o3.cursor.offset, n.cursor.offset⟩) :: n.parts⟩ :
    Outcome HeaderPart) := hinn
  obtain ⟨hinEnd, hleEnd⟩ := hinn'.of_mem hparams
  -- no later part is a keyword or a name
  have hnoName : o.parts.lookup .name = some ⟨o3.cursor.offset, n.cursor.offset⟩ := by
    rw [(reads_of_mem_outcomes hparams).lookup_eq
      (by simp [maybe, mayReport, text, someOf, blanks])]
    rfl
  have hnoKind : o.parts.lookup .kind = some ⟨o1.cursor.offset, k.cursor.offset⟩ := by
    rw [(reads_of_mem_outcomes hparams).lookup_eq
      (by simp [maybe, mayReport, text, someOf, blanks])]
    change n.parts.lookup .kind = _
    rw [(reads_of_mem_outcomes hname).lookup_eq (by simp [word, mayReport, someOf]),
      (reads_of_mem_outcomes hblanks).lookup_eq (by simp [someBlanks, mayReport, someOf])]
    rfl
  obtain ⟨w, hw, hpre, hk⟩ := mem_outcomes_anyText.1 hkind
  have hread : o1.cursor.Reads w.toList k.cursor := ⟨hpre, by rw [hk]⟩
  refine ⟨⟨o1.cursor.offset, k.cursor.offset⟩, ⟨o3.cursor.offset, n.cursor.offset⟩, ?_⟩
  refine ⟨?_, ?_, hle1, hlek, hgap, htitle, ?_, ?_, ?_, hgapText, htitleText⟩
  · rw [hm]
    exact hnoKind
  · rw [hm]
    exact hnoName
  · rw [hm]
    exact hleEnd
  · rw [hm]
    exact hinEnd.2
  · rw [hin1.slice_eq hread]
    exact List.mem_map_of_mem hw

/-! ### Methods -/

/-- The parts of a method's header that stand before its declaration. -/
def frontParts : List HeaderPart := [.comments, .annotations, .inlineAnnotations]

/-- The shape of the header of a method in a text: a name, and a brace or a semicolon at the end.
A brace before the name belongs to a comment or to an annotation. -/
structure MethodHeader (t : Text) (m : Match HeaderPart) (title : Span) : Prop where
  name_span : m.span? .name = some title
  start_le : m.start ≤ title.start
  title_lt : title.start < title.stop
  title_le : title.stop < m.stop
  stop_le : m.stop ≤ t.length
  title_text : ∀ c ∈ title.slice t, isWord c = true
  terminator : m.text t .terminator = (t.drop (m.stop - 1)).take 1
  terminator_char : ∃ c, t[m.stop - 1]? = some c ∧ (c = '{' ∨ c = ';')
  front : ∀ i, m.start ≤ i → i < title.start → t[i]? = some '{' →
    ∃ part ∈ frontParts, ∃ span, m.span? part = some span ∧ span.contains i = true

/-- What stands between the annotations and the name of a method. -/
theorem not_mayRead_methodDeclaration : ¬ methodDeclaration.mayRead '{' := by
  have hword : isWord '{' = false := by decide
  have hblank : isBlank '{' = false := by decide
  simp [methodDeclaration, named, maybe, maybeLazy, modifierWords, methodModifiers, anyText, plus,
    someOf, someBlanks, text, mayRead, isTypeChar, hword, hblank]

/-- What stands before the declaration of a method. -/
def methodFront : HeaderPattern :=
  methodComments ++ methodAnnotations ++ lineStart ++ indentation ++
  named .inlineAnnotations (Pattern.star (annotationMark ++ someBlanks))

/-- What stands behind the name of a method, up to the last character of its header. -/
def methodTail : HeaderPattern :=
  blanks ++ (text "(" ++ (named .parameters (nested 2) ++ (text ")" ++ (blanks ++
    (maybe (text "throws" ++ someBlanks ++ someOf (fun c => c ≠ '{' && c ≠ ';')) ++ blanks)))))

/-- A header is read piece by piece: its front, its declaration, its name, what stands behind that,
and the brace or the semicolon at its end. -/
theorem mem_outcomes_methodHeader {o o' : Outcome HeaderPart} :
    o' ∈ methodHeader.outcomes o ↔ ∃ a ∈ methodFront.outcomes o,
      ∃ d ∈ methodDeclaration.outcomes a, ∃ n ∈ (part .name word).outcomes d,
        ∃ e ∈ methodTail.outcomes n,
          o' ∈ (part .terminator (one fun c => c = '{' || c = ';')).outcomes e := by
  have hassoc : o' ∈ methodHeader.outcomes o ↔ o' ∈ (methodFront.andThen (methodDeclaration.andThen
      ((part .name word).andThen (methodTail.andThen
        (part .terminator (one fun c => c = '{' || c = ';')))))).outcomes o := by
    simp only [methodHeader, methodFront, methodTail, named, append_eq, mem_outcomes_andThen]
    grind
  simp only [hassoc, mem_outcomes_andThen]

theorem not_mayReport_front {part : HeaderPart} (h : part ∈ frontParts) :
    ¬ methodDeclaration.mayReport part ∧ ¬ methodTail.mayReport part := by
  simp only [frontParts, List.mem_cons, List.not_mem_nil, or_false] at h
  rcases h with rfl | rfl | rfl <;>
    simp [methodDeclaration, methodTail, named, maybe, maybeLazy, modifierWords, methodModifiers,
      anyText, plus, someOf, someBlanks, blanks, nested, text, mayReport]

/-- A brace before the declaration of a method belongs to a comment or to an annotation. -/
theorem exists_part_of_mem_methodFront {t : Text} {o o' : Outcome HeaderPart} (ho : o.IsIn t)
    (h : o' ∈ methodFront.outcomes o) {i : Nat} (hle : o.cursor.offset ≤ i)
    (hlt : i < o'.cursor.offset) (hc : t[i]? = some '{') :
    ∃ part ∈ frontParts, ∃ span, o'.parts.lookup part = some span ∧ span.contains i = true := by
  simp only [methodFront, methodAnnotations, append_eq, mem_outcomes_andThen, named,
    mem_outcomes_part] at h
  obtain ⟨o4, ⟨o3, ⟨_, ⟨o1, hcomments, a, hannotations, rfl⟩, hstart⟩, hindent⟩,
    n, hinline, rfl⟩ := h
  obtain ⟨rfl, -⟩ := mem_outcomes_lineStart.1 hstart
  obtain ⟨hin1, -⟩ := ho.of_mem hcomments
  obtain ⟨hina, -⟩ := hin1.of_mem hannotations
  have hina' : Outcome.IsIn t (⟨a.cursor,
    (.annotations, ⟨o1.cursor.offset, a.cursor.offset⟩) :: a.parts⟩ : Outcome HeaderPart) := hina
  obtain ⟨hin4, -⟩ := hina'.of_mem hindent
  -- the parts known at the end are those that the three groups reported
  have hinlineSame (part : HeaderPart) : n.parts.lookup part = o4.parts.lookup part :=
    (reads_of_mem_outcomes hinline).lookup_eq
      (by simp [annotationMark, nested, maybe, someOf, someBlanks, text, mayReport])
  have hindentSame (part : HeaderPart) : o4.parts.lookup part =
      List.lookup part ((.annotations, ⟨o1.cursor.offset, a.cursor.offset⟩) :: a.parts) :=
    (reads_of_mem_outcomes hindent).lookup_eq (by simp [indentation, mayReport])
  have hannotationsSame (part : HeaderPart) : a.parts.lookup part = o1.parts.lookup part :=
    (reads_of_mem_outcomes hannotations).lookup_eq
      (by simp [annotationMark, nested, maybe, plus, someOf, indentation, text, mayReport])
  by_cases hi4 : o4.cursor.offset ≤ i
  · refine ⟨.inlineAnnotations, by simp [frontParts], ⟨o4.cursor.offset, n.cursor.offset⟩, rfl, ?_⟩
    simpa [Span.contains] using ⟨hi4, hlt⟩
  by_cases hia : a.cursor.offset ≤ i
  · have := hina'.mayRead_of_mem hindent hia (by omega) hc
    simp [indentation, mayRead] at this
  by_cases hi1 : o1.cursor.offset ≤ i
  · refine ⟨.annotations, by simp [frontParts], ⟨o1.cursor.offset, a.cursor.offset⟩, ?_, ?_⟩
    · change n.parts.lookup .annotations = _
      rw [hinlineSame, hindentSame]
      rfl
    · simpa [Span.contains] using ⟨hi1, by omega⟩
  · rw [methodComments, maybe, orOp_eq, outcomes, List.mem_append, named, mem_outcomes_part]
      at hcomments
    rcases hcomments with ⟨mid, -, rfl⟩ | hnone
    · refine ⟨.comments, by simp [frontParts], ⟨o.cursor.offset, mid.cursor.offset⟩, ?_, ?_⟩
      · change n.parts.lookup .comments = _
        rw [hinlineSame, hindentSame]
        change a.parts.lookup .comments = _
        rw [hannotationsSame]
        rfl
      · simp only at hi1
        simpa [Span.contains] using ⟨hle, by omega⟩
    · rw [outcomes, List.mem_singleton] at hnone
      rw [hnone] at hi1
      omega

/-- A method header that a search finds has the shape of one. -/
theorem MethodHeader.of_find? {t : Text} {offset : Nat} {m : Match HeaderPart}
    (h : (Finder.ofPattern methodHeader t).find? offset = some m) :
    ∃ title, MethodHeader t m title := by
  obtain ⟨hlen, o, ho, hm⟩ := Finder.exists_of_find? h
  have hin : Outcome.IsIn t (⟨.inText t m.start, []⟩ : Outcome HeaderPart) := ⟨rfl, hlen⟩
  obtain ⟨o1, hfront, o2, hdeclaration, _, hnamed, o4, htail, hend⟩ :=
    mem_outcomes_methodHeader.1 ho
  obtain ⟨n, hname, rfl⟩ := mem_outcomes_part.1 hnamed
  obtain ⟨e, hterminator, rfl⟩ := mem_outcomes_part.1 hend
  obtain ⟨hin1, hle1⟩ := hin.of_mem hfront
  obtain ⟨hin2, hle2⟩ := hin1.of_mem hdeclaration
  obtain ⟨htitle, htitleText⟩ := span_of_mem_someOf hin2 hname
  obtain ⟨hinn, -⟩ := hin2.of_mem hname
  have hinn' : Outcome.IsIn t (⟨n.cursor, (.name, ⟨o2.cursor.offset, n.cursor.offset⟩) :: n.parts⟩ :
    Outcome HeaderPart) := hinn
  obtain ⟨hin4, hle4⟩ := hinn'.of_mem htail
  obtain ⟨c, rest, hrest, hc, rfl⟩ : ∃ c rest, o4.cursor.rest = c :: rest ∧ (c = '{' ∨ c = ';') ∧
      e = ⟨⟨some c, rest, o4.cursor.offset + 1⟩, o4.parts⟩ := by
    rw [outcomes] at hterminator
    split at hterminator
    · cases hterminator
    · next c rest hrest =>
      split at hterminator
      · next hcls =>
        exact ⟨c, rest, hrest, by simpa using hcls, List.mem_singleton.1 hterminator⟩
      · cases hterminator
  have hchar : t[o4.cursor.offset]? = some c := by
    rw [hin4.1, Cursor.inText_rest] at hrest
    rw [← List.head?_drop, hrest, List.head?_cons]
  have hstop : o4.cursor.offset < t.length := (List.getElem?_eq_some_iff.1 hchar).1
  -- later parts hide neither the name nor what stands before it
  have htailSame {part : HeaderPart} (h : ¬ methodTail.mayReport part) :
      o4.parts.lookup part =
        List.lookup part ((.name, ⟨o2.cursor.offset, n.cursor.offset⟩) :: n.parts) :=
    (reads_of_mem_outcomes htail).lookup_eq h
  have hname' : o4.parts.lookup .name = some ⟨o2.cursor.offset, n.cursor.offset⟩ := by
    rw [htailSame]
    · rfl
    · simp [methodTail, named, maybe, someOf, someBlanks, blanks, nested, text, mayReport]
  refine ⟨⟨o2.cursor.offset, n.cursor.offset⟩, ?_⟩
  rw [hm]
  refine ⟨hname', hle1.trans hle2, htitle, Nat.lt_succ_of_le hle4, hstop, htitleText, ?_,
    ⟨c, hchar, hc⟩, ?_⟩
  · change Span.slice ⟨o4.cursor.offset, o4.cursor.offset + 1⟩ t = _
    rw [Span.slice, Nat.add_sub_cancel_left]
    rfl
  · intro i hle hlt hbrace
    by_cases hi : i < o1.cursor.offset
    · obtain ⟨part, hpart, span, hlookup, hspan⟩ :=
        exists_part_of_mem_methodFront hin hfront hle hi hbrace
      refine ⟨part, hpart, span, ?_, hspan⟩
      have hdeclarationSame : o2.parts.lookup part = o1.parts.lookup part :=
        (reads_of_mem_outcomes hdeclaration).lookup_eq (not_mayReport_front hpart).1
      have hnameSame : n.parts.lookup part = o2.parts.lookup part :=
        (reads_of_mem_outcomes hname).lookup_eq (by simp [word, someOf, mayReport])
      change List.lookup part ((.terminator, _) :: o4.parts) = _
      have hne : part ≠ .terminator ∧ part ≠ .name := by
        simp only [frontParts, List.mem_cons, List.not_mem_nil, or_false] at hpart
        rcases hpart with rfl | rfl | rfl <;> decide
      rw [List.lookup_cons, beq_false_of_ne hne.1, htailSame (not_mayReport_front hpart).2,
        List.lookup_cons, beq_false_of_ne hne.2, hnameSame, hdeclarationSame, hlookup]
    · exact absurd (hin1.mayRead_of_mem hdeclaration (by omega) hlt hbrace)
        not_mayRead_methodDeclaration

end Java

end Glossator
