import Glossator.Proofs.Java.ClassDeclarations
import Glossator.Proofs.Java.Words

/-!
# Reading methods back

What the match of a method's header and the block behind it say: the parts that the record of the
method is made from.

* `Java.ReadsMethod`: the parts of a match are those of a method.
* `Java.extent?_methodMatch`: where a method lies.
-/

set_option autoImplicit false

namespace Glossator.Java

/-- The parts that a match reports are those of the header of a method. -/
structure ReadsMethod (t : Text) (m : MethodDeclaration) (h : Match HeaderPart) : Prop where
  name : h.text t .name = m.name.text
  parameters : h.text t .parameters = parametersText m.parameters
  returnType : h.text? t .returnType = some m.returnType.text
  terminator : h.text t .terminator = ['{']
  declaration : Text.words (h.text t .declaration) =
    m.modifiers.map String.toList ++ [m.returnType.text]
  modifiers : Text.words (h.text t .modifiers) = m.modifiers.map String.toList
  comments : h.text? t .comments = none
  annotations : h.text t .annotations = []
  inlineAnnotations : h.text t .inlineAnnotations = []

/-- The match of the header of a method reads the method. -/
theorem ReadsMethod.of_methodMatch {before indent gap rest t : Text} {m : MethodDeclaration}
    (ht : t = before ++ indent ++ gap ++ m.text ++ rest) (hgap : ∀ c ∈ gap, isBlank c = true) :
    ReadsMethod t m (methodMatch before indent gap m) := by
  have left {a b : Text} (h : a ++ b <+: t) : a <+: t := (List.prefix_append a b).trans h
  have hbrace : before ++ indent ++ (gap ++ modifiersText m.modifiers) ++ m.returnType.text ++
      [' '] ++ m.name.text ++ ['('] ++ parametersText m.parameters ++ [')'] ++ [' '] ++ ['{'] <+:
      t := by
    refine ⟨m.body.text ++ '}' :: rest, ?_⟩
    simp [ht, MethodDeclaration.text, MethodDeclaration.header, MethodDeclaration.call,
      MethodDeclaration.block]
  have hparameters := left (left (left hbrace))
  have hname := left (left hparameters)
  have htype := left (left hname)
  have hmodifiers := left htype
  have hline := left hmodifiers
  have hwords (rest : Text) : Text.words (gap ++ modifiersText m.modifiers ++ rest) =
      m.modifiers.map String.toList ++ Text.words rest := by
    rw [List.append_assoc, Text.words_blanks_append hgap, words_modifiersText m.isModifier]
  have hdeclaration : (methodMatch before indent gap m).text t .declaration =
      gap ++ modifiersText m.modifiers ++ (m.returnType.text ++ [' ']) := by
    have hassoc : before ++ indent ++ (gap ++ modifiersText m.modifiers ++
        (m.returnType.text ++ [' '])) =
        before ++ indent ++ (gap ++ modifiersText m.modifiers) ++ m.returnType.text ++ [' '] := by
      simp
    refine Match.text_eq ?_ (hassoc ▸ left hname)
    rw [hassoc]
    rfl
  have hmodifiersText : (methodMatch before indent gap m).text t .modifiers =
      gap ++ modifiersText m.modifiers := by
    by_cases hne : gap ++ modifiersText m.modifiers = []
    · have hnone : (methodMatch before indent gap m).span? .modifiers = none := by
        rw [methodMatch, Match.span?, modifiersPart, if_pos hne]
        rfl
      rw [Match.text, Match.text?, hnone, hne]
      rfl
    · have hspan : (methodMatch before indent gap m).span? .modifiers =
          some ⟨(before ++ indent).length,
            (before ++ indent ++ (gap ++ modifiersText m.modifiers)).length⟩ := by
        rw [methodMatch, Match.span?, modifiersPart, if_neg hne]
        rfl
      exact Match.text_eq hspan hmodifiers
  have hempty {label : HeaderPart} {place : Text} (hplace : place <+: t)
      (hspan : (methodMatch before indent gap m).span? label = some ⟨place.length, place.length⟩) :
      (methodMatch before indent gap m).text t label = [] := by
    rw [← List.append_nil place] at hplace
    refine Match.text_eq ?_ hplace
    rwa [List.append_nil]
  exact
    { name := Match.text_eq rfl hname
      parameters := Match.text_eq rfl hparameters
      returnType := Match.text?_eq_some rfl htype
      terminator := Match.text_eq rfl hbrace
      declaration := by
        rw [hdeclaration, hwords, Text.words_append_cons (by decide), m.returnType.plainWord.words]
        rfl
      modifiers := by
        have hnil := hwords []
        rwa [List.append_nil, Text.words_nil, List.append_nil, ← hmodifiersText] at hnil
      comments := by
        have hnone : (methodMatch before indent gap m).span? .comments = none := by
          rw [methodMatch, Match.span?, modifiersPart]
          split <;> rfl
        rw [Match.text?, hnone]
        rfl
      annotations := by
        refine hempty (left hline) ?_
        rw [methodMatch, Match.span?, modifiersPart]
        split <;> rfl
      inlineAnnotations := by
        refine hempty hline ?_
        rw [methodMatch, Match.span?, modifiersPart]
        split <;> rfl }

/-- The header of a method declares something. -/
theorem ReadsMethod.isDeclaration {t : Text} {m : MethodDeclaration} {h : Match HeaderPart}
    (hm : ReadsMethod t m h) (scope : Option Scope) : isDeclaration scope t h = true := by
  have hstarts : ∀ w ∈ m.modifiers.map String.toList ++ [m.returnType.text],
      w ∉ statementStarts := by
    intro w hw
    rcases List.mem_append.1 hw with hw | hw
    · obtain ⟨v, hv, rfl⟩ := List.mem_map.1 hw
      exact (word_of_mem_memberModifiers (m.isModifier v hv)).2.2.2
    · rw [List.mem_singleton.1 hw]
      exact m.returnType.plainWord.not_mem_statementStarts
  have hfirst : statementStarts.contains
      ((m.modifiers.map String.toList ++ [m.returnType.text]).head?.getD m.name.text) = false := by
    rw [List.contains_eq_mem, decide_eq_false_iff_not]
    cases hmods : m.modifiers.map String.toList ++ [m.returnType.text] with
    | nil => exact m.name.plainWord.not_mem_statementStarts
    | cons w words => exact hstarts w (by rw [hmods]; exact List.mem_cons_self)
  simp only [Java.isDeclaration, hm.name, hm.declaration, hm.returnType, hfirst,
    m.returnType.plainWord.returnTypeWords]
  simp [m.name.plainWord.not_mem_reservedNames, m.returnType.plainWord.not_mem_statementStarts,
    m.returnType.plainWord.not_mem_reservedNames]

/-- Where a method lies that stands in a line, behind its indentation. -/
def methodExtent (before indent : Text) (m : MethodDeclaration) : Extent where
  lineStart := before.length
  start := (before ++ indent).length
  body := some ⟨(before ++ indent ++ m.header).length, (before ++ indent ++ m.text).length, true⟩
  stop := (before ++ indent ++ m.text).length

theorem stop_methodMatch (before indent gap : Text) (m : MethodDeclaration) :
    (methodMatch before indent gap m).stop = (before ++ indent ++ gap ++ m.header).length + 1 := by
  simp [methodMatch, MethodDeclaration.header, MethodDeclaration.call]
  omega

/-- The match of the header of a method gives the line and the body of the method. -/
theorem extent?_methodMatch {before indent gap line space rest t : Text} {m : MethodDeclaration}
    (ht : t = before ++ indent ++ gap ++ m.text ++ rest) (hlead : indent ++ gap = line ++ space)
    (hline : line = [] ∨ line = ['\n']) (hspace : ∀ c ∈ space, c = ' ' ∨ c = '\t') :
    extent? t (methodMatch before indent gap m) =
      some (methodExtent (before ++ line) space m) := by
  have hblank : ∀ c ∈ line ++ space, isBlank c = true := by
    intro c hc
    rcases List.mem_append.1 hc with hc | hc
    · rcases hline with rfl | rfl
      · cases hc
      · rw [List.mem_singleton.1 hc]
        decide
    · rcases hspace c hc with rfl | rfl <;> decide
  have hgap : ∀ c ∈ gap, isBlank c = true := by
    intro c hc
    refine hblank c ?_
    rw [← hlead]
    exact List.mem_append_right _ hc
  have hterminator := (ReadsMethod.of_methodMatch ht hgap).terminator
  have htext : t = before ++ (line ++ space) ++ m.text ++ rest := by
    rw [ht, ← hlead, List.append_assoc before]
  have hstop : (methodMatch before indent gap m).stop =
      (before ++ (line ++ space) ++ m.header).length + 1 := by
    rw [stop_methodMatch, List.append_assoc before, hlead]
  have hslice : (methodMatch before indent gap m).span.slice t =
      line ++ space ++ (m.header ++ ['{']) := by
    have hspan : (methodMatch before indent gap m).span =
        ⟨before.length, (before ++ (line ++ space ++ (m.header ++ ['{']))).length⟩ := by
      rw [Match.span, hstop]
      simp [methodMatch]
      omega
    rw [hspan]
    refine Span.slice_eq ⟨m.body.text ++ '}' :: rest, ?_⟩
    simp [htext, MethodDeclaration.text, MethodDeclaration.block]
  have htake : (line ++ space ++ (m.header ++ ['{'])).takeWhile isBlank = line ++ space := by
    obtain ⟨c, hc, hword⟩ := m.exists_head?_header ['{']
    obtain ⟨letters, hletters⟩ := List.head?_eq_some_iff.1 hc
    rw [List.takeWhile_append_of_pos hblank, hletters,
      List.takeWhile_cons_of_neg (by simp [isBlank_eq_false_of_isWord hword]), List.append_nil]
  have hsince : (line ++ space).reverse.takeWhile (· ≠ '\n') = space.reverse := by
    have hreverse : ∀ c ∈ space.reverse, decide (c ≠ '\n') = true := by
      intro c hc
      rcases hspace c (List.mem_reverse.1 hc) with rfl | rfl <;> decide
    rw [List.reverse_append, List.takeWhile_append_of_pos hreverse]
    rcases hline with rfl | rfl
    · simp
    · simp
  have hblock : block? t ((methodMatch before indent gap m).stop - 1) =
      some ⟨(before ++ line ++ space ++ m.header).length,
        (before ++ line ++ space ++ m.text).length, true⟩ := by
    have hnil : '{' ∉ ([] : Text) := by simp
    have hlist : t = (before ++ (line ++ space) ++ m.header) ++ [] ++
        '{' :: (m.body.text ++ '}' :: rest) := by
      simp [htext, MethodDeclaration.text, MethodDeclaration.block]
    rw [hstop, Nat.add_sub_cancel, hlist, block?_eq_some m.body.balanced hnil]
    simp [MethodDeclaration.text, MethodDeclaration.block]
  have hstart : (methodMatch before indent gap m).start = before.length := rfl
  simp only [extent?, hslice, htake, hsince, hblock, hterminator, hstart, methodExtent]
  simp
  omega

/-! ### Records -/

/-- The scope of a class without documentation. -/
def Owner.scope (owner : Owner) : Scope := ⟨owner.path, owner.name, .classType, none⟩

/-- The line of an offset, from the text before it. -/
theorem Source.lineOf_eq {src : Source} {before rest : Text} (h : src.text = before ++ rest) :
    src.lineOf before.length = before.count '\n' + 1 := by
  rw [lineOf, h, List.take_left]

/-- The record of a method is made from the parts that the match of its header reports. -/
theorem ReadsMethod.record {src : Source} {s : Stretch} {owner : Owner} {m : MethodDeclaration}
    {h : Match HeaderPart} (hm : ReadsMethod s.text m h) {start before indent rest behind : Text}
    (hs : s.text = before ++ indent ++ m.text ++ rest) (hstart : s.start = start.length)
    (hsrc : src.text = start ++ s.text ++ behind) (hpackage : src.package = owner.package) :
    Method.record src (some owner.scope) s ⟨h, methodExtent before indent m⟩ =
      m.record owner indent (start ++ before ++ indent) := by
  have hfull : Span.slice ⟨before.length, (before ++ indent ++ m.text).length⟩ s.text =
      indent ++ m.text := by
    rw [List.append_assoc]
    refine Span.slice_eq ⟨rest, ?_⟩
    rw [hs]
    simp
  have hbody : Span.slice ⟨(before ++ indent ++ m.header).length,
      (before ++ indent ++ m.text).length⟩ s.text = m.block := by
    have hlist : before ++ indent ++ m.text = before ++ indent ++ m.header ++ m.block := by
      simp [MethodDeclaration.text]
    rw [hlist]
    exact Span.slice_eq ⟨rest, by rw [hs, hlist]⟩
  have hstartLine : src.lineOf (s.start + (before ++ indent).length) =
      (start ++ before ++ indent).count '\n' + 1 := by
    have hlist : src.text = (start ++ before ++ indent) ++ (m.text ++ rest ++ behind) := by
      simp [hsrc, hs]
    have hlength : s.start + (before ++ indent).length = (start ++ before ++ indent).length := by
      simp [hstart]
    rw [hlength, Source.lineOf_eq hlist]
  have hendLine : src.lineOf (s.start + (before ++ indent ++ m.text).length - 1) =
      (start ++ before ++ indent ++ m.text).count '\n' + 1 := by
    obtain ⟨front, hfront⟩ : ∃ front, m.text = front ++ ['}'] :=
      ⟨m.header ++ '{' :: m.body.text, by simp [MethodDeclaration.text, MethodDeclaration.block]⟩
    have hlist : src.text = (start ++ before ++ indent ++ front) ++ ('}' :: rest ++ behind) := by
      simp [hsrc, hs, hfront]
    have hlength : s.start + (before ++ indent ++ m.text).length - 1 =
        (start ++ before ++ indent ++ front).length := by
      rw [hstart, hfront]
      simp only [List.length_append, List.length_singleton]
      omega
    have hcount (t : Text) : (t ++ ['}']).count '\n' = t.count '\n' := by
      rw [List.count_append]
      rfl
    rw [hlength, Source.lineOf_eq hlist, hfront, ← List.append_assoc, hcount]
  have hdistinct : (distinct (m.modifiers.map String.toList)).map String.ofList = m.modifiers := by
    rw [distinct_eq_self (m.distinct.map fun _ _ => String.toList_injective), List.map_map]
    simp [Function.comp_def]
  have hdecorators : decorators s.text h = [] := by
    rw [decorators, hm.annotations, hm.inlineAnnotations]
    rfl
  simp only [Method.record, hm.name, hm.parameters, hm.returnType, hm.comments, hm.modifiers,
    hdecorators, methodExtent, Extent.bodyStart, Extent.hasBody, Option.map_some, Option.getD_some,
    hfull, hbody, hstartLine, hendLine, hdistinct, splitParameters_parametersText, hpackage]
  simp [MethodDeclaration.record, MethodDeclaration.call, parametersText, effectiveModifiers,
    Owner.scope, typeWords_text]

end Glossator.Java
