import Glossator.Proofs.Java.ReadHeader
import Glossator.Proofs.Text.Span

/-!
# The types declared in class trees

The search for types finds the classes of a class tree in the order of their headers, each with the
block that its braces delimit.

* `Java.typeDeclarationsFrom_members`: the types declared in the text of members.
* `Java.directTypes_members`: those of them that are declared directly.
-/

set_option autoImplicit false

namespace Glossator

section

variable {γ : Type} [DecidableEq γ] {m : Match γ} {label : γ} {before piece t : Text}

/-- The text of a part, where a piece of the text takes up its span. -/
theorem Match.text?_eq_some (h : m.span? label = some ⟨before.length, (before ++ piece).length⟩)
    (ht : before ++ piece <+: t) : m.text? t label = some piece := by
  rw [text?, h, Option.map_some, Span.slice_eq ht]

theorem Match.text_eq (h : m.span? label = some ⟨before.length, (before ++ piece).length⟩)
    (ht : before ++ piece <+: t) : m.text t label = piece := by
  rw [text, text?_eq_some h ht, Option.getD_some]

end

namespace Java

open Finder

theorem Source.isComment_eq_false {src : Source} (h : src.comments = []) (offset : Nat) :
    src.isComment offset = false := by
  rw [isComment, h]
  rfl

/-! ### One after another -/

/-- The types whose headers are found from a place on. -/
def typeDeclarationsFrom (src : Source) (s : Stretch) (offset : Nat) : List TypeDeclaration :=
  ((matchesFrom typeHeader s.text offset).filter (isTypeHeader src s)).filterMap
    (typeDeclaration? s)

/-- The declaration of a class that stands behind a text. -/
def classDeclaration (before gap : Text) (name : Identifier) (inside : Text) : TypeDeclaration where
  name := name.text
  kind := .classType
  description := none
  extent := ⟨before.length, (before ++ classText gap name inside).length⟩
  block := ⟨(before ++ gap ++ classHeader name ++ [' ']).length,
    (before ++ classText gap name inside).length, true⟩

section

variable {src : Source} {s : Stretch} {before piece gap inside rest : Text} {name : Identifier}

/-- A piece without keywords that ends with what is no word and no blank declares no types. -/
theorem typeDeclarationsFrom_passed (ht : ∀ c ∈ s.text, isTreeChar c = true)
    (hs : s.text = before ++ piece ++ rest) (hpiece : Keywordless piece) {z : Char}
    (hz : piece.getLast? = some z) (hword : isWord z = false) (hblank : isBlank z = false) :
    typeDeclarationsFrom src s before.length =
      typeDeclarationsFrom src s (before ++ piece).length := by
  rw [hs] at ht
  have hsame : matchesFrom typeHeader (before ++ piece ++ rest) before.length =
      matchesFrom typeHeader (before ++ piece ++ rest) (before ++ piece).length :=
    matchesFrom_eq_of_forall (by simp) (by simp) fun i hle hlt =>
      typeHeader_matchAt?_eq_none ht hpiece hz hword hblank hle hlt
  rw [typeDeclarationsFrom, typeDeclarationsFrom, hs, hsame]

theorem typeDeclarationsFrom_blanks (ht : ∀ c ∈ s.text, isTreeChar c = true)
    (hs : s.text = before ++ rest) (hrest : ∀ c ∈ rest, isBlank c = true) :
    typeDeclarationsFrom src s before.length = [] := by
  have hwords : ∀ c ∈ s.text.drop before.length, isWord c = false := by
    rw [hs, List.drop_left]
    exact fun c hc => isWord_eq_false_of_isBlank (hrest c hc)
  rw [typeDeclarationsFrom, matchesFrom_eq_nil]
  · rfl
  · exact fun i hle hlen => typeHeader_matchAt?_eq_none_of_blank ht hwords hle hlen

end

/-! ### Classes -/

section

variable {src : Source} {s : Stretch} {before gap inside rest : Text} {name : Identifier}

theorem stop_classMatch (before gap : Text) (name : Identifier) :
    (classMatch before gap name).stop = (before ++ gap ++ classHeader name).length := by
  have hkeyword : "class ".toList = "class".toList ++ [' '] := by decide
  rw [classMatch, classHeader, hkeyword]
  simp

theorem classMatch_comments (before gap : Text) (name : Identifier) :
    (classMatch before gap name).span? .comments =
      some ⟨before.length, (before ++ ([] : Text)).length⟩ := by
  rw [List.append_nil, classMatch, Match.span?, modifiersPart]
  split <;> rfl

variable (hs : s.text = before ++ classText gap name inside ++ rest)

include hs

theorem text_eq_of_class : s.text =
    before ++ (gap ++ (classHeader name ++ ' ' :: '{' :: (inside ++ '}' :: rest))) := by
  simp [hs, classText, classOpening]

theorem isTypeHeader_classMatch (hsrc : src.comments = []) :
    isTypeHeader src s (classMatch before gap name) = true := by
  have hdrop : s.text.drop (classMatch before gap name).stop =
      ' ' :: '{' :: (inside ++ '}' :: rest) := by
    rw [stop_classMatch, text_eq_of_class hs, ← List.append_assoc, ← List.append_assoc,
      List.drop_left]
  have hname : (classMatch before gap name).span? .name =
    some ⟨_, (classMatch before gap name).stop⟩ := rfl
  rw [isTypeHeader, hname, Option.any_some, Source.isComment_eq_false hsrc, hdrop]
  rfl

/-- The match of the header of a class opens the declaration of the class. -/
theorem typeDeclaration?_classMatch (hinside : openBraces? 0 inside = some 0) :
    typeDeclaration? s (classMatch before gap name) =
      some (classDeclaration before gap name inside) := by
  have hkeyword : "class ".toList = "class".toList ++ [' '] := by decide
  have hspace : '{' ∉ ([' '] : Text) := by decide
  have hblock : block? s.text (classMatch before gap name).stop =
      some (classDeclaration before gap name inside).block := by
    have hlist : s.text = (before ++ gap ++ classHeader name) ++ [' '] ++
        '{' :: (inside ++ '}' :: rest) := by simp [text_eq_of_class hs]
    rw [stop_classMatch, hlist, block?_eq_some hinside hspace]
    simp [classDeclaration, classText, classOpening]
  have hinitial : before ++ gap ++ "class".toList ++ [' '] ++ name.text <+: s.text :=
    ⟨' ' :: '{' :: (inside ++ '}' :: rest), by
      simp [text_eq_of_class hs, classHeader, hkeyword]⟩
  have hname : (classMatch before gap name).text s.text .name = name.text :=
    Match.text_eq rfl hinitial
  have hkind : (classMatch before gap name).text s.text .kind = "class".toList := by
    rw [List.append_assoc _ [' ']] at hinitial
    exact Match.text_eq rfl ((List.prefix_append _ _).trans hinitial)
  have hcomments : (classMatch before gap name).text? s.text .comments = some [] := by
    refine Match.text?_eq_some (classMatch_comments before gap name) ?_
    rw [List.append_nil, hs, List.append_assoc]
    exact List.prefix_append _ _
  rw [typeDeclaration?, hblock, hname, hkind, hcomments]
  rfl

/-- A class is declared where it stands, and the search goes on behind the brace that opens it. -/
theorem typeDeclarationsFrom_class (ht : ∀ c ∈ s.text, isTreeChar c = true)
    (hsrc : src.comments = []) (hgap : ∀ c ∈ gap, isBlank c = true)
    (hbefore : ∀ c ∈ (before ++ gap).getLast?, isWord c = false)
    (hinside : openBraces? 0 inside = some 0) :
    typeDeclarationsFrom src s before.length = classDeclaration before gap name inside ::
      typeDeclarationsFrom src s (before ++ classOpening gap name).length := by
  have hmatch : typeHeader.matchAt? s.text before.length = some (classMatch before gap name) := by
    rw [text_eq_of_class hs] at ht ⊢
    refine typeHeader_matchAt? ht hgap hbefore ?_
    intro c hc
    obtain rfl : ' ' = c := Option.some.inj hc
    decide
  have hlt : (classMatch before gap name).start < (classMatch before gap name).stop := by
    have hne := List.length_pos_iff.2 name.plainWord.ne_nil
    simp only [classMatch, List.length_append]
    omega
  have hmatches := matchesFrom_eq_cons (by simp [hs]) hmatch hlt
  rw [stop_classMatch] at hmatches
  have hlist : s.text = (before ++ gap ++ classHeader name) ++ [' ', '{'] ++
      (inside ++ '}' :: rest) := by simp [text_eq_of_class hs]
  have hbrace : Keywordless [' ', '{'] := .cons (by decide) (.cons (by decide) .nil)
  have hpassed : typeDeclarationsFrom src s _ = _ :=
    typeDeclarationsFrom_passed ht hlist hbrace rfl (by decide) (by decide)
  have hopening : before ++ classOpening gap name =
      before ++ gap ++ classHeader name ++ [' ', '{'] := by simp [classOpening]
  rw [hopening, ← hpassed, typeDeclarationsFrom, hmatches,
    List.filter_cons_of_pos (isTypeHeader_classMatch hs hsrc),
    List.filterMap_cons_some (typeDeclaration?_classMatch hs hinside)]
  rfl

end

/-! ### Members -/

/-- The types declared in the text of members that stands behind a text: each class, and then the
classes nested in it. -/
def Members.declarations (layout : Layout) (depth : Nat) (before : Text) :
    Members → List TypeDeclaration
  | none => []
  | method m rest => rest.declarations layout depth (before ++ (layout.newLine depth ++ m.text))
  | type name members rest =>
    let gap := layout.newLine depth
    classDeclaration before gap name (members.inside layout depth) ::
      (members.declarations layout (depth + 1) (before ++ classOpening gap name) ++
        rest.declarations layout depth (before ++ classText gap name (members.inside layout depth)))

/-- The types declared directly in the text of members that stands behind a text. -/
def Members.directDeclarations (layout : Layout) (depth : Nat) (before : Text) :
    Members → List TypeDeclaration
  | none => []
  | method m rest =>
    rest.directDeclarations layout depth (before ++ (layout.newLine depth ++ m.text))
  | type name members rest =>
    let gap := layout.newLine depth
    classDeclaration before gap name (members.inside layout depth) ::
      rest.directDeclarations layout depth
        (before ++ classText gap name (members.inside layout depth))

section

variable {layout : Layout} {depth : Nat} {before rest t : Text}

theorem MethodDeclaration.getLast?_text (m : MethodDeclaration) (gap : Text) :
    (gap ++ m.text).getLast? = some '}' := by
  have hlist : gap ++ m.text = (gap ++ (m.header ++ '{' :: m.body.text)) ++ ['}'] := by
    simp [text, block]
  rw [hlist, List.getLast?_concat]

theorem Layout.getLast?_newLine (layout : Layout) (depth : Nat) (before : Text) :
    ∀ c ∈ (before ++ layout.newLine depth).getLast?, isWord c = false := by
  intro c hc
  rw [List.getLast?_append_of_ne_nil _ (by simp [newLine])] at hc
  exact isWord_eq_false_of_isBlank (layout.isBlank_newLine depth c (List.mem_of_getLast? hc))

theorem Members.text_method {m : MethodDeclaration} {ms : Members}
    (ht : t = before ++ (method m ms).text layout depth ++ rest) :
    t = before ++ (layout.newLine depth ++ m.text) ++ (ms.text layout depth ++ rest) ∧
      t = before ++ (layout.newLine depth ++ m.text) ++ ms.text layout depth ++ rest := by
  simp [ht, text]

theorem Members.text_type {name : Identifier} {members ms : Members}
    (ht : t = before ++ (type name members ms).text layout depth ++ rest) :
    t = before ++ classText (layout.newLine depth) name (members.inside layout depth) ++
        (ms.text layout depth ++ rest) ∧
      t = before ++ classOpening (layout.newLine depth) name ++ members.text layout (depth + 1) ++
        (layout.newLine depth ++ '}' :: (ms.text layout depth ++ rest)) ∧
      t = before ++ classOpening (layout.newLine depth) name ++ members.text layout (depth + 1) ++
        (layout.newLine depth ++ ['}']) ++ (ms.text layout depth ++ rest) ∧
      t = before ++ classText (layout.newLine depth) name (members.inside layout depth) ++
        ms.text layout depth ++ rest := by
  simp [ht, text, inside, classText]

/-- A class ends behind its last line. -/
theorem classText_members (name : Identifier) (members : Members) :
    before ++ classOpening (layout.newLine depth) name ++ members.text layout (depth + 1) ++
        (layout.newLine depth ++ ['}']) =
      before ++ classText (layout.newLine depth) name (members.inside layout depth) := by
  simp [classText, Members.inside]

theorem Members.length_le_classText (members : Members) (layout : Layout) (depth : Nat)
    (before : Text) (name : Identifier) :
    (before ++ classOpening (layout.newLine depth) name ++ members.text layout (depth + 1)).length ≤
      (before ++ classText (layout.newLine depth) name (members.inside layout depth)).length := by
  rw [← classText_members]
  simp

theorem Members.append_text_method (layout : Layout) (depth : Nat) (before : Text)
    (m : MethodDeclaration) (ms : Members) :
    before ++ (layout.newLine depth ++ m.text) ++ ms.text layout depth =
      before ++ (method m ms).text layout depth := by
  simp [text]

theorem Members.append_text_type (layout : Layout) (depth : Nat) (before : Text)
    (name : Identifier) (members ms : Members) :
    before ++ classText (layout.newLine depth) name (members.inside layout depth) ++
      ms.text layout depth = before ++ (type name members ms).text layout depth := by
  simp [text, inside]

/-- The types whose headers are found from the start of members on: those that the members declare,
and those found behind them. -/
theorem typeDeclarationsFrom_members {src : Source} {s : Stretch}
    (ht : ∀ c ∈ s.text, isTreeChar c = true) (hsrc : src.comments = []) (ms : Members)
    (hs : s.text = before ++ ms.text layout depth ++ rest) :
    typeDeclarationsFrom src s before.length = ms.declarations layout depth before ++
      typeDeclarationsFrom src s (before ++ ms.text layout depth).length := by
  induction ms generalizing depth before rest with
  | none => simp [Members.declarations, Members.text]
  | method m ms ih =>
    obtain ⟨hmethod, hrest⟩ := Members.text_method hs
    have hpassed : typeDeclarationsFrom src s _ = _ := typeDeclarationsFrom_passed ht hmethod
      (.blanks_append (layout.isBlank_newLine depth) m.keywordless) (m.getLast?_text _) (by decide)
      (by decide)
    rw [hpassed, ih hrest, Members.declarations, Members.append_text_method]
  | type name members ms ihMembers ih =>
    obtain ⟨hclass, hmembers, hend, hrest⟩ := Members.text_type hs
    have hclosing : Keywordless (layout.newLine depth ++ ['}']) :=
      .blanks_append (layout.isBlank_newLine depth) (.cons (by decide) .nil)
    have hpassed : typeDeclarationsFrom src s _ = _ :=
      typeDeclarationsFrom_passed ht hend hclosing List.getLast?_concat (by decide) (by decide)
    rw [typeDeclarationsFrom_class hclass ht hsrc (layout.isBlank_newLine depth)
      (layout.getLast?_newLine depth before) (members.openBraces?_inside layout depth),
      ihMembers hmembers, hpassed, classText_members, ih hrest, Members.declarations,
      Members.append_text_type, List.cons_append, List.append_assoc]

/-- The types that members declare lie in the text of the members. -/
theorem Members.extent_of_mem (ms : Members) {d : TypeDeclaration}
    (h : d ∈ ms.declarations layout depth before) : before.length ≤ d.extent.start ∧
      d.extent.stop ≤ (before ++ ms.text layout depth).length ∧
      d.extent.start < d.extent.stop := by
  induction ms generalizing depth before with
  | none => cases h
  | method m ms ih =>
    obtain ⟨hstart, hstop, hlt⟩ := ih h
    simp only [text, List.length_append] at hstart hstop ⊢
    omega
  | type name members ms ihMembers ih =>
    rcases List.mem_cons.1 h with rfl | h
    · have hpos : 0 < (classText (layout.newLine depth) name
          (members.inside layout depth)).length := by simp [classText]
      simp only [classDeclaration, text, inside, List.length_append] at hpos ⊢
      omega
    · rcases List.mem_append.1 h with h | h
      · obtain ⟨hstart, hstop, hlt⟩ := ihMembers h
        simp only [text, classText, List.length_append] at hstart hstop ⊢
        omega
      · obtain ⟨hstart, hstop, hlt⟩ := ih h
        simp only [text, inside, List.length_append] at hstart hstop ⊢
        omega

/-- Types that start in what is covered are left out. -/
theorem outermost_append_of_covered {covered : List Span} {ds ds' : List TypeDeclaration}
    (h : ∀ d ∈ ds, covered.any (·.contains d.extent.start) = true) :
    outermost covered (ds ++ ds') = outermost covered ds' := by
  induction ds with
  | nil => rfl
  | cons d ds ih =>
    rw [List.cons_append, outermost, if_pos (h d List.mem_cons_self)]
    exact ih fun e he => h e (List.mem_cons_of_mem d he)

/-- The classes nested in a member are left out, the member itself is not. -/
theorem Members.outermost_declarations (ms : Members) {covered : List Span}
    (hcovered : ∀ c ∈ covered, c.stop ≤ before.length) :
    outermost covered (ms.declarations layout depth before) =
      ms.directDeclarations layout depth before := by
  induction ms generalizing depth before covered with
  | none => rfl
  | method m ms ih =>
    refine ih fun c hc => (hcovered c hc).trans ?_
    simp
  | type name members ms ihMembers ih =>
    have houtside : covered.any (·.contains before.length) = false := by
      rw [List.any_eq_false]
      intro c hc hcontains
      have hstop := hcovered c hc
      have hlt := (Span.contains_iff.1 hcontains).2
      omega
    have hinner : ∀ d ∈ members.declarations layout (depth + 1)
        (before ++ classOpening (layout.newLine depth) name),
        ((⟨before.length, (before ++ classText (layout.newLine depth) name
          (members.inside layout depth)).length⟩ : Span) :: covered).any
            (·.contains d.extent.start) = true := by
      intro d hd
      obtain ⟨hstart, hstop, hlt⟩ := members.extent_of_mem hd
      refine List.any_eq_true.2 ⟨_, List.mem_cons_self, Span.contains_iff.2 ?_⟩
      simp only [classText, inside, List.length_append] at hstart hstop ⊢
      omega
    have hnext : ∀ c ∈ (⟨before.length, (before ++ classText (layout.newLine depth) name
        (members.inside layout depth)).length⟩ : Span) :: covered,
        c.stop ≤ (before ++ classText (layout.newLine depth) name
          (members.inside layout depth)).length := by
      intro c hc
      rcases List.mem_cons.1 hc with rfl | hc
      · exact le_rfl
      · exact (hcovered c hc).trans (by simp)
    rw [declarations, directDeclarations, outermost, classDeclaration, houtside,
      if_neg Bool.false_ne_true, outermost_append_of_covered hinner, ih hnext]

/-- The types declared in the body of a class. -/
theorem typeDeclarations_members {src : Source} {s : Stretch}
    (ht : ∀ c ∈ s.text, isTreeChar c = true) (hsrc : src.comments = []) (ms : Members)
    (hs : s.text = ms.text layout depth ++ rest) (hrest : ∀ c ∈ rest, isBlank c = true) :
    typeDeclarations src s = ms.declarations layout depth [] := by
  have hmembers : typeDeclarationsFrom src s ([] : Text).length = _ :=
    typeDeclarationsFrom_members ht hsrc ms hs
  have hblanks : typeDeclarationsFrom src s _ = _ := typeDeclarationsFrom_blanks ht hs hrest
  rw [List.nil_append, hblanks, List.append_nil] at hmembers
  exact hmembers

/-- The types declared directly in the body of a class. -/
theorem directTypes_members {src : Source} {s : Stretch}
    (ht : ∀ c ∈ s.text, isTreeChar c = true) (hsrc : src.comments = []) (ms : Members)
    (hs : s.text = ms.text layout depth ++ rest) (hrest : ∀ c ∈ rest, isBlank c = true) :
    directTypes src s = ms.directDeclarations layout depth [] := by
  rw [directTypes, typeDeclarations_members ht hsrc ms hs hrest]
  exact ms.outermost_declarations (List.forall_mem_nil _)

/-- The types declared in a class tree: its class, then the classes nested in it. -/
theorem typeDeclarations_tree {src : Source} {s : Stretch} (hsrc : src.comments = [])
    (tree : ClassTree) (hs : s.text = tree.text layout) : typeDeclarations src s =
      classDeclaration [] [] tree.name (tree.members.inside layout 0) ::
        tree.members.declarations layout 1 (classOpening [] tree.name) := by
  have ht : ∀ c ∈ s.text, isTreeChar c = true := by
    rw [hs]
    exact tree.isTreeChar layout
  have hlast : ∀ c ∈ (([] : Text) ++ []).getLast?, isWord c = false := by
    intro c hc
    cases hc
  have hmembers : s.text = classOpening [] tree.name ++ tree.members.text layout 1 ++
      (layout.newLine 0 ++ '}' :: layout.ending) := by
    simp [hs, ClassTree.text, classText, Members.inside]
  have hend : s.text = classOpening [] tree.name ++ tree.members.text layout 1 ++
      (layout.newLine 0 ++ ['}']) ++ layout.ending := by simp [hmembers]
  have hclosing : Keywordless (layout.newLine 0 ++ ['}']) :=
    .blanks_append (layout.isBlank_newLine 0) (.cons (by decide) .nil)
  have hclass : typeDeclarationsFrom src s ([] : Text).length = _ :=
    typeDeclarationsFrom_class hs ht hsrc (List.forall_mem_nil _) hlast
      (tree.members.openBraces?_inside layout 0)
  rw [List.nil_append, typeDeclarationsFrom_members ht hsrc tree.members hmembers,
    typeDeclarationsFrom_passed ht hend hclosing List.getLast?_concat (by decide) (by decide),
    typeDeclarationsFrom_blanks ht hend layout.ending_blank, List.append_nil] at hclass
  exact hclass

/-- Of the types declared in a class tree only its class is declared directly. -/
theorem directTypes_tree {src : Source} {s : Stretch} (hsrc : src.comments = [])
    (tree : ClassTree) (hs : s.text = tree.text layout) : directTypes src s =
      [classDeclaration [] [] tree.name (tree.members.inside layout 0)] := by
  have hinner : ∀ d ∈ tree.members.declarations layout 1 (classOpening [] tree.name),
      [(classDeclaration [] [] tree.name (tree.members.inside layout 0)).extent].any
        (·.contains d.extent.start) = true := by
    intro d hd
    obtain ⟨hstart, hstop, hlt⟩ := tree.members.extent_of_mem hd
    refine List.any_eq_true.2 ⟨_, List.mem_cons_self, Span.contains_iff.2 ?_⟩
    simp only [classDeclaration, classText, Members.inside, List.length_append, List.length_nil,
      Nat.zero_add] at hstart hstop ⊢
    omega
  rw [directTypes, typeDeclarations_tree hsrc tree hs, outermost, List.any_nil,
    if_neg Bool.false_ne_true, ← List.append_nil (Members.declarations _ _ _ _),
    outermost_append_of_covered hinner, outermost]

end

end Java

end Glossator
