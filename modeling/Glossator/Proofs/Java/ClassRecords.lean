import Glossator.Proofs.Java.ClassMethods
import Glossator.Proofs.Java.Forest

/-!
# The records of class trees

From the text of a class tree just the methods of the tree are extracted: those of a class in order,
then those of each class nested in it.

* `Java.extract_text`: the records of a class tree are read back from its text.
-/

set_option autoImplicit false

namespace Glossator.Java

/-- The records of the methods of some types, type by type. -/
def recordsOf (src : Source) (types : List OpenType) : List FunctionRecord :=
  types.flatMap fun o =>
    (methods src (some o.scope) o.body).map (Method.record src (some o.scope) o.body)

/-- The records of a type declared in a stretch and of the types nested in it. -/
def typeRecords (src : Source) (outer : Option Text) (s : Stretch) (d : TypeDeclaration) :
    List FunctionRecord :=
  let scope := Scope.ofDeclaration outer d
  (methods src (some scope) (d.body s)).map (Method.record src (some scope) (d.body s)) ++
    recordsOf src (openTypes src (some scope.path) (d.body s))

theorem recordsOf_openTypes (src : Source) (outer : Option Text) (s : Stretch) :
    recordsOf src (openTypes src outer s) =
      (directTypes src s).flatMap (typeRecords src outer s) := by
  rw [openTypes_eq, recordsOf, List.flatMap_assoc]
  rfl

/-- The body of a class is what stands between its braces. -/
theorem body_classDeclaration {s : Stretch} {before gap inside rest : Text} {name : Identifier}
    (hs : s.text = before ++ classText gap name inside ++ rest) :
    (classDeclaration before gap name inside).body s =
      ⟨s.start + (before ++ classOpening gap name).length, inside⟩ := by
  have hinner : (classDeclaration before gap name inside).block.inner =
      ⟨(before ++ classOpening gap name).length,
        (before ++ classOpening gap name ++ inside).length⟩ := by
    simp [classDeclaration, Block.inner, classText, classOpening]
    omega
  have hslice : Span.slice ⟨(before ++ classOpening gap name).length,
      (before ++ classOpening gap name ++ inside).length⟩ s.text = inside := by
    refine Span.slice_eq ⟨'}' :: rest, ?_⟩
    simp [hs, classText]
  rw [TypeDeclaration.body, Stretch.within, hinner, hslice]

section

variable {src : Source} {owner : Owner} {s : Stretch} {layout : Layout} {depth : Nat}
  {start behind before rest : Text}

/-- The records of a class: those of its own methods, then those of the classes declared directly in
its body. -/
theorem typeRecords_class (hcomments : src.comments = []) (hpackage : src.package = owner.package)
    (hstart : s.start = start.length) (hsrc : src.text = start ++ s.text ++ behind)
    {gap : Text} {name : Identifier} (members : Members)
    (hs : s.text = before ++ classText gap name (members.inside layout depth) ++ rest)
    {outer : Option Text}
    (hscope : Scope.ofDeclaration outer (classDeclaration before gap name
      (members.inside layout depth)) = owner.scope) :
    typeRecords src outer s (classDeclaration before gap name (members.inside layout depth)) =
      members.ownRecords layout owner (depth + 1) (start ++ (before ++ classOpening gap name)) ++
        (members.directDeclarations layout (depth + 1) []).flatMap
          (typeRecords src (some owner.path) ⟨(start ++ (before ++ classOpening gap name)).length,
            members.inside layout depth⟩) := by
  have hbody : (classDeclaration before gap name (members.inside layout depth)).body s =
      ⟨(start ++ (before ++ classOpening gap name)).length, members.inside layout depth⟩ := by
    rw [body_classDeclaration hs, hstart, ← List.length_append]
  have hsource : src.text = start ++ (before ++ classOpening gap name) ++
      members.inside layout depth ++ ('}' :: rest ++ behind) := by
    simp [hsrc, hs, classText]
  have hown := records_members (s := ⟨(start ++ (before ++ classOpening gap name)).length,
    members.inside layout depth⟩) hcomments hpackage rfl hsource members rfl
  have hinside : ∀ c ∈ members.inside layout depth, isTreeChar c = true :=
    members.isTreeChar_inside layout depth
  have hdirect : directTypes src
      ⟨(start ++ (before ++ classOpening gap name)).length, members.inside layout depth⟩ =
        members.directDeclarations layout (depth + 1) [] :=
    directTypes_members hinside hcomments members rfl (layout.isBlank_newLine depth)
  rw [typeRecords, hscope, hbody, hown, recordsOf_openTypes, hdirect]
  rfl

/-- The records of the classes nested in a class, each with those of the classes nested in it. -/
theorem records_nested (hcomments : src.comments = []) (hpackage : src.package = owner.package)
    (hstart : s.start = start.length) (hsrc : src.text = start ++ s.text ++ behind) (ms : Members)
    (hs : s.text = before ++ ms.text layout depth ++ rest) :
    (ms.directDeclarations layout depth before).flatMap (typeRecords src (some owner.path) s) =
      ms.nestedRecords layout owner depth (start ++ before) := by
  induction ms generalizing owner s depth start behind before rest with
  | none => rfl
  | method m ms ih =>
    obtain ⟨-, hrest⟩ := Members.text_method hs
    rw [Members.directDeclarations, ih hpackage hstart hsrc hrest, Members.nestedRecords]
    simp only [List.append_assoc]
  | type name members ms ihMembers ih =>
    obtain ⟨hclass, -, -, hrest⟩ := Members.text_type hs
    have hsource : src.text = start ++ (before ++ classOpening (layout.newLine depth) name) ++
        members.inside layout depth ++ ('}' :: (ms.text layout depth ++ rest) ++ behind) := by
      simp [hsrc, hclass, classText]
    have hpackage' : src.package = (owner.nested name).package := hpackage
    have hnested : (members.directDeclarations layout (depth + 1) []).flatMap
        (typeRecords src (some (owner.nested name).path)
          ⟨(start ++ (before ++ classOpening (layout.newLine depth) name)).length,
            members.inside layout depth⟩) = _ :=
      ihMembers hpackage' rfl hsource (List.nil_append _).symm
    have hscope : Scope.ofDeclaration (some owner.path) (classDeclaration before
        (layout.newLine depth) name (members.inside layout depth)) =
          (owner.nested name).scope := rfl
    rw [Members.directDeclarations, List.flatMap_cons,
      typeRecords_class hcomments hpackage' hstart hsrc members hclass hscope, hnested,
      ih hpackage hstart hsrc hrest, Members.nestedRecords]
    simp only [List.append_assoc, List.append_nil]

end

/-- Where types are declared, the methods of a file are those found in the types. -/
theorem extract_eq_recordsOf {t : Text} (h : (typeHeaders (.ofText t) (.whole t)).isEmpty = false) :
    extract t = recordsOf (.ofText t) (openTypes (.ofText t) none (.whole t)) := by
  have hfindings : findings (.ofText t) = (openTypes (.ofText t) none (.whole t)).flatMap
      fun o => Finding.ofStretch (.ofText t) (some o.scope) o.body := by
    have htext : (Source.ofText t).text = t := rfl
    rw [findings, htext]
    simp only [h, Bool.false_eq_true, if_false]
  rw [extract, hfindings, List.map_flatMap, recordsOf]
  simp only [Finding.ofStretch, List.map_map]
  rfl

/-- From the text of a class tree just its methods are extracted, in the order of the tree. -/
theorem extract_text (tree : ClassTree) (layout : Layout) :
    extract (tree.text layout) =
      tree.records layout (Source.ofText (tree.text layout)).package := by
  have hcomments : (Source.ofText (tree.text layout)).comments = [] := by
    refine commentsFrom_eq_nil _ fun c hc => ?_
    have hopener := not_mem_openers_of_isTreeChar (tree.isTreeChar layout c hc)
    simp only [openers, List.mem_cons, not_or] at hopener
    tauto
  have hheaders : (typeHeaders (.ofText (tree.text layout))
      (.whole (tree.text layout))).isEmpty = false := by
    have hdeclarations := typeDeclarations_tree hcomments tree (s := .whole (tree.text layout)) rfl
    rw [List.isEmpty_eq_false_iff]
    intro hnil
    rw [typeDeclarations, hnil] at hdeclarations
    cases hdeclarations
  have hdirect := directTypes_tree hcomments tree (s := .whole (tree.text layout)) rfl
  have hsrc : (Source.ofText (tree.text layout)).text =
      [] ++ (Stretch.whole (tree.text layout)).text ++ [] := by
    rw [List.nil_append, List.append_nil]
    rfl
  -- the class of the tree stands behind nothing, its members behind its opening
  have hclass : (Stretch.whole (tree.text layout)).text =
      [] ++ classText [] tree.name (tree.members.inside layout 0) ++ layout.ending := rfl
  have hmembers : (Source.ofText (tree.text layout)).text =
      classOpening [] tree.name ++ tree.members.inside layout 0 ++ ('}' :: layout.ending) := by
    simp [Source.ofText, ClassTree.text, classText]
  have hpackage : (Source.ofText (tree.text layout)).package =
      (tree.owner (Source.ofText (tree.text layout)).package).package := rfl
  have hscope : Scope.ofDeclaration none
      (classDeclaration [] [] tree.name (tree.members.inside layout 0)) =
        (tree.owner (Source.ofText (tree.text layout)).package).scope := rfl
  have hinside : tree.members.inside layout 0 =
      [] ++ tree.members.text layout 1 ++ layout.newLine 0 := rfl
  have hnested := records_nested (s := ⟨(classOpening [] tree.name).length,
    tree.members.inside layout 0⟩) hcomments hpackage rfl hmembers tree.members hinside
  rw [extract_eq_recordsOf hheaders, recordsOf_openTypes, hdirect, List.flatMap_singleton,
    typeRecords_class hcomments hpackage rfl hsrc tree.members hclass hscope]
  simp only [List.nil_append]
  rw [hnested, List.append_nil]
  rfl

end Glossator.Java
