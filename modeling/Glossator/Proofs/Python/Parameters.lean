import Glossator.Proofs.Python.Docstring
import Glossator.Proofs.Python.ParameterShape
import Glossator.Proofs.Text.Trim

/-!
# What records show of parameters

A record shows a parameter as its stars, its name and its annotation, in the order of the source
and without defaults. Comments between parameters are left out. What stands between stars and a
name, however, is shown in place of the name, a joined line between parameters is shown like a
parameter, and comments within a name or an annotation are shown with it.

* `Python.Writes`: a parameter or separator as it is written.
* `Python.parameter?_of_writes`: what is shown of it.
* `Python.parameters_spec`: what a record shows of a parameter list, and when these are the
  parameters as they are written.
-/

set_option autoImplicit false

namespace Glossator.Python

open Grammar (Shows)

variable {t : Text} {a b c d m n : Tree}

/-! ### Parameters as they are written -/

/-- A parameter or separator: its marker, what stands behind it, its name and its annotation. -/
structure Parameter where
  /-- The stars before the name, or the sign of a separator. -/
  marker : Text
  /-- What stands between the stars and the name. -/
  between : List Tree
  name : Option Tree
  annotation : Option Tree

namespace Parameter

/-- The node that is shown as the name. -/
def shownName (p : Parameter) : Option Tree := p.between.head?.or p.name

/-- The marker with a node behind it. -/
def marked (t : Text) (p : Parameter) (name : Option Tree) : Text :=
  p.marker ++ (name.map fun n => Text.trim (n.text t)).getD []

/-- The annotation, with the colon before it. -/
def note (t : Text) (p : Parameter) : Text :=
  (p.annotation.map fun type => ':' :: ' ' :: Text.trim (type.text t)).getD []

/-- Marker, name and annotation. -/
def written (t : Text) (p : Parameter) : Text := p.marked t p.name ++ p.note t

/-- Marker, what is taken for the name, and annotation. -/
def shown (t : Text) (p : Parameter) : Text := p.marked t p.shownName ++ p.note t

end Parameter

/-- The node is a parameter or separator that is written so. -/
inductive Writes (t : Text) : Tree → Parameter → Prop where
  | name {n : Tree} : n.kind ∈ nameKinds → Writes t n ⟨[], [], some n, none⟩
  | separator {n : Tree} : n.kind = "positional_separator" ∨ n.kind = "keyword_separator" →
      Writes t n ⟨n.text t, [], none, none⟩
  | starred {n name : Tree} {stars : Text} {between : List Tree} :
      n.kind = "list_splat_pattern" ∧ stars = ['*'] ∨
        n.kind = "dictionary_splat_pattern" ∧ stars = ['*', '*'] →
      Starred t n stars between name → Writes t n ⟨stars, between, some name, none⟩
  | typed {n target type : Tree} {p : Parameter} : n.kind = "typed_parameter" →
      n.children.head? = some target → target.info.named = true → target.kind ∈ targetKinds →
      n.child? "type" = some type → Writes t target p →
      Writes t n { p with annotation := some type }
  | default {n name : Tree} : n.kind = "default_parameter" → n.child? "name" = some name →
      name.kind ∈ nameKinds → Writes t n ⟨[], [], some name, none⟩
  | typedDefault {n name type : Tree} : n.kind = "typed_default_parameter" →
      n.child? "name" = some name → name.kind = "identifier" → n.child? "type" = some type →
      Writes t n ⟨[], [], some name, some type⟩

/-- What stands in a parameter list besides comments. -/
inductive Item where
  | joined (line : Tree)
  | parameter (p : Parameter)

namespace Item

/-- The parameter, unless it is a joined line. -/
def parameter? : Item → Option Parameter
  | joined _ => none
  | parameter p => some p

/-- What is shown of it. -/
def shown (t : Text) : Item → Text
  | joined line => Text.trim (line.text t)
  | parameter p => p.shown t

/-- The nodes whose text is shown. -/
def sources : Item → List Tree
  | joined line => [line]
  | parameter p => p.shownName.toList ++ p.annotation.toList

/-- A parameter with its name right behind its stars, and without comments in it. -/
def IsClear : Item → Prop
  | joined _ => False
  | parameter p => p.between = [] ∧ ∀ piece ∈ p.name.toList ++ p.annotation.toList,
      ∀ c, Tree.IsNodeOf c piece → c.isComment = false

end Item

/-- What the node is in a parameter list. -/
inductive IsItem (t : Text) : Tree → Item → Prop where
  | joined {n : Tree} : n.kind = "line_continuation" → IsItem t n (.joined n)
  | parameter {n : Tree} {p : Parameter} : Writes t n p → IsItem t n (.parameter p)

/-- The default values in a parameter list. -/
def defaults (list : Tree) : List Tree :=
  (list.children.filter fun n =>
    n.kind == "default_parameter" || n.kind == "typed_default_parameter").flatMap fun n =>
      n.children.filter fun c => c.info.role == some "value"

/-- The parameters are shown as they are written, and no comment is shown. -/
structure ShowsWritten (t : Text) (list : Tree) (items : List Item) (shown : List Text) : Prop where
  shown_eq : shown = (items.filterMap Item.parameter?).map (Parameter.written t)
  comments : ∀ item ∈ items, ∀ piece ∈ item.sources, ∀ c, Tree.IsNodeOf c list →
    c.isComment = true → Beside piece c

/-! ### What is shown of a parameter -/

theorem splatText_of_starred {stars : Text} {between : List Tree}
    (hkind : n.kind = "list_splat_pattern" ∧ stars = ['*'] ∨
      n.kind = "dictionary_splat_pattern" ∧ stars = ['*', '*']) (h : Starred t n stars between a) :
    splatText t n = (⟨stars, between, some a, none⟩ : Parameter).marked t
      (between.head?.or (some a)) := by
  obtain ⟨star, hchildren, hstar, -⟩ := h.parts
  have hbetween : between.filter (fun c => c.info.named) = between :=
    List.filter_eq_self.2 fun c hc => (h.between c hc).named
  have hnamed : n.namedChildren = between ++ [a] := by
    rw [Tree.namedChildren, hchildren, List.filter_cons_of_neg (by simp [hstar]),
      List.filter_append, hbetween]
    simp [h.named]
  have hhead : n.namedChildren.head? = between.head?.or (some a) := by
    rw [hnamed, List.head?_append]
    rfl
  rw [splatText, hhead]
  cases hshown : between.head?.or (some a) with
  | none => simp at hshown
  | some shown =>
    rcases hkind with ⟨hkind, rfl⟩ | ⟨hkind, rfl⟩ <;> simp [hkind, Parameter.marked]

/-- What can be annotated is shown with its stars. -/
theorem parameterTarget_of_writes {p : Parameter} (h : Writes t n p)
    (hkind : n.kind ∈ targetKinds) :
    parameterTarget t n = p.marked t p.shownName ∧ p.annotation = none := by
  have hcases : n.kind = "identifier" ∨ n.kind = "list_splat_pattern" ∨
      n.kind = "dictionary_splat_pattern" := by simpa [targetKinds] using hkind
  cases h with
  | name hname =>
    have hplain : ¬ (n.kind = "list_splat_pattern" ∨ n.kind = "dictionary_splat_pattern") := by
      rintro (hsplat | hsplat)
      all_goals
        rw [hsplat] at hname
        exact absurd hname (by decide)
    refine ⟨?_, rfl⟩
    rw [parameterTarget, if_neg (by simpa using hplain)]
    rfl
  | separator hsign =>
    rcases hsign with hsign | hsign <;> simp [hsign] at hcases
  | starred hstars hstarred =>
    have hsplat : n.kind = "list_splat_pattern" ∨ n.kind = "dictionary_splat_pattern" :=
      hstars.imp And.left And.left
    refine ⟨?_, rfl⟩
    rw [parameterTarget, if_pos (by simpa using hsplat), splatText_of_starred hstars hstarred]
    rfl
  | typed htyped => simp [htyped] at hcases
  | default hdefault => simp [hdefault] at hcases
  | typedDefault hdefault => simp [hdefault] at hcases

/-- A name is shown as it is written. -/
theorem trim_of_name {u : Text} (h : Token.name? u = some []) : Text.trim u = u := by
  have hblank := Token.isBlank_eq_false_of_name? h
  have htrim : Text.trim ([] ++ (u ++ [])) = u := Text.trim_eq (by simp) (by simp)
    (fun c hc => hblank c (List.mem_of_head? hc)) fun c hc => hblank c (List.mem_of_getLast? hc)
  simpa using htrim

/-- A name before a default is shown as it is written. -/
theorem parameterTarget_of_name (h : n.kind ∈ nameKinds) :
    parameterTarget t n = Text.trim (n.text t) := by
  rw [parameterTarget, if_neg]
  simp only [nameKinds, List.mem_cons, List.not_mem_nil, or_false] at h
  rcases h with h | h <;> simp [h]

/-- What is shown of a parameter. -/
theorem parameter?_of_writes {p : Parameter} (hn : n.Every (Shows grammar (lexicon t)))
    (h : Writes t n p) : parameter? t n = some (p.shown t) := by
  cases h with
  | name hname =>
    simp only [nameKinds, List.mem_cons, List.not_mem_nil, or_false] at hname
    rcases hname with hkind | hkind
    · simp [parameter?, hkind, Parameter.shown, Parameter.shownName, Parameter.marked,
        Parameter.note, trim_of_name (name?_of_shows hn.here hkind)]
    · simp [parameter?, hkind, Parameter.shown, Parameter.shownName, Parameter.marked,
        Parameter.note]
  | separator hsign =>
    have hshown : (⟨n.text t, [], none, none⟩ : Parameter).shown t = n.text t := by
      simp [Parameter.shown, Parameter.shownName, Parameter.marked, Parameter.note]
    rcases hsign with hkind | hkind
    · have htext : n.text t = "/".toList := text_of_sign hn.here (by rw [hkind]; decide)
        (by rw [hkind]; simp [parameterForms])
      rw [hshown, htext]
      simp [parameter?, hkind]
    · have htext : n.text t = "*".toList := text_of_sign hn.here (by rw [hkind]; decide)
        (by rw [hkind]; simp [parameterForms])
      rw [hshown, htext]
      simp [parameter?, hkind]
  | @starred _ name stars between hstars hstarred =>
    have hshown : (⟨stars, between, some name, none⟩ : Parameter).shown t = splatText t n := by
      rw [splatText_of_starred hstars hstarred]
      exact List.append_nil _
    rcases hstars with ⟨hkind, -⟩ | ⟨hkind, -⟩ <;> simp [parameter?, hkind, hshown]
  | @typed _ target type p hkind hhead hnamed htarget htype hwrites =>
    obtain ⟨htext, -⟩ := parameterTarget_of_writes hwrites htarget
    obtain ⟨rest, hrest⟩ := List.head?_eq_some_iff.1 hhead
    have hfirst : n.namedChildren.head? = some target := by
      rw [Tree.namedChildren, hrest, List.filter_cons_of_pos (by simpa using hnamed),
        List.head?_cons]
    simp [parameter?, hkind, hfirst, htype, htext, annotated, Parameter.shown, Parameter.note,
      Parameter.marked, Parameter.shownName]
  | default hkind hname hnameKind =>
    simp [parameter?, hkind, hname, parameterTarget_of_name hnameKind, Parameter.shown,
      Parameter.note, Parameter.marked, Parameter.shownName]
  | @typedDefault _ name type hkind hname hnameKind htype =>
    have htarget : parameterTarget t name = Text.trim (name.text t) :=
      parameterTarget_of_name (by rw [hnameKind]; decide)
    simp [parameter?, hkind, hname, htype, htarget, annotated, Parameter.shown, Parameter.note,
      Parameter.marked, Parameter.shownName]

/-! ### Every parameter is written in one of the ways -/

theorem exists_writes_starred (hn : Shows grammar (lexicon t) n)
    (hkind : n.kind = "list_splat_pattern" ∨ n.kind = "dictionary_splat_pattern") :
    ∃ p, Writes t n p := by
  rcases hkind with hkind | hkind
  · obtain ⟨between, name, hstarred⟩ : ∃ between name, Starred t n "*".toList between name :=
      starred_of_shows hn (by rw [hkind]; decide) (by rw [hkind]; simp [parameterForms])
    exact ⟨_, .starred (.inl ⟨hkind, by simp⟩) hstarred⟩
  · obtain ⟨between, name, hstarred⟩ : ∃ between name, Starred t n "**".toList between name :=
      starred_of_shows hn (by rw [hkind]; decide) (by rw [hkind]; simp [parameterForms])
    exact ⟨_, .starred (.inr ⟨hkind, by simp⟩) hstarred⟩

theorem exists_writes_target (hn : Shows grammar (lexicon t) n) (hkind : n.kind ∈ targetKinds) :
    ∃ p, Writes t n p := by
  simp only [targetKinds, List.mem_cons, List.not_mem_nil, or_false] at hkind
  rcases hkind with hkind | hkind
  · exact ⟨_, .name (by rw [hkind]; decide)⟩
  · exact exists_writes_starred hn hkind

theorem exists_writes_typed (hn : n.Every (Shows grammar (lexicon t)))
    (hkind : n.kind = "typed_parameter") : ∃ p, Writes t n p := by
  obtain ⟨steps, parts, -, hmade, -, hchildren, -⟩ :=
    exists_madeOf_of_parameter hn.here (by rw [hkind]; decide)
  have hform : isTyped steps = true :=
    parameterForm_of_kind (by rw [hkind]; simp [parameterForms]) hmade
  simp only [isTyped, Bool.and_eq_true, Option.any_eq_true, List.contains_iff_mem] at hform
  obtain ⟨⟨s, hs, hnamed, kind, hshown, htarget⟩, htype⟩ := hform
  obtain ⟨rest, rfl⟩ := List.head?_eq_some_iff.1 hs
  obtain ⟨target, hhead, htargetKind, htargetNamed⟩ := exists_head hmade hchildren hshown
  obtain ⟨type, htypeChild, -, -⟩ := exists_child hmade hchildren htype
  have hmem : target ∈ n.children := List.mem_of_head? hhead
  rw [← htargetKind] at htarget
  obtain ⟨p, hp⟩ := exists_writes_target (hn.child hmem).here htarget
  exact ⟨_, .typed hkind hhead (htargetNamed.trans hnamed) htarget htypeChild hp⟩

theorem exists_writes_default (hn : Shows grammar (lexicon t) n)
    (hkind : n.kind = "default_parameter") : ∃ p, Writes t n p := by
  obtain ⟨steps, parts, -, hmade, -, hchildren, -⟩ :=
    exists_madeOf_of_parameter hn (by rw [hkind]; decide)
  have hform : showsChild "name" nameKinds steps = true :=
    parameterForm_of_kind (by rw [hkind]; simp [parameterForms]) hmade
  obtain ⟨name, hname, hnameKind, -⟩ := exists_child hmade hchildren hform
  exact ⟨_, .default hkind hname hnameKind⟩

theorem exists_writes_typedDefault (hn : Shows grammar (lexicon t) n)
    (hkind : n.kind = "typed_default_parameter") : ∃ p, Writes t n p := by
  obtain ⟨steps, parts, -, hmade, -, hchildren, -⟩ :=
    exists_madeOf_of_parameter hn (by rw [hkind]; decide)
  have hform : isTypedDefault steps = true :=
    parameterForm_of_kind (by rw [hkind]; simp [parameterForms]) hmade
  obtain ⟨hnameForm, htypeForm⟩ := Bool.and_eq_true_iff.1 hform
  obtain ⟨name, hname, hnameKind, -⟩ := exists_child hmade hchildren hnameForm
  obtain ⟨type, htype, -, -⟩ := exists_child hmade hchildren htypeForm
  exact ⟨_, .typedDefault hkind hname (List.mem_singleton.1 hnameKind) htype⟩

theorem exists_writes (hn : n.Every (Shows grammar (lexicon t))) (hkind : n.kind ∈ entryKinds) :
    ∃ p, Writes t n p := by
  simp only [entryKinds, List.mem_cons, List.not_mem_nil, or_false] at hkind
  rcases hkind with hkind | hkind | hkind | hkind | hkind | hkind | hkind | hkind | hkind
  · exact ⟨_, .name (by rw [hkind]; decide)⟩
  · exact exists_writes_typed hn hkind
  · exact exists_writes_default hn.here hkind
  · exact exists_writes_typedDefault hn.here hkind
  · exact exists_writes_starred hn.here (.inl hkind)
  · exact ⟨_, .name (by rw [hkind]; decide)⟩
  · exact ⟨_, .separator (.inr hkind)⟩
  · exact ⟨_, .separator (.inl hkind)⟩
  · exact exists_writes_starred hn.here (.inr hkind)

/-- Whatever is named in a parameter list and is no comment is shown. -/
theorem exists_item (hn : n.Every (Shows grammar (lexicon t))) (hentry : IsEntry n)
    (hnamed : n.info.named = true) (hcomment : n.isComment = false) :
    ∃ i, IsItem t n i ∧ parameter? t n = some (i.shown t) := by
  rcases hentry hnamed with hloose | hkind
  · have hline : n.kind = "line_continuation" := by
      have hne : n.kind ≠ "comment" := by simpa [Tree.isComment] using hcomment
      simpa [looseKinds, hne] using hloose
    exact ⟨_, .joined hline, by simp [parameter?, hline, Item.shown]⟩
  · obtain ⟨p, hp⟩ := exists_writes hn hkind
    exact ⟨_, .parameter hp, parameter?_of_writes hn hp⟩

/-- The items of some nodes of a list, with what is shown of them. -/
theorem exists_items {nodes : List Tree}
    (h : ∀ c ∈ nodes, ∃ i, IsItem t c i ∧ parameter? t c = some (i.shown t)) :
    ∃ items, List.Forall₂ (IsItem t) nodes items ∧
      nodes.filterMap (parameter? t) = items.map (Item.shown t) := by
  induction nodes with
  | nil => exact ⟨[], .nil, rfl⟩
  | cons c nodes ih =>
    obtain ⟨i, hi, hshown⟩ := h c List.mem_cons_self
    obtain ⟨items, hitems, hall⟩ := ih fun d hd => h d (List.mem_cons_of_mem c hd)
    refine ⟨i :: items, .cons hi hitems, ?_⟩
    rw [List.filterMap_cons_some hshown, hall, List.map_cons]

/-- Comments in a parameter list are not shown. -/
theorem filterMap_parameter? (nodes : List Tree) :
    (nodes.filter fun c => !c.isComment).filterMap (parameter? t) =
      nodes.filterMap (parameter? t) := by
  rw [List.filterMap_filter]
  congr 1
  funext c
  by_cases hkind : c.kind = "comment"
  · simp [Tree.isComment, parameter?, hkind]
  · simp [Tree.isComment, hkind]

/-! ### Where parameters stand -/

/-- The nodes of a parameter stand within it. -/
theorem Writes.isNodeOf {p : Parameter} (h : Writes t n p) :
    ∀ piece ∈ p.between ++ (p.name.toList ++ p.annotation.toList), Tree.IsNodeOf piece n := by
  have hchild {m c : Tree} {role : String} (hc : m.child? role = some c) : Tree.IsNodeOf c m :=
    .of_mem (mem_children_of_child? hc)
  induction h with
  | name => simpa using Tree.IsNodeOf.root _
  | separator => simp
  | @starred n name stars between _ hstarred =>
    obtain ⟨star, hchildren, -⟩ := hstarred.parts
    intro piece hpiece
    refine .of_mem ?_
    rw [hchildren]
    exact List.mem_cons_of_mem _ (by simpa using hpiece)
  | @typed n target type p _ hhead _ _ htype _ ih =>
    intro piece hpiece
    have hsplit : piece ∈ p.between ++ (p.name.toList ++ p.annotation.toList) ∨ piece = type := by
      simp only [List.mem_append, Option.toList_some, List.mem_singleton] at hpiece ⊢
      tauto
    rcases hsplit with hpiece | rfl
    · exact (ih piece hpiece).trans (.of_mem (List.mem_of_head? hhead))
    · exact hchild htype
  | default _ hname _ => simpa using hchild hname
  | typedDefault _ hname _ htype => simpa using ⟨hchild hname, hchild htype⟩

theorem Parameter.sources_subset (p : Parameter) :
    ∀ piece ∈ p.shownName.toList ++ p.annotation.toList,
      piece ∈ p.between ++ (p.name.toList ++ p.annotation.toList) := by
  intro piece hpiece
  unfold shownName at hpiece
  cases hbetween : p.between with
  | nil => simpa [hbetween] using hpiece
  | cons first rest =>
    simp only [hbetween, List.head?_cons, Option.some_or, List.mem_append, Option.toList_some,
      List.mem_singleton] at hpiece
    rcases hpiece with rfl | hpiece
    · simp
    · simp [Option.mem_toList.1 hpiece]

theorem IsItem.isNodeOf {i : Item} (h : IsItem t n i) :
    ∀ piece ∈ i.sources, Tree.IsNodeOf piece n := by
  cases h with
  | joined => simpa [Item.sources] using Tree.IsNodeOf.root n
  | @parameter p hp => exact fun piece hpiece => hp.isNodeOf piece (p.sources_subset piece hpiece)

/-- Children in different roles are beside each other. -/
theorem beside_of_role (hplaced : Tree.Placed t n) {role other : String}
    (hc : n.child? role = some c) (hd : d ∈ n.children) (hrole : d.info.role = some other)
    (hne : role ≠ other) : Beside c d := by
  refine (eq_or_beside hplaced (mem_children_of_child? hc) hd).resolve_left ?_
  rintro rfl
  have hown : c.info.role = some role := by simpa using List.find?_some hc
  exact hne (Option.some.inj (hown.symm.trans hrole))

/-- No text of a default value is shown. -/
theorem beside_of_mem_defaults {list : Tree} (hplaced : list.Every (Tree.Placed t))
    (hn : n ∈ list.children) {i : Item} (hi : IsItem t n i) :
    ∀ piece ∈ i.sources, ∀ v ∈ defaults list, Beside piece v := by
  intro piece hpiece v hv
  obtain ⟨m, hm, hv⟩ := List.mem_flatMap.1 hv
  obtain ⟨hm, hkind⟩ := List.mem_filter.1 hm
  obtain ⟨hv, hrole⟩ := List.mem_filter.1 hv
  simp only [Bool.or_eq_true, beq_iff_eq] at hkind hrole
  rcases eq_or_beside hplaced.here hn hm with rfl | hbeside
  · -- a parameter and its own default
    have hhere := (hplaced.child hn).here
    cases hi with
    | joined hline => simp [hline] at hkind
    | parameter hwrites =>
      cases hwrites with
      | name hname => rcases hkind with hkind | hkind <;> simp [hkind, nameKinds] at hname
      | separator hsign => rcases hsign with hsign | hsign <;> simp [hsign] at hkind
      | starred hstars => rcases hstars with ⟨hstars, -⟩ | ⟨hstars, -⟩ <;> simp [hstars] at hkind
      | typed htyped => simp [htyped] at hkind
      | default _ hname _ =>
        obtain rfl : piece = _ := by simpa [Item.sources, Parameter.shownName] using hpiece
        exact beside_of_role hhere hname hv hrole (by decide)
      | @typedDefault _ name type _ hname _ htype =>
        have hpieces : piece = name ∨ piece = type := by
          simpa [Item.sources, Parameter.shownName] using hpiece
        rcases hpieces with rfl | rfl
        · exact beside_of_role hhere hname hv hrole (by decide)
        · exact beside_of_role hhere htype hv hrole (by decide)
  · exact hbeside.within (hplaced.child hn) (hplaced.child hm) (hi.isNodeOf piece hpiece)
      (.of_mem hv)

/-! ### Parameters that are shown as they are written -/

/-- The name of a parameter and what stands before it start differently. -/
theorem Writes.opening {p : Parameter} (h : Writes t n p) :
    p.between = [] ∨ ∃ name c, p.name = some name ∧ (name.text t).head? = some c ∧
      Token.isOpening c = true ∧ ∀ b ∈ p.between, IsLoose t b := by
  induction h with
  | name => exact .inl rfl
  | separator => exact .inl rfl
  | starred _ hstarred =>
    obtain ⟨c, hc, hopening⟩ := hstarred.opening
    exact .inr ⟨_, c, rfl, hc, hopening, hstarred.between⟩
  | typed _ _ _ _ _ _ ih => exact ih
  | default => exact .inl rfl
  | typedDefault => exact .inl rfl

/-- Trimming keeps a first character that is not blank. -/
theorem head?_trim {u : Text} {c : Char} (hc : u.head? = some c) (hblank : isBlank c = false) :
    (Text.trim u).head? = some c := by
  obtain ⟨rest, rfl⟩ := List.head?_eq_some_iff.1 hc
  rw [Text.trim_cons hblank, List.head?_cons]

/-- A parameter is shown as it is written only if its name stands right behind its stars. -/
theorem Writes.shown_eq_written_iff {p : Parameter} (h : Writes t n p) :
    p.shown t = p.written t ↔ p.between = [] := by
  constructor
  · intro heq
    obtain hnil | ⟨name, c, hname, hc, hopening, hloose⟩ := h.opening
    · exact hnil
    cases hbetween : p.between with
    | nil => rfl
    | cons b rest =>
      have hb := (hloose b (hbetween ▸ List.mem_cons_self)).opening
      have hmarked := List.append_cancel_right heq
      have htrim : Text.trim (b.text t) = Text.trim (name.text t) := by
        simpa [Parameter.marked, Parameter.shownName, hbetween, hname] using hmarked
      simp only [Token.isOpening, Bool.and_eq_true, decide_eq_true_eq, Bool.not_eq_true']
        at hopening
      obtain ⟨⟨hhash, hslash⟩, hblank⟩ := hopening
      have hhead := head?_trim hc hblank
      rw [← htrim] at hhead
      rcases hb with hb | hb
      · rw [head?_trim hb (by decide)] at hhead
        exact absurd (Option.some.inj hhead).symm hhash
      · rw [head?_trim hb (by decide)] at hhead
        exact absurd (Option.some.inj hhead).symm hslash
  · intro hnil
    rw [Parameter.shown, Parameter.shownName, hnil]
    rfl

/-- An item is that of some node. -/
theorem exists_isItem {nodes : List Tree} {items : List Item}
    (h : List.Forall₂ (IsItem t) nodes items) : ∀ item ∈ items, ∃ n ∈ nodes, IsItem t n item := by
  induction h with
  | nil => exact fun item hitem => absurd hitem List.not_mem_nil
  | cons hitem _ ih =>
    intro item hmem
    rcases List.mem_cons.1 hmem with rfl | hmem
    · exact ⟨_, List.mem_cons_self, hitem⟩
    · obtain ⟨n, hn, hitem⟩ := ih item hmem
      exact ⟨n, List.mem_cons_of_mem _ hn, hitem⟩

/-- Without joined lines, the items are parameters. -/
theorem exists_eq_map_parameter {items : List Item} (h : ∀ item ∈ items, ∃ p, item = .parameter p) :
    ∃ ps : List Parameter, items = ps.map .parameter ∧ items.filterMap Item.parameter? = ps := by
  have hrange : items ∈ Set.range (List.map Item.parameter) := by
    rw [Set.range_list_map]
    intro item hitem
    obtain ⟨p, rfl⟩ := h item hitem
    exact Set.mem_range_self p
  obtain ⟨ps, rfl⟩ := hrange
  refine ⟨ps, rfl, ?_⟩
  rw [List.filterMap_map]
  exact List.filterMap_some

/-- Items are shown as their parameters are written only if none is a joined line and every name
stands right behind its stars. -/
theorem map_shown_eq_iff {nodes : List Tree} {items : List Item}
    (h : List.Forall₂ (IsItem t) nodes items) :
    items.map (Item.shown t) = (items.filterMap Item.parameter?).map (Parameter.written t) ↔
      ∀ item ∈ items, ∃ p, item = .parameter p ∧ p.between = [] := by
  have hwrites (p : Parameter) (hp : .parameter p ∈ items) :
      p.shown t = p.written t ↔ p.between = [] := by
    obtain ⟨n, -, hn⟩ := exists_isItem h _ hp
    cases hn with
    | parameter hwrites => exact hwrites.shown_eq_written_iff
  constructor
  · intro heq
    -- with as many parameters as items, every item is a parameter
    have hlength := congrArg List.length heq
    rw [List.length_map, List.length_map] at hlength
    have hall := List.filterMap_length_eq_length.1 hlength.symm
    have hparameter : ∀ item ∈ items, ∃ p, item = .parameter p := by
      intro item hitem
      cases item with
      | joined => exact absurd (hall _ hitem) (by simp [Item.parameter?])
      | parameter p => exact ⟨p, rfl⟩
    obtain ⟨ps, rfl, hps⟩ := exists_eq_map_parameter hparameter
    rw [hps, List.map_map] at heq
    intro item hitem
    obtain ⟨p, hp, rfl⟩ := List.mem_map.1 hitem
    exact ⟨p, rfl, (hwrites p hitem).1 (List.map_inj_left.1 heq p hp)⟩
  · intro hclear
    obtain ⟨ps, rfl, hps⟩ := exists_eq_map_parameter fun item hitem =>
      (hclear item hitem).imp fun _ => And.left
    rw [hps, List.map_map]
    refine List.map_congr_left fun p hp => (hwrites p (List.mem_map_of_mem hp)).2 ?_
    obtain ⟨q, hq, hbetween⟩ := hclear _ (List.mem_map_of_mem hp)
    cases hq
    exact hbetween

/-- A comment stands beside a node, in it, or is that node. -/
theorem beside_or_isNodeOf {list piece c : Tree} (hplaced : list.Every (Tree.Placed t))
    (hshows : list.Every (Shows grammar (lexicon t))) (hpiece : Tree.IsNodeOf piece list)
    (hc : Tree.IsNodeOf c list) (hcomment : c.isComment = true) :
    (Beside piece c ∧ ¬Tree.IsNodeOf c piece) ∨ (¬Beside piece c ∧ Tree.IsNodeOf c piece) := by
  have hloose : IsLoose t c := isLoose_of_shows (hc.every hshows).here (by
    rw [show c.kind = "comment" by simpa [Tree.isComment] using hcomment]
    decide)
  have hlt := hloose.lt
  have hnot (hwithin : Tree.IsNodeOf c piece) : ¬Beside piece c := by
    have hinside := hwithin.inside (hpiece.every hplaced)
    unfold Beside
    omega
  rcases beside_or_within hplaced hpiece hc with hbeside | hwithin | hwithin
  · exact .inl ⟨hbeside, fun hwithin => hnot hwithin hbeside⟩
  · obtain rfl : piece = c := by
      cases hwithin with
      | root => rfl
      | child hd => exact absurd (hloose.children ▸ hd) List.not_mem_nil
    exact .inr ⟨hnot (.root _), .root _⟩
  · exact .inr ⟨hnot hwithin, hwithin⟩

/-! ### Records -/

/-- What a record shows of a parameter list: every item in order, without the default values. -/
structure ShowsItems (t : Text) (list : Tree) (items : List Item) (shown : List Text) : Prop where
  isItem : List.Forall₂ (IsItem t) (list.namedChildren.filter fun c => !c.isComment) items
  shown_eq : shown = items.map (Item.shown t)
  defaults : ∀ item ∈ items, ∀ piece ∈ item.sources, ∀ v ∈ defaults list, Beside piece v

theorem exists_showsItems {list : Tree} (hplaced : list.Every (Tree.Placed t))
    (hshows : list.Every (Shows grammar (lexicon t))) (hkind : list.kind = "parameters") :
    ∃ items, ShowsItems t list items (parameters t list) := by
  have hchild : ∀ c ∈ list.namedChildren.filter (fun c => !c.isComment), c ∈ list.children :=
    fun c hc => List.mem_of_mem_filter (List.mem_of_mem_filter hc)
  have hitem : ∀ c ∈ list.namedChildren.filter (fun c => !c.isComment),
      ∃ i, IsItem t c i ∧ parameter? t c = some (i.shown t) := by
    intro c hc
    obtain ⟨hnamed, hcomment⟩ := List.mem_filter.1 hc
    exact exists_item (hshows.child (hchild c hc))
      (isEntry_of_shows hshows.here hkind c (hchild c hc)) (List.mem_filter.1 hnamed).2
      (by simpa using hcomment)
  obtain ⟨items, hitems, hshown⟩ := exists_items hitem
  refine ⟨items, hitems, by rw [← hshown, filterMap_parameter?, parameters], ?_⟩
  intro item hmem
  obtain ⟨n, hn, hitem⟩ := exists_isItem hitems item hmem
  exact beside_of_mem_defaults hplaced (hchild n hn) hitem

/-- A list is shown as it is written if and only if every item is clear. -/
theorem ShowsItems.showsWritten_iff {list : Tree} {items : List Item} {shown : List Text}
    (h : ShowsItems t list items shown) (hplaced : list.Every (Tree.Placed t))
    (hshows : list.Every (Shows grammar (lexicon t))) :
    ShowsWritten t list items shown ↔ ∀ item ∈ items, item.IsClear := by
  have hpiece : ∀ item ∈ items, ∀ piece ∈ item.sources, Tree.IsNodeOf piece list := by
    intro item hitem piece hpiece
    obtain ⟨n, hn, hitem⟩ := exists_isItem h.isItem item hitem
    exact (hitem.isNodeOf piece hpiece).trans
      (.of_mem (List.mem_of_mem_filter (List.mem_of_mem_filter hn)))
  have hsources {p : Parameter} (hbetween : p.between = []) :
      (Item.parameter p).sources = p.name.toList ++ p.annotation.toList := by
    rw [Item.sources, Parameter.shownName, hbetween]
    rfl
  constructor
  · rintro ⟨hshown, hcomments⟩ item hitem
    obtain ⟨p, rfl, hbetween⟩ := (map_shown_eq_iff h.isItem).1 (h.shown_eq ▸ hshown) item hitem
    refine ⟨hbetween, fun piece hmem c hc => ?_⟩
    rw [← hsources hbetween] at hmem
    by_contra hcomment
    rw [Bool.not_eq_false] at hcomment
    have hnode := hpiece _ hitem piece hmem
    rcases beside_or_isNodeOf hplaced hshows hnode (hc.trans hnode) hcomment with hcase | hcase
    · exact hcase.2 hc
    · exact hcase.1 (hcomments _ hitem piece hmem c (hc.trans hnode) hcomment)
  · intro hclear
    have hparameters : ∀ item ∈ items, ∃ p, item = .parameter p ∧ p.between = [] := by
      intro item hitem
      have hitem := hclear item hitem
      cases item with
      | joined => exact hitem.elim
      | parameter p => exact ⟨p, rfl, hitem.1⟩
    refine ⟨h.shown_eq.trans ((map_shown_eq_iff h.isItem).2 hparameters), ?_⟩
    intro item hitem piece hmem c hc hcomment
    obtain ⟨p, rfl, hbetween⟩ := hparameters item hitem
    rcases beside_or_isNodeOf hplaced hshows (hpiece _ hitem piece hmem) hc hcomment with
      hcase | hcase
    · exact hcase.1
    · have hnot := (hclear _ hitem).2 piece (hsources hbetween ▸ hmem) c hcase.2
      exact absurd (hcomment.symm.trans hnot) (by decide)

theorem parameters_of_record? {src : Source} {scope : Option ClassScope} {decorators : List Text}
    {r : FunctionRecord} {list : Tree} (hr : record? src scope decorators n = some r)
    (hlist : n.child? "parameters" = some list) :
    r.parameters.map String.toList = parameters src.text list := by
  obtain ⟨name, -, rfl⟩ := Option.map_eq_some_iff.1 hr
  simp [hlist, Function.comp_def]

/-- The record of a function shows the items of its parameter list in order, without default values.
These are the parameters as they are written, without comments, if and only if there is no joined
line among them, every name stands right behind its stars, and no name or annotation has a comment
in it. -/
theorem parameters_spec (t : Text) :
    List.Forall₂ (fun o r => ∃ list items, o.node.child? "parameters" = some list ∧
      ShowsItems t list items (r.parameters.map String.toList) ∧
      (ShowsWritten t list items (r.parameters.map String.toList) ↔
        ∀ item ∈ items, item.IsClear))
      (functionsOfText t) (extract t) := by
  refine (forall₂_extract t).imp ?_
  rintro o r hrecorded
  obtain ⟨scope, decorators, hr⟩ := hrecorded.made
  obtain ⟨list, hlist, hkind⟩ := exists_list hrecorded.shows.here hrecorded.kind
  have hmem := mem_children_of_child? hlist
  have hplaced := hrecorded.placed.child hmem
  have hshows := hrecorded.shows.child hmem
  obtain ⟨items, hitems⟩ := exists_showsItems hplaced hshows hkind
  have hparameters : r.parameters.map String.toList = parameters t list :=
    parameters_of_record? hr hlist
  rw [← hparameters] at hitems
  exact ⟨list, items, hlist, hitems, hitems.showsWritten_iff hplaced hshows⟩

end Glossator.Python
