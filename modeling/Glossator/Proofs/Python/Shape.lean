import Glossator.Proofs.Python.Ending

/-!
# The shape of parsed trees

The tree of a Python text is derived by the grammar, so what its nodes look like follows from the
form of the productions.

* `Python.isPython_of_shows`: what the nodes of derived constructs look like.
* `Python.isFile_of_parse?`: a parsed tree stands in its text and looks like that of a file.
-/

set_option autoImplicit false

namespace Glossator.Python

open Grammar

variable {t : Text} {e : Element} {s : Step} {p : Piece} {steps : List Step} {parts : List Part}
  {n : Tree}

/-! ### Definitions -/

/-- The tree is no definition and not in the role. -/
def IsAside (role : String) (c : Tree) : Prop := c.info.role ≠ some role ∧ c.kind ∉ definitionKinds

/-- A visible piece of a kind that is no definition is aside, whatever its role but one. -/
theorem isAside_of_visible (hvisible : p.visible = true) (hkind : p.info.kind ∉ definitionKinds)
    {own : Option String} {role : String} (hrole : own ≠ some role) :
    ∀ c ∈ p.trees own none, IsAside role c ∧ c.info.role = own := by
  intro c hc
  unfold Piece.trees at hc
  rw [if_pos hvisible] at hc
  rw [List.mem_singleton.1 hc]
  exact ⟨⟨hrole, hkind⟩, rfl⟩

/-- A piece without children that is not shown contributes nothing. -/
theorem trees_of_hidden (hvisible : p.visible = false) (hchildren : p.children = [])
    (own : Option String) : p.trees own none = [] := by
  unfold Piece.trees
  simp [hvisible, hchildren]

/-- What may stand anywhere is aside and has no role. -/
theorem isAside_of_extra (hextra : IsExtra t p) (role : String) :
    ∀ c ∈ p.trees none none, IsAside role c ∧ c.info.role = none := by
  have hkind : p.info.kind ∉ definitionKinds := by
    have hnone : ∀ kind ∈ looseKinds, kind ∉ definitionKinds := by decide
    exact hnone _ hextra.kind
  exact isAside_of_visible hextra.visible hkind (Option.some_ne_none role).symm

/-- A token that is hidden or not in the role is aside. -/
theorem isAside_of_token {name role : String} (hp : IsToken t name p)
    (hname : name ∉ definitionKinds) {own : Option String}
    (h : name.startsWith "_" = true ∨ own ≠ some role) :
    ∀ c ∈ p.trees own none, IsAside role c := by
  cases hvisible : p.visible with
  | true =>
    rw [hp.visible, Bool.not_eq_true'] at hvisible
    have hrole := h.resolve_left (by rw [hvisible]; exact Bool.false_ne_true)
    refine fun c hc => (isAside_of_visible ?_ (hp.kind ▸ hname) hrole c hc).1
    rw [hp.visible, hvisible]
    rfl
  | false =>
    rw [trees_of_hidden hvisible hp.children]
    exact fun c hc => absurd hc List.not_mem_nil

/-- What a construct of a rule shows. -/
theorem info_of_derived_rule {name : String} (hp : Derived grammar (lexicon t) (.rule name) p) :
    p.info.kind = name ∧ p.info.named = true ∧
      p.visible = (grammar.showing (.rule name)).visible := by
  obtain ⟨_, _, _, _, rfl⟩ := hp.exists_madeOf rfl
  exact ⟨rfl, rfl, rfl⟩

theorem isAside_of_rule {name role : String} (hp : Derived grammar (lexicon t) (.rule name) p)
    (hvisible : (grammar.showing (.rule name)).visible = true) (hname : name ∉ definitionKinds)
    {own : Option String} (hrole : own ≠ some role) :
    ∀ c ∈ p.trees own none, IsAside role c ∧ c.info.role = own := by
  obtain ⟨hkind, -, hshown⟩ := info_of_derived_rule hp
  exact isAside_of_visible (hshown.trans hvisible) (hkind ▸ hname) hrole

/-- A repetition is not shown: it contributes its own trees. -/
theorem trees_of_again {body : Rule} (hp : Derived grammar (lexicon t) (.again body) p)
    (own : Option String) :
    p.trees own none =
      p.children.map fun c => if c.info.role.isSome then c else c.withRole own := by
  obtain ⟨_, _, _, _, rfl⟩ := hp.exists_madeOf rfl
  rfl

/-- Repeated decorators are aside and have no role. -/
theorem isAside_of_decorators (hp : Derived grammar (lexicon t) e p)
    (he : e = .again (.rule "decorator")) (role : String) :
    ∀ c ∈ p.children, IsAside role c ∧ c.info.role = none := by
  induction hp using Derived.induction with
  | leaf hname _ =>
    rw [he] at hname
    cases hname
  | made hmade _ ih =>
    have hform := (productionOk_of_madeOf hmade).2
    rw [he] at hform
    simp only [hasForm, reduceCtorEq, if_false, if_true, List.all_eq_true] at hform
    intro c hc
    obtain ⟨part, hpart, hc⟩ := List.mem_flatMap.1 hc
    cases hstep : part.step with
    | none =>
      rw [Part.trees, hstep] at hc
      exact isAside_of_extra (hmade.extra part hpart hstep) role c hc
    | some s =>
      have hdecorator := hform s (hmade.mem_steps hpart hstep)
      simp only [isDecoratorStep, Bool.and_eq_true, Option.isNone_iff_eq_none, Bool.or_eq_true,
        beq_iff_eq] at hdecorator
      obtain ⟨⟨hrole, hshown⟩, helement⟩ := hdecorator
      simp only [Part.trees, hstep, Option.bind_some, hrole, hshown] at hc
      have hp := hmade.derived part hpart s hstep
      rcases helement with helement | helement
      · -- repeated decorators are not shown, so these are trees of the repetition
        rw [trees_of_again (helement ▸ hp)] at hc
        obtain ⟨d, hd, rfl⟩ := List.mem_map.1 hc
        obtain ⟨⟨-, hkind⟩, hnone⟩ := ih part hpart s hstep helement d hd
        rw [hnone]
        exact ⟨⟨(Option.some_ne_none role).symm, hkind⟩, rfl⟩
      · rw [helement] at hp
        exact isAside_of_rule hp (by decide +kernel) (by decide)
          (Option.some_ne_none role).symm c hc

theorem isAside_of_step (hs : grammar.HasStep s) (hp : Derived grammar (lexicon t) s.element p)
    {role : String} (h : isAside role s = true) :
    ∀ c ∈ p.trees s.role s.shownAs, IsAside role c := by
  have htoken (name : String) (hname : s.element.tokenName? = some name)
      (hrole : (name.startsWith "_" || s.role != some role) = true) :
      ∀ c ∈ p.trees s.role none, IsAside role c := by
    refine isAside_of_token (isToken_of_derived hp hname) ?_ (by simpa using hrole)
    exact fun hmem => (not_mem_reservedKinds hs).2 name hname (mem_reservedKinds_of_definition hmem)
  unfold isAside at h
  obtain ⟨hshown, h⟩ := Bool.and_eq_true_iff.1 h
  rw [Option.isNone_iff_eq_none.1 hshown]
  generalize s.element = e at hp htoken h
  cases e with
  | literal name => exact htoken name rfl h
  | token name => exact htoken name rfl h
  | rule name =>
    simp only [Bool.and_eq_true, bne_iff_ne, Bool.not_eq_true', List.contains_eq_mem,
      decide_eq_false_iff_not] at h
    obtain ⟨⟨hrole, hvisible⟩, hname⟩ := h
    exact fun c hc => (isAside_of_rule hp hvisible hname hrole c hc).1
  | again body =>
    simp only [Bool.and_eq_true, Option.isNone_iff_eq_none, beq_iff_eq] at h
    obtain ⟨hrole, rfl⟩ := h
    rw [hrole, trees_of_again hp]
    intro c hc
    obtain ⟨d, hd, rfl⟩ := List.mem_map.1 hc
    obtain ⟨⟨-, hkind⟩, hnone⟩ := isAside_of_decorators hp rfl role d hd
    rw [hnone]
    exact ⟨(Option.some_ne_none role).symm, hkind⟩

section Parts

variable {front : List Grammar.Part} {role : String}

/-- Parts of steps that are aside contribute nothing else. -/
theorem isAside_of_parts (hmade : MadeOf grammar (lexicon t) e steps parts)
    (hfront : front ⊆ parts) (h : ∀ s ∈ front.filterMap Part.step, isAside role s = true) :
    ∀ c ∈ front.flatMap Part.trees, IsAside role c := by
  intro c hc
  obtain ⟨part, hpart, hc⟩ := List.mem_flatMap.1 hc
  cases hstep : part.step with
  | none =>
    rw [Part.trees, hstep] at hc
    exact (isAside_of_extra (hmade.extra part (hfront hpart) hstep) role c hc).1
  | some s =>
    simp only [Part.trees, hstep, Option.bind_some] at hc
    exact isAside_of_step (hmade.hasStep (hfront hpart) hstep)
      (hmade.derived part (hfront hpart) s hstep)
      (h s (List.mem_filterMap.2 ⟨part, hpart, hstep⟩)) c hc

/-- Where all steps but the last are aside, the trees of the last one follow trees that are. -/
theorem exists_last_trees (hmade : MadeOf grammar (lexicon t) e steps parts)
    (hn : n.children = parts.flatMap Part.trees) (hlast : steps.getLast? = some s)
    (hasides : ∀ s ∈ steps.dropLast, isAside role s = true) :
    ∃ before p, n.children = before ++ p.trees s.role s.shownAs ∧
      Derived grammar (lexicon t) s.element p ∧ ∀ c ∈ before, IsAside role c := by
  obtain ⟨front, part, rfl, hstep, hfront⟩ := hmade.exists_last hlast
  have hpart : part ∈ front ++ [part] := by simp
  refine ⟨front.flatMap Part.trees, part.piece, ?_, hmade.derived part hpart s hstep, ?_⟩
  · rw [hn, List.flatMap_append, List.flatMap_singleton, Part.trees, hstep]
    rfl
  · exact isAside_of_parts hmade (List.subset_append_left _ _) (hfront ▸ hasides)

/-- A construct of a visible rule is one tree, of the kind of the rule. -/
theorem exists_tree_of_rule {name : String} (hp : Derived grammar (lexicon t) (.rule name) p)
    (hvisible : (grammar.showing (.rule name)).visible = true) (own : Option String) :
    ∃ c, p.trees own none = [c] ∧ c.info.role = own ∧ c.kind = name := by
  obtain ⟨hkind, -, hshown⟩ := info_of_derived_rule hp
  rw [Piece.trees, if_pos (hshown.trans hvisible)]
  exact ⟨_, rfl, rfl, hkind⟩

/-- A step with the body of a class shows one block. -/
theorem exists_body (hp : Derived grammar (lexicon t) s.element p) (h : isBodyStep s = true) :
    ∃ body, p.trees s.role s.shownAs = [body] ∧ body.info.role = some "body" ∧
      body.kind = "block" := by
  simp only [isBodyStep, Bool.and_eq_true, Bool.or_eq_true, beq_iff_eq,
    Option.isNone_iff_eq_none] at h
  obtain ⟨hrole, hshown | ⟨hshown, helement⟩⟩ := h
  · rw [hrole, hshown]
    exact ⟨_, rfl, rfl, rfl⟩
  · rw [hrole, hshown]
    exact exists_tree_of_rule (helement ▸ hp) (by decide +kernel) (some "body")

/-- A step with the definition behind decorators shows one class or function. -/
theorem exists_definition (hp : Derived grammar (lexicon t) s.element p)
    (h : isDefinitionStep s = true) :
    ∃ definition, p.trees s.role s.shownAs = [definition] ∧
      definition.info.role = some "definition" ∧
      (definition.kind = "class_definition" ∨ definition.kind = "function_definition") := by
  simp only [isDefinitionStep, Bool.and_eq_true, Bool.or_eq_true, beq_iff_eq,
    Option.isNone_iff_eq_none] at h
  obtain ⟨⟨hrole, hshown⟩, helement⟩ := h
  rw [hrole, hshown]
  rcases helement with helement | helement
  · obtain ⟨c, htrees, hcrole, hkind⟩ :=
      exists_tree_of_rule (helement ▸ hp) (by decide +kernel) (some "definition")
    exact ⟨c, htrees, hcrole, .inl hkind⟩
  · obtain ⟨c, htrees, hcrole, hkind⟩ :=
      exists_tree_of_rule (helement ▸ hp) (by decide +kernel) (some "definition")
    exact ⟨c, htrees, hcrole, .inr hkind⟩

/-- A construct with a step for a name has a child in that role. -/
theorem exists_name (hmade : MadeOf grammar (lexicon t) e steps parts)
    (h : steps.any isNameStep = true) (hn : n.children = parts.flatMap Part.trees) :
    ∃ name, n.child? "name" = some name := by
  obtain ⟨s, hs, hname⟩ := List.any_eq_true.1 h
  simp only [isNameStep, Bool.and_eq_true, beq_iff_eq, Option.isNone_iff_eq_none] at hname
  obtain ⟨⟨hrole, hshown⟩, helement⟩ := hname
  obtain ⟨part, hpart, hstep⟩ := hmade.exists_part hs
  have hp := hmade.derived part hpart s hstep
  have hidentifier : s.element.tokenName? = some "identifier" := by rw [helement]; rfl
  have hleaf := isToken_of_derived hp hidentifier
  have hvisible : part.piece.visible = true := hleaf.visible.trans (by decide +kernel)
  have htrees : Part.trees part =
      [.node { part.piece.info with role := some "name" } part.piece.children] := by
    simp only [Part.trees, hstep, Option.bind_some, hrole, hshown, Piece.trees, if_pos hvisible]
  have hmem : Tree.node { part.piece.info with role := some "name" } part.piece.children ∈
      n.children := by
    rw [hn]
    refine List.mem_flatMap.2 ⟨part, hpart, ?_⟩
    rw [htrees]
    exact List.mem_singleton_self _
  rw [← Option.isSome_iff_exists, Tree.child?, List.find?_isSome]
  exact ⟨_, hmem, beq_self_eq_true _⟩

end Parts

/-! ### Nodes -/

/-- A node of a kind that stands for a rule is made of parts. -/
theorem exists_madeOf_of_reserved (hn : Shows grammar (lexicon t) n)
    (hkind : n.kind ∈ reservedKinds) (hloose : n.kind ∉ looseKinds) :
    ∃ steps parts here, MadeOf grammar (lexicon t) (.rule n.kind) steps parts ∧
      n.info.named = true ∧ n.children = parts.flatMap Part.trees ∧
      n.start = (construct (grammar.showing (.rule n.kind)) parts here).info.start ∧
      n.stop = (construct (grammar.showing (.rule n.kind)) parts here).info.stop := by
  obtain ⟨hextra, -⟩ | ⟨-, p, role, hp, heq⟩ := exists_derived_of_kind hn hkind
  · exact absurd hextra hloose
  obtain ⟨steps, parts, here, hmade, hconstruct⟩ := hp.exists_madeOf rfl
  refine ⟨steps, parts, here, hmade, ?_⟩
  rw [← hconstruct, heq]
  exact ⟨by rw [hconstruct]; rfl, by rw [hconstruct]; rfl, rfl, rfl⟩

/-- A node that shows a definition is made of parts. -/
theorem exists_madeOf_of_definition (hn : Shows grammar (lexicon t) n)
    (hkind : n.kind ∈ definitionKinds) :
    n.info.named = true ∧ ∃ steps parts, MadeOf grammar (lexicon t) (.rule n.kind) steps parts ∧
      n.children = parts.flatMap Part.trees ∧
      ∀ part ∈ parts, n.start.offset ≤ part.piece.info.start.offset ∧
        part.piece.info.stop.offset ≤ n.stop.offset := by
  have hloose : ∀ kind ∈ definitionKinds, kind ∉ looseKinds := by decide
  obtain ⟨steps, parts, here, hmade, hnamed, hchildren, hstart, hstop⟩ :=
    exists_madeOf_of_reserved hn (mem_reservedKinds_of_definition hkind) (hloose _ hkind)
  refine ⟨hnamed, steps, parts, hmade, hchildren, fun part hpart => ?_⟩
  rw [hstart, hstop]
  exact hmade.bounds _ here hpart

theorem function_of_shows (hn : Shows grammar (lexicon t) n)
    (hkind : n.kind = "function_definition") :
    n.start.offset < n.stop.offset ∧ ∃ name, n.child? "name" = some name := by
  obtain ⟨-, steps, parts, hmade, hchildren, hbounds⟩ :=
    exists_madeOf_of_definition hn (by rw [hkind]; decide)
  have hform := (productionOk_of_madeOf hmade).2
  rw [hkind, hasForm, if_pos rfl, Bool.and_eq_true] at hform
  refine ⟨?_, exists_name hmade hform.1 hchildren⟩
  -- the keyword takes up text
  obtain ⟨s, hs, hdef⟩ := List.any_eq_true.1 hform.2
  obtain ⟨part, hpart, hstep⟩ := hmade.exists_part hs
  have hkeyword : s.element.tokenName? = some "def" := by rw [eq_of_beq hdef]; rfl
  have hlt := (isToken_of_derived (hmade.derived part hpart s hstep) hkeyword).lt (by decide)
  have hle := hbounds part hpart
  omega

theorem classParts_of_shows (hn : Shows grammar (lexicon t) n)
    (hkind : n.kind = "class_definition") :
    (∃ name, n.child? "name" = some name) ∧
      ∃ before body behind, ClassParts n.children before body behind := by
  obtain ⟨-, steps, parts, hmade, hchildren, -⟩ :=
    exists_madeOf_of_definition hn (by rw [hkind]; decide)
  have hform := (productionOk_of_madeOf hmade).2
  rw [hkind, hasForm, if_neg (by decide), if_pos rfl, Bool.and_eq_true, Bool.and_eq_true,
    List.all_eq_true, Option.any_eq_true] at hform
  obtain ⟨⟨hname, hasides⟩, s, hlast, hbody⟩ := hform
  refine ⟨exists_name hmade hname hchildren, ?_⟩
  obtain ⟨before, p, heq, hp, haside⟩ := exists_last_trees hmade hchildren hlast hasides
  obtain ⟨body, htrees, hrole, hblock⟩ := exists_body hp hbody
  rw [htrees] at heq
  exact ⟨before, body, [], heq, hrole, hblock, by rwa [List.append_nil]⟩

theorem decoratedParts_of_shows (hn : Shows grammar (lexicon t) n)
    (hkind : n.kind = "decorated_definition") :
    ∃ before definition behind, DecoratedParts n.children before definition behind := by
  obtain ⟨-, steps, parts, hmade, hchildren, -⟩ :=
    exists_madeOf_of_definition hn (by rw [hkind]; decide)
  have hform := (productionOk_of_madeOf hmade).2
  rw [hkind, hasForm, if_neg (by decide), if_neg (by decide), if_pos rfl, Bool.and_eq_true,
    List.all_eq_true, Option.any_eq_true] at hform
  obtain ⟨hasides, s, hlast, hdefinition⟩ := hform
  obtain ⟨before, p, heq, hp, haside⟩ := exists_last_trees hmade hchildren hlast hasides
  obtain ⟨definition, htrees, hrole, hdefinitionKind⟩ := exists_definition hp hdefinition
  rw [htrees] at heq
  exact ⟨before, definition, [], heq, hrole, hdefinitionKind, by rwa [List.append_nil]⟩

/-- The nodes of derived constructs look like those of a Python text. -/
theorem isPython_of_shows (hn : Shows grammar (lexicon t) n) : IsPython n where
  comment hkind := by
    obtain ⟨-, p, role, hextra, rfl⟩ | ⟨hne, -⟩ :=
      exists_derived_of_kind hn (by rw [hkind]; decide)
    · exact hextra.children
    · exact absurd (hkind ▸ List.mem_cons_self) hne
  named hkind := (exists_madeOf_of_definition hn hkind).1
  function hkind := function_of_shows hn hkind
  classParts hkind := classParts_of_shows hn hkind
  decoratedParts hkind := decoratedParts_of_shows hn hkind
  statement hkind := endsInCode_of_shows hn (by rw [hkind]; decide) (by rw [hkind]; decide)
    (by rw [hkind]; decide)

/-! ### Parsed trees -/

theorem placed_of_shows (hn : Shows grammar (lexicon t) n) : Tree.Placed t n := by
  obtain ⟨hstart, hstop, hle, hwithin⟩ := hn.placed
  exact ⟨hstart, hstop, hle, hwithin.inside, hwithin.ordered⟩

/-- A string ends with its closing quotes. -/
def StringEnds (n : Tree) : Prop := n.kind = "string" → EndsInCode n

/-- A tree in its text that looks like the tree of a Python file. -/
structure IsFile (t : Text) (tree : Tree) : Prop where
  kind : tree.kind = "module"
  placed : tree.Every (Tree.Placed t)
  python : tree.Every IsPython
  strings : tree.Every StringEnds
  shows : ∀ c ∈ tree.children, c.Every (Shows grammar (lexicon t))

theorem kind_of_first {x : Element × List (List Step)} (hx : grammar.productions[0]? = some x) :
    (grammar.showing x.1).kind = "module" := by
  have hfirst : (grammar.productions.map Prod.fst)[0]? = some (.rule "module") := by
    rw [map_fst_productions]
    rfl
  rw [List.getElem?_map, hx, Option.map_some, Option.some_inj] at hfirst
  rw [hfirst]
  rfl

/-- A parsed tree stands in its text and looks like the tree of a Python file. -/
theorem isFile_of_parse? {tree : Tree} (h : parse? t = some tree) : IsFile t tree := by
  have hderived := derivedTree_of_parse? regular_grammar (sound_lexer t) (isAt_start t) h
  obtain ⟨x, hx, -⟩ := regular_grammar.first
  have hkind : tree.kind = "module" := (hderived.kind x hx).trans (kind_of_first hx)
  refine ⟨hkind, .mk ?_ ?_, .mk ?_ ?_, .mk ?_ ?_, hderived.every⟩
  · exact ⟨hderived.start, hderived.stop, hderived.le, hderived.within.inside,
      hderived.within.ordered⟩
  · exact fun c hc => (hderived.every c hc).mono fun _ => placed_of_shows
  · exact .of_kind (hkind ▸ by decide)
  · exact fun c hc => (hderived.every c hc).mono fun _ => isPython_of_shows
  · exact fun hstring => absurd (hkind.symm.trans hstring) (by decide)
  · refine fun c hc => (hderived.every c hc).mono fun n hn hstring => ?_
    exact endsInCode_of_shows hn (by rw [hstring]; decide) (by rw [hstring]; decide)
      (by rw [hstring]; decide)

end Glossator.Python
