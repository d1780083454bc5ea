import Glossator.Proofs.Python.Lexer
import Glossator.Proofs.Python.Lines

/-!
# Kinds and ends of Python constructs

A node of a kind that matters shows a construct of the rule of the same name. The constructs of some
rules, statements and strings among them, end with a token that takes up text.

* `Python.exists_derived_of_kind`: what a node of a kind that matters shows.
* `Python.ends_of_derived`: what the constructs of some rules end with.
-/

set_option autoImplicit false

namespace Glossator.Python

open Grammar

variable {t : Text} {e : Element} {s : Step} {p : Piece} {steps : List Step} {parts : List Part}
  {n : Tree}

/-! ### Kinds -/

/-- The productions of a construct have the form that extraction relies on. -/
theorem productionOk_of_madeOf (h : MadeOf grammar (lexicon t) e steps parts) :
    (isEnding e = true → ∃ s, steps.getLast? = some s ∧ isEndingStep s = true) ∧
      hasForm e steps = true := by
  obtain ⟨productions, hproductions, hsteps⟩ := h.production
  exact (productionOk_iff.1 (productionOk_of_mem _ hproductions steps hsteps)).2.2

/-- What is derived from the element of a token is a token. -/
theorem isToken_of_derived (hp : Derived grammar (lexicon t) e p) {name : String}
    (hname : e.tokenName? = some name) : IsToken t name p := by
  cases hp with
  | leaf hname' hleaf =>
    rw [hname] at hname'
    cases hname'
    exact hleaf
  | rule hproductions _ _ _ _ _ _ _ =>
    have hmem := List.mem_map_of_mem (f := Prod.fst) hproductions
    rw [map_fst_productions] at hmem
    rcases List.mem_append.1 hmem with hmem | hmem
    all_goals
      obtain ⟨_, -, rfl⟩ := List.mem_map.1 hmem
      cases hname

/-- Nothing is shown as of a reserved kind, and no token is called so. -/
theorem not_mem_reservedKinds (hs : grammar.HasStep s) :
    (∀ kind, s.shownAs = some kind → kind ∉ reservedKinds) ∧
      ∀ name, s.element.tokenName? = some name → name ∉ reservedKinds := by
  obtain ⟨x, hx, steps, hsteps, hs⟩ := hs
  have hregular := (productionOk_iff.1 (productionOk_of_mem x hx steps hsteps)).2.1 s hs
  simp only [isRegularStep, Bool.and_eq_true, Option.all_eq_true, Bool.not_eq_true',
    List.contains_eq_mem, decide_eq_false_iff_not] at hregular
  exact ⟨hregular.1.2, hregular.2⟩

theorem mem_reservedKinds_of_definition {kind : String} (h : kind ∈ definitionKinds) :
    kind ∈ reservedKinds := by
  simp only [reservedKinds, List.mem_cons, List.mem_append]
  exact .inr (.inr (.inl (.inr h)))

theorem mem_reservedKinds_of_parameter {kind : String} (h : kind ∈ parameterKinds) :
    kind ∈ reservedKinds := by
  simp only [reservedKinds, List.mem_cons, List.mem_append]
  exact .inr (.inr (.inr h))

/-- Only constructs of the rule of the same name are of a reserved kind, and there are none that may
stand anywhere. -/
theorem element_of_kind (hs : grammar.HasStep s) (hp : Derived grammar (lexicon t) s.element p)
    (hvisible : p.visible = true) (hkind : p.info.kind ∈ reservedKinds) :
    s.element = .rule p.info.kind ∧ p.info.kind ∉ looseKinds := by
  have htoken := (not_mem_reservedKinds hs).2
  generalize s.element = e at hp htoken
  cases hname : e.tokenName? with
  | some name =>
    rw [(isToken_of_derived hp hname).kind] at hkind
    exact absurd hkind (htoken name hname)
  | none =>
    obtain ⟨steps, parts, here, hmade, rfl⟩ := hp.exists_madeOf hname
    have hform := (productionOk_of_madeOf hmade).2
    cases e with
    | rule name =>
      refine ⟨rfl, ?_⟩
      intro hloose
      have hname : name = "comment" ∨ name = "line_continuation" := by
        simpa [looseKinds, construct, Description.showing] using hloose
      rcases hname with rfl | rfl <;> cases hform
    | literal => cases hname
    | token => cases hname
    | again => cases hvisible

/-- A node of a reserved kind may stand anywhere or shows a construct of the rule of the same
name. -/
theorem exists_derived_of_kind (hn : Shows grammar (lexicon t) n) (hkind : n.kind ∈ reservedKinds) :
    (n.kind ∈ looseKinds ∧ ∃ p role, IsExtra t p ∧
        n = .node { p.info with role := role } p.children) ∨
      n.kind ∉ looseKinds ∧ ∃ p role, Derived grammar (lexicon t) (.rule n.kind) p ∧
        n = .node { p.info with role := role } p.children := by
  cases hn with
  | @visible s p role hp hs hvisible =>
    obtain ⟨helement, hne⟩ := element_of_kind hs hp hvisible hkind
    exact .inr ⟨hne, p, role, helement ▸ hp, rfl⟩
  | shownAs _ _ hs hshown => exact absurd hkind ((not_mem_reservedKinds hs).1 _ hshown)
  | @extra p role hextra _ => exact .inl ⟨hextra.kind, p, role, hextra, rfl⟩

/-! ### Endings -/

theorem EndsInCode.withRole (h : EndsInCode n) (role : Option String) :
    EndsInCode (n.withRole role) := by
  cases h with
  | token hnone hlt => exact .token hnone hlt
  | last hlast hstop hends => exact .last hlast hstop hends

/-- The last code among some trees ends at a place, with its last token. -/
def EndsTrees (trees : List Tree) (stop : Place) : Prop :=
  ∃ c, (codeChildren trees).getLast? = some c ∧ c.stop = stop ∧ EndsInCode c

theorem EndsTrees.append {trees : List Tree} {stop : Place} (h : EndsTrees trees stop)
    (front : List Tree) : EndsTrees (front ++ trees) stop := by
  obtain ⟨c, hlast, hstop, hends⟩ := h
  refine ⟨c, ?_, hstop, hends⟩
  unfold codeChildren at hlast ⊢
  rw [List.filter_append, List.getLast?_append, hlast, Option.some_or]

theorem EndsTrees.withRoles {trees : List Tree} {stop : Place} (h : EndsTrees trees stop)
    (role : Option String) :
    EndsTrees (trees.map fun c => if c.info.role.isSome then c else c.withRole role) stop := by
  obtain ⟨c, hlast, hstop, hends⟩ := h
  refine ⟨if c.info.role.isSome then c else c.withRole role, ?_, ?_, ?_⟩
  · have hcode (d : Tree) : (!(if d.info.role.isSome then d else d.withRole role).isComment &&
        !(if d.info.role.isSome then d else d.withRole role).isEmpty) =
        (!d.isComment && !d.isEmpty) := by
      split <;> rfl
    unfold codeChildren at hlast ⊢
    simp only [List.filter_map, Function.comp_def, hcode, List.getLast?_map, hlast, Option.map_some]
  · split <;> exact hstop
  · split
    · exact hends
    · exact hends.withRole role

/-- The piece ends with a visible token. -/
inductive Ends (p : Piece) : Prop where
  | token : p.visible = true → p.children = [] → p.info.start.offset < p.info.stop.offset → Ends p
  | last : EndsTrees p.children p.info.stop → Ends p

theorem Ends.lt (h : Ends p) (hp : Derived grammar (lexicon t) e p) :
    p.info.start.offset < p.info.stop.offset := by
  cases h with
  | token _ _ hlt => exact hlt
  | last htrees =>
    obtain ⟨c, hlast, -, -⟩ := htrees
    obtain ⟨hc, -, hlt⟩ := mem_codeChildren.1 (List.mem_of_getLast? hlast)
    obtain ⟨hstart, hstop⟩ := hp.within.inside c hc
    omega

theorem Ends.endsInCode (h : Ends p) {info : NodeInfo} (hstart : info.start = p.info.start)
    (hstop : info.stop = p.info.stop) : EndsInCode (.node info p.children) := by
  cases h with
  | token _ hnone hlt =>
    refine .token ?_ ?_
    · rw [Tree.children, hnone]
      rfl
    · rw [Tree.start, Tree.stop, Tree.info, hstart, hstop]
      exact hlt
  | last htrees =>
    obtain ⟨c, hlast, hcstop, hends⟩ := htrees
    exact .last hlast (hcstop.trans hstop.symm) hends

theorem endsTrees_singleton (hn : EndsInCode n) (hlt : n.start.offset < n.stop.offset)
    (hkind : n.kind ≠ "comment") : EndsTrees [n] n.stop := by
  have hcode : codeChildren [n] = [n] := by
    rw [codeChildren, List.filter_eq_self]
    intro c hc
    rw [List.mem_singleton.1 hc]
    simpa [Tree.isComment, Tree.isEmpty, hkind] using hlt
  exact ⟨n, by rw [hcode]; rfl, rfl, hn⟩

/-- What a step that ends visibly contributes ends with a visible token. -/
theorem endsTrees_of_isEndingStep (hs : grammar.HasStep s)
    (hp : Derived grammar (lexicon t) s.element p) (hending : isEndingStep s = true)
    (hends : isEnding s.element = true → Ends p) :
    EndsTrees (p.trees s.role s.shownAs) p.info.stop := by
  unfold isEndingStep at hending
  unfold Piece.trees
  cases hshown : s.shownAs with
  | some kind =>
    have hne : kind ≠ "comment" := by
      rintro rfl
      exact (not_mem_reservedKinds hs).1 _ hshown (by decide)
    have hnode : EndsInCode (.node ⟨kind, true, s.role, p.info.start, p.info.stop⟩ p.children) ∧
        p.info.start.offset < p.info.stop.offset := by
      rcases Bool.or_eq_true_iff.1 hending with hending | htoken
      · exact ⟨(hends hending).endsInCode rfl rfl, (hends hending).lt hp⟩
      · -- a token that is shown as another takes up text
        obtain ⟨-, htoken⟩ := Bool.and_eq_true_iff.1 htoken
        obtain ⟨name, hname, hsolid⟩ := (Option.any_eq_true _ _).1 htoken
        have hleaf := isToken_of_derived hp hname
        have hlt := hleaf.lt (by simpa using hsolid)
        refine ⟨.token ?_ hlt, hlt⟩
        rw [Tree.children, hleaf.children]
        rfl
    exact endsTrees_singleton hnode.1 hnode.2 hne
  | none =>
    rw [hshown, Option.isSome_none, Bool.false_and, Bool.or_false] at hending
    have hlt := (hends hending).lt hp
    by_cases hvisible : p.visible = true
    · rw [if_pos hvisible]
      refine endsTrees_singleton (n := .node { p.info with role := s.role } p.children)
        ((hends hending).endsInCode rfl rfl) hlt ?_
      intro hcomment
      have hreserved : p.info.kind ∈ reservedKinds := by
        rw [show p.info.kind = "comment" from hcomment]
        decide
      have hnot := (element_of_kind hs hp hvisible hreserved).2
      rw [show p.info.kind = "comment" from hcomment] at hnot
      exact hnot List.mem_cons_self
    · rw [if_neg hvisible]
      cases hends hending with
      | token htrue => exact absurd htrue hvisible
      | last htrees => exact htrees.withRoles s.role

/-- The constructs of some rules end with a visible token. -/
theorem ends_of_derived (hp : Derived grammar (lexicon t) e p) (he : isEnding e = true) :
    Ends p := by
  induction hp using Derived.induction with
  | @leaf e name p hname hleaf =>
    have hsolid : isSolid name = true := by
      cases e <;> cases hname <;> exact he
    simp only [isSolid, Bool.and_eq_true, Bool.not_eq_true', List.contains_eq_mem,
      decide_eq_false_iff_not] at hsolid
    refine .token ?_ hleaf.children (hleaf.lt hsolid.2)
    rw [hleaf.visible, hsolid.1]
    rfl
  | made hmade _ ih =>
    obtain ⟨s, hs, hending⟩ := (productionOk_of_madeOf hmade).1 he
    obtain ⟨front, part, rfl, hstep, -⟩ := hmade.exists_last hs
    have hpart : part ∈ front ++ [part] := by simp
    have htrees := endsTrees_of_isEndingStep (hmade.hasStep hpart hstep)
      (hmade.derived part hpart s hstep) hending (ih part hpart s hstep)
    have hall := htrees.append (front.flatMap Part.trees)
    refine .last ?_
    simpa [construct, Part.trees, hstep] using hall

/-- A node that shows a construct of some rules ends in code. -/
theorem endsInCode_of_shows (hn : Shows grammar (lexicon t) n) (hkind : n.kind ∈ reservedKinds)
    (hne : n.kind ∉ looseKinds) (hending : isEnding (.rule n.kind) = true) : EndsInCode n := by
  obtain ⟨hloose, -⟩ | ⟨-, p, role, hp, heq⟩ := exists_derived_of_kind hn hkind
  · exact absurd hloose hne
  · rw [heq]
    exact (ends_of_derived hp hending).endsInCode rfl rfl

end Glossator.Python
