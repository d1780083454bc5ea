import Glossator.Proofs.Python.Shape

/-!
# The shape of parameter lists

The productions for parameters have few forms, and a parameter is one of few kinds of nodes. What
stands between its stars and its name, or between a parameter and the next, may stand anywhere.

* `Python.isParameterForm_grammar`: the forms of the productions for parameters.
* `Python.exists_child`: a construct has a child in a role that its productions give.
* `Python.isEntry_of_shows`: what a parameter list shows.
* `Python.starred_of_shows`: stars, what may stand behind them, and a name that starts like a token.
-/

set_option autoImplicit false

namespace Glossator.Python

open Grammar

variable {t : Text} {e : Element} {s : Step} {p : Piece} {steps : List Step} {parts : List Part}
  {n : Tree}

/-! ### What is inspected -/

/-- The kind of the one tree that a step shows, where it shows one. -/
def shownKind? (s : Step) : Option String :=
  match s.shownAs with
  | some kind => some kind
  | none => match s.element with
    | .literal name | .token name => if name.startsWith "_" then none else some name
    | .rule name => if (grammar.showing (.rule name)).visible then some name else none
    | .again _ => none

/-- The tree that a step shows is no token of fixed spelling. -/
def showsNamed (s : Step) : Bool :=
  s.shownAs.isSome || match s.element with
    | .literal _ => false
    | _ => true

/-- The first step that is not aside from a role shows one tree, in that role. -/
def showsChild (role : String) (kinds : List String) (steps : List Step) : Bool :=
  (steps.dropWhile (isAside role)).head?.any fun s =>
    s.role == some role && (shownKind? s).any kinds.contains

/-- The kinds of what can be annotated. -/
def targetKinds : List String :=
  ["identifier", "list_splat_pattern", "dictionary_splat_pattern"]

/-- The kinds of what can have a default. -/
def nameKinds : List String := ["identifier", "tuple_pattern"]

/-- The kinds of the parameters and separators in a list. -/
def entryKinds : List String := ["identifier", "typed_parameter", "default_parameter",
  "typed_default_parameter", "list_splat_pattern", "tuple_pattern", "keyword_separator",
  "positional_separator", "dictionary_splat_pattern"]

/-- The elements that a parameter list is made of and that are not shown. -/
def listElements : List Element := [.rule "_parameters", .rule "parameter",
  .again (.andThen (.literal ",") (.rule "parameter"))]

/-- The step shows a bracket or a comma, the parts of a parameter list, or a parameter. -/
def isListed (s : Step) : Bool :=
  s.role.isNone && s.shownAs.isNone && (!showsNamed s || listElements.contains s.element ||
    (shownKind? s).any entryKinds.contains)

/-- Rules whose constructs start with a token that may stand at the start of an expression. -/
def startingRules : List String := ["subscript", "attribute", "primary_expression", "await",
  "binary_operator", "string", "concatenated_string", "true", "false", "none", "unary_operator",
  "call", "list", "list_comprehension", "dictionary", "dictionary_comprehension", "set",
  "set_comprehension", "tuple", "parenthesized_expression", "generator_expression", "ellipsis",
  "list_splat_pattern"]

/-- Constructs of the element start with a token outside strings. -/
def isStarting : Element → Bool
  | .literal _ => true
  | .token name => !innerTokens.contains name
  | .rule name => startingRules.contains name
  | .again _ => false

/-- Stars, and one named tree that starts with a token. -/
def isStarred (stars : String) : List Step → Bool
  | [star, name] => star.element == .literal stars && !stars.startsWith "_" &&
      star.shownAs.isNone && isStarting name.element && showsNamed name &&
      (shownKind? name).any fun kind => !looseKinds.contains kind
  | _ => false

/-- A single sign. -/
def isSign (sign : String) (steps : List Step) : Bool :=
  steps.map Step.element == [.literal sign]

/-- What is annotated, and its annotation. -/
def isTyped (steps : List Step) : Bool :=
  (steps.head?.any fun s => showsNamed s && (shownKind? s).any targetKinds.contains) &&
    showsChild "type" ["type"] steps

/-- A name and its annotation. -/
def isTypedDefault (steps : List Step) : Bool :=
  showsChild "name" ["identifier"] steps && showsChild "type" ["type"] steps

/-- The forms of the productions of some rules. -/
def parameterForms : List (String × (List Step → Bool)) := [
  ("function_definition", showsChild "parameters" ["parameters"]),
  ("typed_parameter", isTyped),
  ("default_parameter", showsChild "name" nameKinds),
  ("typed_default_parameter", isTypedDefault),
  ("list_splat_pattern", isStarred "*"),
  ("dictionary_splat_pattern", isStarred "**"),
  ("positional_separator", isSign "/"),
  ("keyword_separator", isSign "*")]

/-- What the step shows as a name is spelled like one. -/
def showsWord (s : Step) : Bool :=
  s.shownAs != some "identifier" || match s.element with
    | .literal name => Token.name? name.toList == some []
    | _ => false

/-- A production of an element, as parameters rely on it. -/
def isParameterForm (e : Element) (steps : List Step) : Bool :=
  (parameterForms.all fun form => e != .rule form.1 || form.2 steps) &&
    (!(.rule "parameters" :: listElements).contains e || steps.all isListed) &&
    (!isStarting e || steps.head?.any fun s => isStarting s.element) && steps.all showsWord &&
    e != .rule "identifier"

/-- The productions have the form that parameters rely on. -/
def areParameterForms (all : Productions) : Bool :=
  all.all fun x => x.2.all (isParameterForm x.1)

set_option maxRecDepth 20000 in
theorem isParameterForm_grammar : areParameterForms grammar.productions = true := by
  decide +kernel

theorem isParameterForm_of_mem {x : Element × List (List Step)} (hx : x ∈ grammar.productions)
    (hsteps : steps ∈ x.2) : isParameterForm x.1 steps = true :=
  List.all_eq_true.1 (List.all_eq_true.1 isParameterForm_grammar x hx) steps hsteps

/-- The parts of the inspection, for a construct. -/
theorem parameterForm_of_madeOf (h : MadeOf grammar (lexicon t) e steps parts) :
    (∀ form ∈ parameterForms, e = .rule form.1 → form.2 steps = true) ∧
      (e ∈ Element.rule "parameters" :: listElements → ∀ s ∈ steps, isListed s = true) ∧
      (isStarting e = true → ∃ s, steps.head? = some s ∧ isStarting s.element = true) ∧
      e ≠ .rule "identifier" := by
  obtain ⟨productions, hproductions, hsteps⟩ := h.production
  have hform := isParameterForm_of_mem hproductions hsteps
  simp only [isParameterForm, Bool.and_eq_true, List.all_eq_true, Bool.or_eq_true, bne_iff_ne,
    Bool.not_eq_true', List.contains_eq_mem, decide_eq_false_iff_not, Option.any_eq_true] at hform
  obtain ⟨⟨⟨⟨hforms, hlist⟩, hstarting⟩, -⟩, hne⟩ := hform
  refine ⟨?_, ?_, ?_, hne⟩
  · exact fun form hmem he => (hforms form hmem).resolve_left fun hnot => hnot he
  · exact fun he => hlist.resolve_left fun hnot => hnot he
  · exact fun he => hstarting.resolve_left (by simp [he])

theorem showsWord_of_hasStep (hs : grammar.HasStep s) : showsWord s = true := by
  obtain ⟨x, hx, steps, hsteps, hs⟩ := hs
  have hform := isParameterForm_of_mem hx hsteps
  simp only [isParameterForm, Bool.and_eq_true, List.all_eq_true] at hform
  exact hform.1.2 s hs

/-! ### What a step shows -/

theorem isRegularStep_of_hasStep (hs : grammar.HasStep s) : isRegularStep s = true := by
  obtain ⟨x, hx, steps, hsteps, hs⟩ := hs
  exact (productionOk_iff.1 (productionOk_of_mem x hx steps hsteps)).2.1 s hs

theorem mem_elements_of_hasStep (hs : grammar.HasStep s) :
    s.element ∈ Productions.elements grammar.productions := by
  obtain ⟨x, hx, steps, hsteps, hs⟩ := hs
  exact List.mem_flatMap.2 ⟨x, hx, List.mem_flatMap.2 ⟨steps, hsteps, List.mem_map_of_mem hs⟩⟩

/-- A token is named unless its spelling is fixed. -/
theorem named_of_derived (hs : grammar.HasStep s) (hp : Derived grammar (lexicon t) s.element p)
    {name : String} (hname : s.element.tokenName? = some name) (hshown : s.shownAs = none) :
    p.info.named = showsNamed s := by
  rw [(isToken_of_derived hp hname).named, showsNamed, hshown]
  have helement := mem_elements_of_hasStep hs
  have hregular := isRegularStep_of_hasStep hs
  unfold isRegularStep at hregular
  generalize s.element = e at hname helement hregular
  cases e with
  | literal spelling =>
    cases hname
    show valueTokens.contains _ = false
    rw [List.contains_eq_mem, decide_eq_false (literal_spec helement).1]
  | token =>
    cases hname
    simp only [Bool.and_eq_true, isKnown] at hregular
    exact List.contains_iff_mem.2 (List.mem_cons_of_mem _ (List.contains_iff_mem.1 hregular.1.1))
  | rule => cases hname
  | again => cases hname

/-- The tree that a step shows. -/
structure ShownTree (s : Step) (kind : String) (p : Piece) (n : Tree) : Prop where
  kind_eq : n.kind = kind
  named : n.info.named = showsNamed s
  role : n.info.role = s.role
  start : n.start = p.info.start
  stop : n.stop = p.info.stop

/-- A step of one kind shows one tree. -/
theorem exists_tree (hs : grammar.HasStep s) (hp : Derived grammar (lexicon t) s.element p)
    {kind : String} (h : shownKind? s = some kind) :
    ∃ n, p.trees s.role s.shownAs = [n] ∧ ShownTree s kind p n := by
  unfold shownKind? at h
  cases hshown : s.shownAs with
  | some shown =>
    rw [hshown] at h
    cases h
    exact ⟨_, rfl, rfl, by rw [showsNamed, hshown]; rfl, rfl, rfl, rfl⟩
  | none =>
    rw [hshown] at h
    have hone (hvisible : p.visible = true) (hkind : p.info.kind = kind)
        (hnamed : p.info.named = showsNamed s) :
        ∃ n, p.trees s.role none = [n] ∧ ShownTree s kind p n := by
      rw [Piece.trees, if_pos hvisible]
      exact ⟨_, rfl, hkind, hnamed, rfl, rfl, rfl⟩
    have htoken (name : String) (hname : s.element.tokenName? = some name)
        (h : (if name.startsWith "_" then none else some name) = some kind) :
        ∃ n, p.trees s.role none = [n] ∧ ShownTree s kind p n := by
      obtain ⟨hstarts, hkind⟩ := Option.ite_none_left_eq_some.1 h
      have hleaf := isToken_of_derived hp hname
      refine hone ?_ (hleaf.kind.trans (Option.some.inj hkind))
        (named_of_derived hs hp hname hshown)
      rw [hleaf.visible, Bool.eq_false_iff.2 hstarts]
      rfl
    cases helement : s.element with
    | literal name =>
      rw [helement] at h
      exact htoken name (by rw [helement]; rfl) h
    | token name =>
      rw [helement] at h
      exact htoken name (by rw [helement]; rfl) h
    | rule name =>
      rw [helement] at h hp
      obtain ⟨hshows, hkind⟩ := Option.ite_none_right_eq_some.1 h
      obtain ⟨hname, hnamed, hvisible⟩ := info_of_derived_rule hp
      refine hone (hvisible.trans hshows) (hname.trans (Option.some.inj hkind)) ?_
      rw [hnamed, showsNamed, hshown, helement]
      rfl
    | again =>
      rw [helement] at h
      cases h

/-- A construct has a child in a role that its productions give. -/
theorem exists_child (hmade : MadeOf grammar (lexicon t) e steps parts)
    (hn : n.children = parts.flatMap Part.trees) {role : String} {kinds : List String}
    (h : showsChild role kinds steps = true) :
    ∃ c, n.child? role = some c ∧ c.kind ∈ kinds ∧ c.info.role = some role := by
  unfold showsChild at h
  cases hdrop : steps.dropWhile (isAside role) with
  | nil =>
    rw [hdrop] at h
    cases h
  | cons s behind =>
    simp only [hdrop, List.head?_cons, Option.any_some, Bool.and_eq_true, beq_iff_eq,
      Option.any_eq_true, List.contains_iff_mem] at h
    obtain ⟨hrole, kind, hkind, hmem⟩ := h
    have hsteps : steps = steps.takeWhile (isAside role) ++ s :: behind := by
      rw [← hdrop, List.takeWhile_append_dropWhile]
    rw [hsteps] at hmade
    obtain ⟨front, part, rest, rfl, hstep, hfront⟩ := hmade.exists_split
    have hpart : part ∈ front ++ part :: rest := by simp
    obtain ⟨c, htrees, hc⟩ :=
      exists_tree (hmade.hasStep hpart hstep) (hmade.derived part hpart s hstep) hkind
    have hbefore : (front.flatMap Part.trees).find? (fun c => c.info.role == some role) = none := by
      rw [List.find?_eq_none]
      intro d hd
      have haside := isAside_of_parts hmade (List.subset_append_left front _)
        (fun s hs => List.mem_takeWhile_imp (hfront ▸ hs)) d hd
      simpa using haside.1
    have hchildren : n.children = front.flatMap Part.trees ++ c :: rest.flatMap Part.trees := by
      rw [hn, List.flatMap_append, List.flatMap_cons, Part.trees, hstep]
      exact congrArg _ (congrArg (· ++ _) htrees)
    refine ⟨c, ?_, hc.kind_eq ▸ hmem, hc.role.trans hrole⟩
    rw [Tree.child?, hchildren, List.find?_append, hbefore, Option.none_or, List.find?_cons_of_pos]
    simp [hc.role, hrole]

/-- The first child shows what the first step does. -/
theorem exists_head (hmade : MadeOf grammar (lexicon t) e (s :: steps) parts)
    (hn : n.children = parts.flatMap Part.trees) {kind : String}
    (hkind : shownKind? s = some kind) :
    ∃ c, n.children.head? = some c ∧ c.kind = kind ∧ c.info.named = showsNamed s := by
  obtain ⟨part, rest, rfl, hstep, -⟩ := hmade.exists_first
  have hpart : part ∈ part :: rest := List.mem_cons_self
  obtain ⟨c, htrees, hc⟩ :=
    exists_tree (hmade.hasStep hpart hstep) (hmade.derived part hpart s hstep) hkind
  refine ⟨c, ?_, hc.kind_eq, hc.named⟩
  rw [hn, List.flatMap_cons, Part.trees, hstep]
  exact congrArg List.head? (congrArg (· ++ _) htrees)

/-! ### What may stand anywhere -/

/-- A comment or a joined line, as a node. -/
structure IsLoose (t : Text) (n : Tree) : Prop where
  kind : n.kind ∈ looseKinds
  named : n.info.named = true
  children : n.children = []
  lt : n.start.offset < n.stop.offset
  opening : (n.text t).head? = some '#' ∨ (n.text t).head? = some '\\'

/-- The piece stands in the tree of a node with its role. -/
theorem isLoose_of_extra (h : IsExtra t p) (role : Option String) :
    IsLoose t (.node { p.info with role := role } p.children) :=
  ⟨h.kind, h.named, h.children, h.lt, (Span.head?_slice h.lt t).symm ▸ h.opening⟩

theorem isLoose_of_shows (hn : Shows grammar (lexicon t) n) (hkind : n.kind ∈ looseKinds) :
    IsLoose t n := by
  have hreserved : n.kind ∈ reservedKinds := by
    simp only [reservedKinds, List.mem_cons, List.mem_append]
    exact .inr (.inr (.inl (.inl hkind)))
  obtain ⟨-, p, role, hextra, rfl⟩ | ⟨hne, -⟩ := exists_derived_of_kind hn hreserved
  · exact isLoose_of_extra hextra role
  · exact absurd hkind hne

/-- A part without a step shows what may stand anywhere. -/
theorem exists_loose {part : Grammar.Part} (hextra : IsExtra t part.piece)
    (hstep : part.step = none) : ∃ n, Part.trees part = [n] ∧ IsLoose t n := by
  rw [Part.trees, hstep]
  refine ⟨_, ?_, isLoose_of_extra hextra none⟩
  show part.piece.trees none none = _
  rw [Piece.trees, if_pos hextra.visible]

/-! ### Parameter lists -/

/-- A named tree of a parameter list is a parameter, or may stand anywhere. -/
def IsEntry (c : Tree) : Prop := c.info.named = true → c.kind ∈ looseKinds ∨ c.kind ∈ entryKinds

theorem isEntry_of_literal (hs : grammar.HasStep s) (hp : Derived grammar (lexicon t) s.element p)
    (hshown : s.shownAs = none) (hfixed : showsNamed s = false) :
    ∀ c ∈ p.trees none none, IsEntry c := by
  obtain ⟨name, hname⟩ : ∃ name, s.element.tokenName? = some name := by
    rw [showsNamed, hshown] at hfixed
    generalize s.element = e at hfixed
    cases e with
    | literal name => exact ⟨name, rfl⟩
    | token => cases hfixed
    | rule => cases hfixed
    | again => cases hfixed
  have hnamed := (named_of_derived hs hp hname hshown).trans hfixed
  intro c hc htrue
  cases hvisible : p.visible with
  | false =>
    rw [trees_of_hidden hvisible (isToken_of_derived hp hname).children] at hc
    cases hc
  | true =>
    rw [Piece.trees, if_pos hvisible] at hc
    rw [List.mem_singleton.1 hc] at htrue
    exact absurd (hnamed.symm.trans htrue) Bool.false_ne_true

/-- The parts of a parameter list are not shown. -/
theorem hidden_of_mem_listElements (hp : Derived grammar (lexicon t) e p)
    (he : e ∈ listElements) : p.visible = false := by
  have hname : e.tokenName? = none := by
    simp only [listElements, List.mem_cons, List.not_mem_nil, or_false] at he
    rcases he with rfl | rfl | rfl <;> rfl
  have hall : listElements.all (fun e => !(grammar.showing e).visible) = true := by decide +kernel
  obtain ⟨_, _, _, _, rfl⟩ := hp.exists_madeOf hname
  have hhidden := List.all_eq_true.1 hall e he
  rw [Bool.not_eq_true'] at hhidden
  exact hhidden

/-- The trees of a parameter list are brackets, commas, parameters and what may stand anywhere. -/
theorem isEntry_of_derived (hp : Derived grammar (lexicon t) e p)
    (he : e ∈ Element.rule "parameters" :: listElements) : ∀ c ∈ p.children, IsEntry c := by
  induction hp using Derived.induction with
  | leaf hname hleaf =>
    rw [hleaf.children]
    exact fun c hc => absurd hc List.not_mem_nil
  | made hmade _ ih =>
    intro c hc
    obtain ⟨part, hpart, hc⟩ := List.mem_flatMap.1 hc
    cases hstep : part.step with
    | none =>
      obtain ⟨n, htrees, hn⟩ := exists_loose (hmade.extra part hpart hstep) hstep
      rw [htrees] at hc
      exact fun _ => .inl (List.mem_singleton.1 hc ▸ hn.kind)
    | some s =>
      have hlisted := (parameterForm_of_madeOf hmade).2.1 he s (hmade.mem_steps hpart hstep)
      have hs := hmade.hasStep hpart hstep
      have hp := hmade.derived part hpart s hstep
      simp only [isListed, Bool.and_eq_true, Bool.or_eq_true, Option.isNone_iff_eq_none,
        Bool.not_eq_true', List.contains_iff_mem, Option.any_eq_true] at hlisted
      obtain ⟨⟨hrole, hshown⟩, hlisted⟩ := hlisted
      simp only [Part.trees, hstep, Option.bind_some, hrole, hshown] at hc
      rcases hlisted with (hfixed | helement) | ⟨kind, hkind, hmem⟩
      · exact isEntry_of_literal hs hp hshown hfixed c hc
      · -- the parts of the list are not shown: these are their trees
        rw [Piece.trees, if_neg (by rw [hidden_of_mem_listElements hp helement]; decide)] at hc
        obtain ⟨d, hd, rfl⟩ := List.mem_map.1 hc
        have hentry := ih part hpart s hstep (List.mem_cons_of_mem _ helement) d hd
        split
        · exact hentry
        · exact hentry
      · obtain ⟨n, htrees, hn⟩ := exists_tree hs hp hkind
        rw [hrole, hshown] at htrees
        rw [htrees] at hc
        exact fun _ => .inr (by rw [List.mem_singleton.1 hc, hn.kind_eq]; exact hmem)

/-! ### Names -/

/-- The piece starts with a token outside strings. -/
structure StartsToken (t : Text) (p : Piece) : Prop where
  lt : p.info.start.offset < p.info.stop.offset
  opening : ∃ c, t[p.info.start.offset]? = some c ∧ Token.isOpening c = true

theorem startsToken_of_isToken {name : String} (hp : IsToken t name p)
    (hname : name ∉ innerTokens) : StartsToken t p := by
  have hlt := hp.lt fun hempty => hname (List.mem_append_left _ hempty)
  obtain ⟨c, hc, hopening⟩ := hp.spelling.opening hname
  exact ⟨hlt, c, (Span.head?_slice hlt t).symm.trans hc, hopening⟩

/-- A literal of a step stands outside strings. -/
theorem not_mem_innerTokens (hs : grammar.HasStep s) (he : isStarting s.element = true) :
    ∀ name, s.element.tokenName? = some name → name ∉ innerTokens := by
  have helement := mem_elements_of_hasStep hs
  generalize s.element = e at he helement
  intro name hname
  cases e with
  | literal =>
    cases hname
    exact fun hinner => (literal_spec helement).1 (innerTokens_subset hinner)
  | token =>
    cases hname
    simpa [isStarting] using he
  | rule => cases hname
  | again => cases hname

/-- The constructs of some rules start with a token outside strings. -/
theorem startsToken_of_derived (hp : Derived grammar (lexicon t) e p) (he : isStarting e = true)
    (hname : ∀ name, e.tokenName? = some name → name ∉ innerTokens) : StartsToken t p := by
  induction hp using Derived.induction with
  | leaf htoken hleaf => exact startsToken_of_isToken hleaf (hname _ htoken)
  | @made e _ _ here hmade _ ih =>
    obtain ⟨s, hs, hstarting⟩ := (parameterForm_of_madeOf hmade).2.2.1 he
    obtain ⟨rest, hrest⟩ := List.head?_eq_some_iff.1 hs
    subst hrest
    obtain ⟨part, behind, rfl, hstep, -⟩ := hmade.exists_first
    have hpart : part ∈ part :: behind := List.mem_cons_self
    obtain ⟨hlt, hopening⟩ := ih part hpart s hstep hstarting
      (not_mem_innerTokens (hmade.hasStep hpart hstep) hstarting)
    have hbounds := hmade.bounds (grammar.showing e) here hpart
    exact ⟨hlt.trans_le hbounds.2, hopening⟩

/-- A node called a name is spelled like one. -/
theorem name?_of_shows (hn : Shows grammar (lexicon t) n) (hkind : n.kind = "identifier") :
    Token.name? (n.text t) = some [] := by
  cases hn with
  | @visible s p role hp hs hvisible =>
    cases hname : s.element.tokenName? with
    | some name =>
      have hleaf := isToken_of_derived hp hname
      exact hleaf.spelling.word (hleaf.kind.symm.trans hkind)
    | none =>
      obtain ⟨steps, parts, here, hmade, rfl⟩ := hp.exists_madeOf hname
      have hne := (parameterForm_of_madeOf hmade).2.2.2
      generalize s.element = e at hne hname hkind hvisible
      cases e with
      | rule name => exact absurd (congrArg Element.rule hkind) hne
      | literal => cases hname
      | token => cases hname
      | again => cases hvisible
  | @shownAs s p kind role hp hs hshown =>
    have hword := showsWord_of_hasStep hs
    have helement := mem_elements_of_hasStep hs
    rw [showsWord, hshown, show kind = "identifier" from hkind] at hword
    generalize s.element = e at hp hword helement
    cases e with
    | literal name =>
      have hleaf := isToken_of_derived hp rfl
      have hspelled : Token.name? name.toList = some [] := by simpa using hword
      have hwritten := hleaf.spelling.literal (literal_spec helement).1
      show Token.name? (Span.slice ⟨p.info.start.offset, p.info.stop.offset⟩ t) = some []
      rw [hwritten, hspelled]
    | token => simp at hword
    | rule => simp at hword
    | again => simp at hword
  | @extra p role hextra _ =>
    have hnot : "identifier" ∉ looseKinds := by decide
    exact absurd (hkind ▸ hextra.kind) hnot

/-! ### Nodes -/

/-- A node that shows a parameter is made of parts. -/
theorem exists_madeOf_of_parameter (hn : Shows grammar (lexicon t) n)
    (hkind : n.kind ∈ parameterKinds) :
    ∃ steps parts here, MadeOf grammar (lexicon t) (.rule n.kind) steps parts ∧
      n.info.named = true ∧ n.children = parts.flatMap Part.trees ∧
      n.start = (construct (grammar.showing (.rule n.kind)) parts here).info.start ∧
      n.stop = (construct (grammar.showing (.rule n.kind)) parts here).info.stop := by
  have hloose : ∀ kind ∈ parameterKinds, kind ∉ looseKinds := by decide
  exact exists_madeOf_of_reserved hn (mem_reservedKinds_of_parameter hkind) (hloose _ hkind)

theorem parameterForm_of_kind {check : List Step → Bool}
    (hform : (n.kind, check) ∈ parameterForms)
    (hmade : MadeOf grammar (lexicon t) (.rule n.kind) steps parts) : check steps = true :=
  (parameterForm_of_madeOf hmade).1 _ hform rfl

/-- A function has a parameter list. -/
theorem exists_list (hn : Shows grammar (lexicon t) n) (hkind : n.kind = "function_definition") :
    ∃ list, n.child? "parameters" = some list ∧ list.kind = "parameters" := by
  obtain ⟨-, steps, parts, hmade, hchildren, -⟩ :=
    exists_madeOf_of_definition hn (by rw [hkind]; decide)
  have hform : showsChild "parameters" ["parameters"] steps = true :=
    parameterForm_of_kind (by rw [hkind]; simp [parameterForms]) hmade
  obtain ⟨list, hlist, hmem, -⟩ := exists_child hmade hchildren hform
  exact ⟨list, hlist, List.mem_singleton.1 hmem⟩

/-- The named children of a parameter list are parameters or may stand anywhere. -/
theorem isEntry_of_shows (hn : Shows grammar (lexicon t) n) (hkind : n.kind = "parameters") :
    ∀ c ∈ n.children, IsEntry c := by
  obtain ⟨hloose, -⟩ | ⟨-, p, role, hp, heq⟩ := exists_derived_of_kind hn (by rw [hkind]; decide)
  · rw [hkind] at hloose
    exact absurd hloose (by decide)
  · rw [heq]
    exact isEntry_of_derived hp (by rw [hkind]; exact List.mem_cons_self)

/-- A separator is written as its sign. -/
theorem text_of_sign {sign : String} (hn : Shows grammar (lexicon t) n)
    (hkind : n.kind ∈ parameterKinds) (hform : (n.kind, isSign sign) ∈ parameterForms) :
    n.text t = sign.toList := by
  obtain ⟨steps, parts, here, hmade, -, -, hstart, hstop⟩ := exists_madeOf_of_parameter hn hkind
  have hsign : isSign sign steps = true := parameterForm_of_kind hform hmade
  obtain ⟨s, rfl, helement⟩ := List.map_eq_singleton_iff.1 (eq_of_beq hsign)
  obtain ⟨part, rfl, hstep⟩ := hmade.eq_singleton
  have hpart := List.mem_singleton_self part
  have hliteral := mem_elements_of_hasStep (hmade.hasStep hpart hstep)
  have hp := hmade.derived part hpart s hstep
  rw [helement] at hliteral hp
  have hwritten := (isToken_of_derived hp rfl).spelling.literal (literal_spec hliteral).1
  rw [Tree.text, Tree.span, hstart, hstop]
  exact hwritten

/-- Stars, and behind them a name. -/
structure Starred (t : Text) (n : Tree) (stars : Text) (between : List Tree) (name : Tree) :
    Prop where
  parts : ∃ star, n.children = star :: (between ++ [name]) ∧ star.info.named = false ∧
    star.text t = stars
  between : ∀ c ∈ between, IsLoose t c
  named : name.info.named = true
  kind : name.kind ∉ looseKinds
  opening : ∃ c, (name.text t).head? = some c ∧ Token.isOpening c = true

theorem starred_of_shows {stars : String} (hn : Shows grammar (lexicon t) n)
    (hkind : n.kind ∈ parameterKinds) (hform : (n.kind, isStarred stars) ∈ parameterForms) :
    ∃ between name, Starred t n stars.toList between name := by
  obtain ⟨steps, parts, here, hmade, -, hchildren, -⟩ := exists_madeOf_of_parameter hn hkind
  have hstarred := parameterForm_of_kind hform hmade
  unfold isStarred at hstarred
  split at hstarred
  case h_2 => cases hstarred
  case h_1 star name =>
  simp only [Bool.and_eq_true, beq_iff_eq, Option.isNone_iff_eq_none, Bool.not_eq_true',
    Option.any_eq_true, List.contains_eq_mem, decide_eq_false_iff_not] at hstarred
  obtain ⟨⟨⟨⟨⟨hliteral, hsign⟩, hshown⟩, hstarting⟩, hnamed⟩, kind, hname, hloose⟩ := hstarred
  obtain ⟨first, middle, last, rfl, hfirst, hlast, hmiddle⟩ := hmade.eq_cons_append
  have hfirstMem : first ∈ first :: (middle ++ [last]) := List.mem_cons_self
  have hlastMem : last ∈ first :: (middle ++ [last]) := by simp
  have hstarStep := hmade.hasStep hfirstMem hfirst
  have hstarDerived := hmade.derived first hfirstMem star hfirst
  have hnameStep := hmade.hasStep hlastMem hlast
  have hnameDerived := hmade.derived last hlastMem name hlast
  have hstarKind : shownKind? star = some stars := by
    rw [shownKind?, hshown, hliteral]
    exact if_neg (by rw [hsign]; exact Bool.false_ne_true)
  obtain ⟨starTree, hstarTrees, hstar⟩ := exists_tree hstarStep hstarDerived hstarKind
  obtain ⟨nameTree, hnameTrees, hnameTree⟩ := exists_tree hnameStep hnameDerived hname
  refine ⟨middle.flatMap Part.trees, nameTree, ⟨starTree, ?_, ?_, ?_⟩, ?_, ?_, ?_, ?_⟩
  · rw [hchildren, List.flatMap_cons, List.flatMap_append, List.flatMap_singleton, Part.trees,
      hfirst, Part.trees, hlast]
    exact congr (congrArg _ hstarTrees) (congrArg _ hnameTrees)
  · rw [hstar.named, showsNamed, hshown, hliteral]
    rfl
  · have hleaf : IsToken t stars first.piece :=
      isToken_of_derived hstarDerived (by rw [hliteral]; rfl)
    have helement := mem_elements_of_hasStep hstarStep
    rw [hliteral] at helement
    rw [Tree.text, Tree.span, hstar.start, hstar.stop]
    exact hleaf.spelling.literal (literal_spec helement).1
  · intro c hc
    obtain ⟨part, hpart, hc⟩ := List.mem_flatMap.1 hc
    have hstep := hmiddle part hpart
    obtain ⟨loose, htrees, hloose⟩ := exists_loose (hmade.extra part (by simp [hpart]) hstep) hstep
    rw [htrees] at hc
    exact List.mem_singleton.1 hc ▸ hloose
  · rw [hnameTree.named, hnamed]
  · rw [hnameTree.kind_eq]
    exact hloose
  · obtain ⟨hlt, hopening⟩ := startsToken_of_derived hnameDerived hstarting
      (not_mem_innerTokens hnameStep hstarting)
    rw [Tree.text, Tree.span, hnameTree.start, hnameTree.stop, Span.head?_slice hlt]
    exact hopening

end Glossator.Python
