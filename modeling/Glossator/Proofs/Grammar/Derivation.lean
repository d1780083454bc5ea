import Glossator.Proofs.Grammar.Stack
import Glossator.Proofs.Tree

/-!
# What a grammar derives

A construct is derived by a production: its parts are constructs of the steps of the production, in
order, with what may stand anywhere between them, neither before nor behind them. The trees of the
parts are the children of its node, so every node of a tree shows a derived construct.

* `Grammar.Derived`: the constructs that a grammar derives.
* `Grammar.Derived.exists_madeOf`: what a construct is made of.
* `Grammar.Derived.induction`: induction over the parts of constructs.
* `Grammar.Derived.every_shows`: the nodes in the tree of a construct.
* `Grammar.Derived.within`: the nodes of a construct stand in order inside it.
-/

set_option autoImplicit false

namespace Glossator.Grammar

/-- The tokens of a text by their names, and what may stand anywhere in it. -/
structure Lexicon where
  IsPlace : Place → Prop
  Leaf : String → Piece → Prop
  Extra : Piece → Prop
  leaf_placed : ∀ name p, Leaf name p → p.Placed IsPlace
  leaf_children : ∀ name p, Leaf name p → p.children = []
  extra_placed : ∀ p, Extra p → p.Placed IsPlace
  extra_children : ∀ p, Extra p → p.children = []

/-- A part of a construct, with its step; without one it may stand anywhere. -/
structure Part where
  piece : Piece
  step : Option Step

/-- The trees that a part contributes. -/
def Part.trees (part : Part) : List Tree :=
  part.piece.trees (part.step.bind Step.role) (part.step.bind Step.shownAs)

/-- The construct that is made of some parts. -/
def construct (showing : Showing) (parts : List Part) (here : Place) : Piece :=
  ⟨⟨showing.kind, true, none, (parts.head?.map fun part => part.piece.info.start).getD here,
    (parts.getLast?.map fun part => part.piece.info.stop).getD here⟩, showing.visible,
    parts.flatMap Part.trees⟩

/-- The parts stand one behind the other. -/
def PartsInOrder (parts : List Part) : Prop :=
  parts.Pairwise fun p q => p.piece.info.stop.offset ≤ q.piece.info.start.offset

/-- The constructs that a grammar derives from the tokens of a text. -/
inductive Derived (g : Description) (lexicon : Lexicon) : Element → Piece → Prop where
  | leaf {e : Element} {name : String} {p : Piece} :
      e.tokenName? = some name → lexicon.Leaf name p → Derived g lexicon e p
  | rule {e : Element} {productions : List (List Step)} {parts : List Part} {here : Place} :
      (e, productions) ∈ g.productions → parts.filterMap Part.step ∈ productions →
      (∀ part ∈ parts, ∀ s, part.step = some s → Derived g lexicon s.element part.piece) →
      (∀ part ∈ parts, part.step = none → lexicon.Extra part.piece) →
      (∀ part ∈ parts.head?, part.step ≠ none) → (∀ part ∈ parts.getLast?, part.step ≠ none) →
      PartsInOrder parts → lexicon.IsPlace here →
      Derived g lexicon e (construct (g.showing e) parts here)

/-- The parts are constructs of the steps of a production of the element, in order, with what may
stand anywhere between them. -/
structure MadeOf (g : Description) (lexicon : Lexicon) (e : Element) (steps : List Step)
    (parts : List Part) : Prop where
  production : ∃ productions, (e, productions) ∈ g.productions ∧ steps ∈ productions
  steps_eq : parts.filterMap Part.step = steps
  derived : ∀ part ∈ parts, ∀ s, part.step = some s → Derived g lexicon s.element part.piece
  extra : ∀ part ∈ parts, part.step = none → lexicon.Extra part.piece
  first : ∀ part ∈ parts.head?, part.step ≠ none
  last : ∀ part ∈ parts.getLast?, part.step ≠ none
  order : PartsInOrder parts

/-- The step occurs in a production. -/
def Description.HasStep (g : Description) (s : Step) : Prop :=
  ∃ x ∈ g.productions, ∃ steps ∈ x.2, s ∈ steps

/-- The node shows a construct. -/
inductive Shows (g : Description) (lexicon : Lexicon) : Tree → Prop where
  | visible {s : Step} {p : Piece} (role : Option String) :
      Derived g lexicon s.element p → g.HasStep s → p.visible = true →
      Shows g lexicon (.node { p.info with role := role } p.children)
  | shownAs {s : Step} {p : Piece} {kind : String} (role : Option String) :
      Derived g lexicon s.element p → g.HasStep s → s.shownAs = some kind →
      Shows g lexicon (.node { p.info with kind := kind, named := true, role := role } p.children)
  | extra {p : Piece} (role : Option String) : lexicon.Extra p → p.visible = true →
      Shows g lexicon (.node { p.info with role := role } p.children)

variable {g : Description} {lexicon : Lexicon} {e : Element} {p : Piece} {parts : List Part}
  {here : Place}

/-! ### Parts -/

/-- A construct of a rule is made of parts. -/
theorem Derived.exists_madeOf (h : Derived g lexicon e p) (he : e.tokenName? = none) :
    ∃ steps parts here, MadeOf g lexicon e steps parts ∧
      p = construct (g.showing e) parts here := by
  cases h with
  | leaf hname _ =>
    rw [he] at hname
    cases hname
  | rule hproductions hsteps hderived hextra hfirst hlast horder _ =>
    exact ⟨_, _, _, ⟨⟨_, hproductions, hsteps⟩, rfl, hderived, hextra, hfirst, hlast, horder⟩, rfl⟩

namespace MadeOf

variable {steps : List Step} {part : Part} {s : Step}

/-- What is made of parts is a construct. -/
theorem derived_construct (h : MadeOf g lexicon e steps parts) (hhere : lexicon.IsPlace here) :
    Derived g lexicon e (construct (g.showing e) parts here) := by
  obtain ⟨productions, hproductions, hsteps⟩ := h.production
  exact .rule hproductions (h.steps_eq ▸ hsteps) h.derived h.extra h.first h.last h.order hhere

theorem mem_steps (h : MadeOf g lexicon e steps parts) (hpart : part ∈ parts)
    (hs : part.step = some s) : s ∈ steps :=
  h.steps_eq ▸ List.mem_filterMap.2 ⟨part, hpart, hs⟩

theorem hasStep (h : MadeOf g lexicon e steps parts) (hpart : part ∈ parts)
    (hs : part.step = some s) : g.HasStep s := by
  obtain ⟨productions, hproductions, hsteps⟩ := h.production
  exact ⟨_, hproductions, _, hsteps, h.mem_steps hpart hs⟩

/-- Every step has a part. -/
theorem exists_part (h : MadeOf g lexicon e steps parts) (hs : s ∈ steps) :
    ∃ part ∈ parts, part.step = some s := by
  rw [← h.steps_eq] at hs
  exact List.mem_filterMap.1 hs

/-- The last part is one of the last step. -/
theorem exists_last (h : MadeOf g lexicon e steps parts) (hs : steps.getLast? = some s) :
    ∃ front part, parts = front ++ [part] ∧ part.step = some s ∧
      front.filterMap Part.step = steps.dropLast := by
  rcases List.eq_nil_or_concat parts with rfl | ⟨front, part, rfl⟩
  · rw [← h.steps_eq] at hs
    cases hs
  rw [List.concat_eq_append] at h
  cases hstep : part.step with
  | none => exact absurd hstep (h.last part (by simp))
  | some s' =>
    have hsteps : front.filterMap Part.step ++ [s'] = steps := by
      rw [← h.steps_eq, List.filterMap_append, List.filterMap_cons_some hstep, List.filterMap_nil]
    rw [← hsteps, List.getLast?_concat] at hs
    cases hs
    exact ⟨front, part, List.concat_eq_append, hstep, by rw [← hsteps, List.dropLast_concat]⟩

/-- The first part is one of the first step. -/
theorem exists_first (h : MadeOf g lexicon e (s :: steps) parts) :
    ∃ part rest, parts = part :: rest ∧ part.step = some s ∧ rest.filterMap Part.step = steps := by
  obtain ⟨front, part, rest, rfl, hfront, hstep, hrest⟩ :=
    List.filterMap_eq_cons_iff.1 h.steps_eq
  cases front with
  | nil => exact ⟨part, rest, rfl, hstep, hrest⟩
  | cons first front => exact absurd (hfront first List.mem_cons_self) (h.first first rfl)

/-- Nothing stands behind the last part of a step. -/
theorem eq_nil_of_loose (front : List Part) {behind : List Part}
    (h : MadeOf g lexicon e steps (front ++ behind)) (hbehind : ∀ part ∈ behind, part.step = none) :
    behind = [] := by
  rcases List.eq_nil_or_concat behind with rfl | ⟨init, last, rfl⟩
  · rfl
  · rw [List.concat_eq_append] at h hbehind
    have hlast : (front ++ (init ++ [last])).getLast? = some last := by
      rw [← List.append_assoc, List.getLast?_concat]
    exact absurd (hbehind last (by simp)) (h.last last hlast)

/-- A construct of one step is made of one part. -/
theorem eq_singleton (h : MadeOf g lexicon e [s] parts) :
    ∃ part, parts = [part] ∧ part.step = some s := by
  obtain ⟨first, rest, rfl, hfirst, hrest⟩ := h.exists_first
  have hnil := eq_nil_of_loose [first] h (List.filterMap_eq_nil_iff.1 hrest)
  exact ⟨first, by rw [hnil], hfirst⟩

/-- A construct of two steps is made of two parts, with what may stand anywhere between. -/
theorem eq_cons_append {s' : Step} (h : MadeOf g lexicon e [s, s'] parts) :
    ∃ first between last, parts = first :: (between ++ [last]) ∧ first.step = some s ∧
      last.step = some s' ∧ ∀ part ∈ between, part.step = none := by
  obtain ⟨first, rest, rfl, hfirst, hrest⟩ := h.exists_first
  obtain ⟨between, last, behind, rfl, hbetween, hlast, hbehind⟩ :=
    List.filterMap_eq_cons_iff.1 hrest
  have hmade : MadeOf g lexicon e [s, s'] (first :: (between ++ [last]) ++ behind) := by
    simpa using h
  have hnil := eq_nil_of_loose _ hmade (List.filterMap_eq_nil_iff.1 hbehind)
  exact ⟨first, between, last, by rw [hnil], hfirst, hlast, hbetween⟩

/-- A step has a part behind those of the steps before it. -/
theorem exists_split {before behind : List Step}
    (h : MadeOf g lexicon e (before ++ s :: behind) parts) :
    ∃ front part rest, parts = front ++ part :: rest ∧ part.step = some s ∧
      front.filterMap Part.step = before := by
  obtain ⟨front, rest, rfl, hfront, hrest⟩ := List.filterMap_eq_append_iff.1 h.steps_eq
  obtain ⟨between, part, rest, rfl, hbetween, hstep, -⟩ := List.filterMap_eq_cons_iff.1 hrest
  refine ⟨front ++ between, part, rest, by simp, hstep, ?_⟩
  rw [List.filterMap_append, hfront, List.filterMap_eq_nil_iff.2 hbetween, List.append_nil]

end MadeOf

/-- What holds of the tokens, and of a construct if it holds of its parts with a step, holds of
every construct. -/
@[elab_as_elim]
theorem Derived.induction {motive : (e : Element) → (p : Piece) → Derived g lexicon e p → Prop}
    (leaf : ∀ {e name p} (hname : e.tokenName? = some name) (hleaf : lexicon.Leaf name p),
      motive e p (.leaf hname hleaf))
    (made : ∀ {e steps parts here} (hmade : MadeOf g lexicon e steps parts)
      (hhere : lexicon.IsPlace here),
      (∀ part (hpart : part ∈ parts) s (hs : part.step = some s),
        motive s.element part.piece (hmade.derived part hpart s hs)) →
        motive e (construct (g.showing e) parts here) (hmade.derived_construct hhere))
    (h : Derived g lexicon e p) : motive e p h := by
  induction h with
  | leaf hname hleaf => exact leaf hname hleaf
  | rule hproductions hsteps hderived hextra hfirst hlast horder hhere ih =>
    exact made ⟨⟨_, hproductions, hsteps⟩, rfl, hderived, hextra, hfirst, hlast, horder⟩ hhere ih

/-! ### Places -/

section Order

variable {α : Type} {piece : α → Piece} {IsPlace : Place → Prop} {items : List α} {a : α}

theorem start_le_of_head? (hplaced : ∀ a ∈ items, (piece a).Placed IsPlace)
    (horder : items.Pairwise fun a b =>
      (piece a).info.stop.offset ≤ (piece b).info.start.offset)
    {first : α} (hfirst : items.head? = some first) (ha : a ∈ items) :
    (piece first).info.start.offset ≤ (piece a).info.start.offset := by
  cases items with
  | nil => cases ha
  | cons b rest =>
    cases hfirst
    rcases List.mem_cons.1 ha with rfl | hrest
    · exact le_rfl
    · exact (hplaced first List.mem_cons_self).le.trans ((List.pairwise_cons.1 horder).1 a hrest)

theorem stop_le_of_getLast? (hplaced : ∀ a ∈ items, (piece a).Placed IsPlace)
    (horder : items.Pairwise fun a b =>
      (piece a).info.stop.offset ≤ (piece b).info.start.offset)
    {last : α} (hlast : items.getLast? = some last) (ha : a ∈ items) :
    (piece a).info.stop.offset ≤ (piece last).info.stop.offset := by
  rcases List.eq_nil_or_concat items with rfl | ⟨front, b, rfl⟩
  · cases ha
  rw [List.concat_eq_append] at *
  rw [List.getLast?_concat] at hlast
  cases hlast
  rcases List.mem_append.1 ha with hfront | hb
  · have hle := (List.pairwise_append.1 horder).2.2 a hfront last (List.mem_singleton_self last)
    exact hle.trans (hplaced last (List.mem_append_right _ (List.mem_singleton_self last))).le
  · rw [List.mem_singleton.1 hb]

end Order

/-- A construct reaches from its first to its last part. -/
theorem construct_bounds (hparts : ∀ part ∈ parts, part.piece.Placed lexicon.IsPlace)
    (horder : PartsInOrder parts) (showing : Showing) (here : Place) {part : Part}
    (hpart : part ∈ parts) :
    (construct showing parts here).info.start.offset ≤ part.piece.info.start.offset ∧
      part.piece.info.stop.offset ≤ (construct showing parts here).info.stop.offset := by
  unfold construct
  cases hhead : parts.head? with
  | none =>
    rw [List.head?_eq_none_iff.1 hhead] at hpart
    cases hpart
  | some first =>
    cases hlast : parts.getLast? with
    | none =>
      rw [List.getLast?_eq_none_iff.1 hlast] at hpart
      cases hpart
    | some last =>
      exact ⟨start_le_of_head? hparts horder hhead hpart,
        stop_le_of_getLast? hparts horder hlast hpart⟩

theorem placed_construct (hparts : ∀ part ∈ parts, part.piece.Placed lexicon.IsPlace)
    (horder : PartsInOrder parts) (hhere : lexicon.IsPlace here) (showing : Showing) :
    (construct showing parts here).Placed lexicon.IsPlace := by
  refine ⟨?_, ?_, ?_⟩
  · unfold construct
    cases hhead : parts.head? with
    | none => exact hhere
    | some first => exact (hparts first (List.mem_of_head? hhead)).start
  · unfold construct
    cases hlast : parts.getLast? with
    | none => exact hhere
    | some last => exact (hparts last (List.mem_of_getLast? hlast)).stop
  · cases parts with
    | nil => exact le_rfl
    | cons first rest =>
      have hbounds := construct_bounds hparts horder showing here List.mem_cons_self
      exact (hparts first List.mem_cons_self).le.trans hbounds.2

theorem Derived.placed (h : Derived g lexicon e p) : p.Placed lexicon.IsPlace := by
  induction h with
  | leaf _ hleaf => exact lexicon.leaf_placed _ _ hleaf
  | @rule e productions parts here _ _ _ hextra _ _ horder hhere ih =>
    refine placed_construct ?_ horder hhere _
    intro part hpart
    cases hstep : part.step with
    | none => exact lexicon.extra_placed _ (hextra part hpart hstep)
    | some s => exact ih part hpart s hstep

theorem MadeOf.placed {steps : List Step} (h : MadeOf g lexicon e steps parts) :
    ∀ part ∈ parts, part.piece.Placed lexicon.IsPlace := by
  intro part hpart
  cases hstep : part.step with
  | none => exact lexicon.extra_placed _ (h.extra part hpart hstep)
  | some s => exact (h.derived part hpart s hstep).placed

/-- A part stands within what it is part of. -/
theorem MadeOf.bounds {steps : List Step} {part : Part} (h : MadeOf g lexicon e steps parts)
    (showing : Showing) (here : Place) (hpart : part ∈ parts) :
    (construct showing parts here).info.start.offset ≤ part.piece.info.start.offset ∧
      part.piece.info.stop.offset ≤ (construct showing parts here).info.stop.offset :=
  construct_bounds h.placed h.order showing here hpart

/-- The trees stand in order between two offsets. -/
structure TreesWithin (trees : List Tree) (start stop : Nat) : Prop where
  inside : ∀ c ∈ trees, start ≤ c.start.offset ∧ c.stop.offset ≤ stop
  ordered : trees.Pairwise fun a b => a.stop.offset ≤ b.start.offset

/-- The children of a piece stand in order inside it. -/
def Piece.Within (p : Piece) : Prop :=
  TreesWithin p.children p.info.start.offset p.info.stop.offset

theorem Piece.Within.trees (h : p.Within) (role shownAs : Option String) :
    TreesWithin (p.trees role shownAs) p.info.start.offset p.info.stop.offset := by
  have hself (info : NodeInfo) (hstart : info.start = p.info.start)
      (hstop : info.stop = p.info.stop) :
      TreesWithin [.node info p.children] p.info.start.offset p.info.stop.offset := by
    refine ⟨?_, List.pairwise_singleton _ _⟩
    intro c hc
    rw [List.mem_singleton.1 hc]
    exact ⟨(congrArg Place.offset hstart).ge, (congrArg Place.offset hstop).le⟩
  unfold Piece.trees
  cases shownAs with
  | some kind => exact hself _ rfl rfl
  | none =>
    by_cases hvisible : p.visible = true
    · rw [if_pos hvisible]
      exact hself _ rfl rfl
    · rw [if_neg hvisible]
      have hspan (c : Tree) : (if c.info.role.isSome then c else c.withRole role).start = c.start ∧
          (if c.info.role.isSome then c else c.withRole role).stop = c.stop := by
        split <;> exact ⟨rfl, rfl⟩
      constructor
      · intro c hc
        obtain ⟨d, hd, rfl⟩ := List.mem_map.1 hc
        rw [(hspan d).1, (hspan d).2]
        exact h.inside d hd
      · rw [List.pairwise_map]
        refine h.ordered.imp ?_
        intro a b hab
        rw [(hspan a).2, (hspan b).1]
        exact hab

theorem treesWithin_flatMap {α : Type} {items : List α} {piece : α → Piece}
    {trees : α → List Tree} {start stop : Nat}
    (horder : items.Pairwise fun a b => (piece a).info.stop.offset ≤ (piece b).info.start.offset)
    (hbounds : ∀ a ∈ items,
      start ≤ (piece a).info.start.offset ∧ (piece a).info.stop.offset ≤ stop)
    (htrees : ∀ a ∈ items,
      TreesWithin (trees a) (piece a).info.start.offset (piece a).info.stop.offset) :
    TreesWithin (items.flatMap trees) start stop := by
  constructor
  · intro c hc
    obtain ⟨a, ha, hc⟩ := List.mem_flatMap.1 hc
    obtain ⟨hstart, hstop⟩ := hbounds a ha
    obtain ⟨hstart', hstop'⟩ := (htrees a ha).inside c hc
    exact ⟨hstart.trans hstart', hstop'.trans hstop⟩
  · rw [List.pairwise_flatMap]
    refine ⟨fun a ha => (htrees a ha).ordered, horder.imp_of_mem ?_⟩
    intro a b ha hb hle c hc d hd
    exact ((htrees a ha).inside c hc).2.trans (hle.trans ((htrees b hb).inside d hd).1)

theorem within_of_no_children (h : p.children = []) : p.Within := by
  unfold Piece.Within
  rw [h]
  exact ⟨fun c hc => absurd hc List.not_mem_nil, .nil⟩

/-- The nodes of a construct stand in order inside it. -/
theorem Derived.within (h : Derived g lexicon e p) : p.Within := by
  induction h with
  | leaf _ hleaf => exact within_of_no_children (lexicon.leaf_children _ _ hleaf)
  | @rule e productions parts here _ _ hsteps hextra _ _ horder _ ih =>
    have hparts (part : Part) (hpart : part ∈ parts) :
        part.piece.Placed lexicon.IsPlace ∧ part.piece.Within := by
      cases hstep : part.step with
      | none =>
        have hp := hextra part hpart hstep
        exact ⟨lexicon.extra_placed _ hp, within_of_no_children (lexicon.extra_children _ hp)⟩
      | some s => exact ⟨(hsteps part hpart s hstep).placed, ih part hpart s hstep⟩
    exact treesWithin_flatMap horder
      (fun part => construct_bounds (fun part hpart => (hparts part hpart).1) horder _ here)
      fun part hpart => (hparts part hpart).2.trees _ _

/-! ### Nodes -/

theorem Shows.withRole {n : Tree} (h : Shows g lexicon n) (role : Option String) :
    Shows g lexicon (n.withRole role) := by
  cases h with
  | visible _ hderived hstep hvisible => exact .visible role hderived hstep hvisible
  | shownAs _ hderived hstep hkind => exact .shownAs role hderived hstep hkind
  | extra _ hextra hvisible => exact .extra role hextra hvisible

theorem every_shows_withRole {n : Tree} (h : n.Every (Shows g lexicon)) (role : Option String) :
    (n.withRole role).Every (Shows g lexicon) :=
  .mk (h.here.withRole role) fun _ hc => h.child hc

theorem every_shows_of_part {s : Step} (hderived : Derived g lexicon s.element p)
    (hstep : g.HasStep s) (hchildren : ∀ c ∈ p.children, c.Every (Shows g lexicon)) :
    ∀ c ∈ p.trees s.role s.shownAs, c.Every (Shows g lexicon) := by
  intro c hc
  unfold Piece.trees at hc
  cases hshown : s.shownAs with
  | some kind =>
    rw [hshown] at hc
    rw [List.mem_singleton.1 hc]
    exact .mk (.shownAs s.role hderived hstep hshown) hchildren
  | none =>
    rw [hshown] at hc
    by_cases hvisible : p.visible = true
    · rw [if_pos hvisible] at hc
      rw [List.mem_singleton.1 hc]
      exact .mk (.visible s.role hderived hstep hvisible) hchildren
    · rw [if_neg hvisible] at hc
      obtain ⟨d, hd, rfl⟩ := List.mem_map.1 hc
      split
      · exact hchildren d hd
      · exact every_shows_withRole (hchildren d hd) s.role

theorem every_shows_of_extra (hextra : lexicon.Extra p) :
    ∀ c ∈ p.trees none none, c.Every (Shows g lexicon) := by
  intro c hc
  have hnone := lexicon.extra_children p hextra
  unfold Piece.trees at hc
  by_cases hvisible : p.visible = true
  · rw [if_pos hvisible] at hc
    rw [List.mem_singleton.1 hc]
    refine .mk (.extra none hextra hvisible) ?_
    intro d hd
    rw [Tree.children, hnone] at hd
    cases hd
  · rw [if_neg hvisible, hnone] at hc
    cases hc

/-- Every node in the tree of a construct shows a construct. -/
theorem Derived.every_shows (h : Derived g lexicon e p) :
    ∀ c ∈ p.children, c.Every (Shows g lexicon) := by
  induction h with
  | leaf _ hleaf =>
    intro c hc
    rw [lexicon.leaf_children _ _ hleaf] at hc
    cases hc
  | @rule e productions parts here hproductions hsteps hderived hextra _ _ _ _ ih =>
    intro c hc
    obtain ⟨part, hpart, hc⟩ := List.mem_flatMap.1 hc
    cases hstep : part.step with
    | none =>
      rw [Part.trees, hstep] at hc
      exact every_shows_of_extra (hextra part hpart hstep) c hc
    | some s =>
      rw [Part.trees, hstep] at hc
      have hmem : g.HasStep s :=
        ⟨_, hproductions, _, hsteps, List.mem_filterMap.2 ⟨part, hpart, hstep⟩⟩
      exact every_shows_of_part (hderived part hpart s hstep) hmem (ih part hpart s hstep) c hc

/-- A node that shows a construct stands between two places, its children in order inside. -/
theorem Shows.placed {n : Tree} (h : Shows g lexicon n) : lexicon.IsPlace n.start ∧
    lexicon.IsPlace n.stop ∧ n.start.offset ≤ n.stop.offset ∧
      TreesWithin n.children n.start.offset n.stop.offset := by
  have hpiece {p : Piece} (hp : p.Placed lexicon.IsPlace) (hwithin : p.Within) :
      lexicon.IsPlace p.info.start ∧ lexicon.IsPlace p.info.stop ∧
        p.info.start.offset ≤ p.info.stop.offset ∧
        TreesWithin p.children p.info.start.offset p.info.stop.offset :=
    ⟨hp.start, hp.stop, hp.le, hwithin⟩
  cases h with
  | visible _ hderived _ _ => exact hpiece hderived.placed hderived.within
  | shownAs _ hderived _ _ => exact hpiece hderived.placed hderived.within
  | extra _ hextra _ =>
    exact hpiece (lexicon.extra_placed _ hextra)
      (within_of_no_children (lexicon.extra_children _ hextra))

end Glossator.Grammar
