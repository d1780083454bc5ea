import Glossator.Proofs.Grammar.Derivation
import Glossator.Proofs.Grammar.Parser

/-!
# What the numbers of a table stand for

The numbers of tokens and rules in a table are their places in the grammar, so what a table makes of
numbered steps is what the grammar derives.

* `Grammar.constructs_ofDescription`: the constructs of a table are derived by its grammar.
* `Grammar.derived_of_parse?`: so are the nodes of a parsed tree.
-/

set_option autoImplicit false

namespace Glossator.Grammar

open Std

/-! ### Places in a list as numbers -/

theorem nodup_eraseDups {α : Type} [BEq α] [LawfulBEq α] (l : List α) : l.eraseDups.Nodup := by
  induction hlength : l.length using Nat.strong_induction_on generalizing l with
  | _ n ih =>
    cases l with
    | nil => simp
    | cons a l =>
      rw [List.eraseDups_cons, List.nodup_cons, List.mem_eraseDups]
      refine ⟨by simp, ih _ ?_ _ rfl⟩
      rw [← hlength, List.length_cons]
      exact Nat.lt_succ_of_le (List.length_filter_le _ _)

/-- The number of a member of a list is its place. -/
theorem getElem?_getD_ofList {α : Type} [BEq α] [LawfulBEq α] [Hashable α] {l : List α}
    (hnodup : l.Nodup) {a : α} (ha : a ∈ l) :
    l[(HashMap.ofList l.zipIdx).getD a 0]? = some a := by
  obtain ⟨n, hn⟩ := List.mem_iff_getElem?.1 ha
  have hpairwise : l.zipIdx.Pairwise fun x y => (x.1 == y.1) = false := by
    have hne : (l.zipIdx.map Prod.fst).Pairwise (· ≠ ·) := by
      rw [List.zipIdx_map_fst]
      exact hnodup
    exact (List.pairwise_map.1 hne).imp fun h => beq_false_of_ne h
  have hmem : (a, n) ∈ l.zipIdx := List.mk_mem_zipIdx_iff_getElem?.2 hn
  rw [HashMap.getD_ofList_of_mem (BEq.refl a) hpairwise hmem]
  exact hn

/-! ### Parts of a production -/

/-- The parts that some entries make with the steps of a production. -/
def partsOf : List Frame → List Step → List Part
  | [], _ => []
  | f :: rest, steps =>
    if f.anywhere then ⟨f.piece, none⟩ :: partsOf rest steps
    else match steps with
      | [] => ⟨f.piece, none⟩ :: partsOf rest []
      | s :: steps => ⟨f.piece, some s⟩ :: partsOf rest steps

theorem map_piece_partsOf (frames : List Frame) (steps : List Step) :
    (partsOf frames steps).map Part.piece = frames.map Frame.piece := by
  induction frames generalizing steps with
  | nil => rfl
  | cons f rest ih =>
    unfold partsOf
    by_cases hf : f.anywhere = true
    · rw [if_pos hf, List.map_cons, ih, List.map_cons]
    · rw [if_neg hf]
      cases steps <;> rw [List.map_cons, ih, List.map_cons]

/-- The trees of numbered steps are those of the parts. -/
theorem assemble_eq (numbers : Numbers) (frames : List Frame) (steps : List Step) :
    assemble frames (steps.map numbers.step) = (partsOf frames steps).flatMap Part.trees := by
  induction frames generalizing steps with
  | nil => rfl
  | cons f rest ih =>
    unfold assemble partsOf
    by_cases hf : f.anywhere = true
    · rw [if_pos hf, if_pos hf, List.flatMap_cons, ih]
      rfl
    · rw [if_neg hf, if_neg hf]
      cases steps with
      | nil =>
        rw [List.flatMap_cons, ← ih]
        rfl
      | cons s steps =>
        rw [List.flatMap_cons, ← ih]
        rfl

/-- Entries that fill the steps of a production are parts of it. -/
theorem partsOf_spec {P : Symbol → Piece → Prop} {Extra : Piece → Prop} (numbers : Numbers)
    {frames : List Frame} {steps : List Step}
    (h : Fills P Extra frames (steps.map numbers.step)) :
    (partsOf frames steps).filterMap Part.step = steps ∧
      (partsOf frames steps).map (fun part => part.step.isSome) =
        frames.map (fun f => !f.anywhere) ∧
      ∀ part ∈ partsOf frames steps,
        (∀ s, part.step = some s → P (numbers.symbol s.element) part.piece) ∧
        (part.step = none → Extra part.piece) := by
  induction frames generalizing steps with
  | nil =>
    have hnil : steps = [] := by simpa [own] using h.own
    rw [hnil]
    exact ⟨rfl, rfl, fun part hpart => absurd hpart List.not_mem_nil⟩
  | cons f rest ih =>
    have hextra : ∀ g ∈ rest, g.anywhere = true → Extra g.piece :=
      fun g hg => h.extra g (List.mem_cons_of_mem f hg)
    have hown := h.own
    unfold own at hown
    unfold partsOf
    by_cases hf : f.anywhere = true
    · rw [List.filter_cons_of_neg (by simp [hf])] at hown
      obtain ⟨hsteps, hsome, hparts⟩ := ih ⟨hown, hextra⟩
      rw [if_pos hf]
      refine ⟨hsteps, by simp [hsome, hf], ?_⟩
      intro part hpart
      rcases List.mem_cons.1 hpart with rfl | hpart
      · exact ⟨fun _ hs => (by cases hs), fun _ => h.extra f List.mem_cons_self hf⟩
      · exact hparts part hpart
    · rw [List.filter_cons_of_pos (by simp [hf])] at hown
      rw [if_neg hf]
      cases steps with
      | nil => cases hown
      | cons s steps =>
        obtain ⟨hs, hown⟩ := List.forall₂_cons.1 hown
        obtain ⟨hsteps, hsome, hparts⟩ := ih ⟨hown, hextra⟩
        refine ⟨by rw [List.filterMap_cons, hsteps], by simp [hsome, hf], ?_⟩
        intro part hpart
        rcases List.mem_cons.1 hpart with rfl | hpart
        · exact ⟨fun _ hs' => (by cases hs'; exact hs), fun hnone => (by cases hnone)⟩
        · exact hparts part hpart

/-- The part of an entry that is part of the production has a step. -/
theorem ne_none_of_map_isSome {found : Option Part} {frame : Option Frame}
    (h : found.map (fun part => part.step.isSome) = frame.map fun f => !f.anywhere)
    (hframe : ∀ f ∈ frame, f.anywhere = false) {part : Part} (hpart : part ∈ found) :
    part.step ≠ none := by
  rw [Option.mem_def] at hpart
  rw [hpart] at h
  cases frame with
  | none => cases h
  | some f =>
    have hsome : part.step.isSome = !f.anywhere := Option.some.inj h
    rw [hframe f rfl] at hsome
    exact Option.isSome_iff_ne_none.1 hsome

theorem partsInOrder_partsOf {frames : List Frame} (h : InOrder frames) (steps : List Step) :
    PartsInOrder (partsOf frames steps) := by
  have hpieces : ((partsOf frames steps).map Part.piece).Pairwise
      fun p q => p.info.stop.offset ≤ q.info.start.offset := by
    rw [map_piece_partsOf, List.pairwise_map]
    exact h
  exact List.pairwise_map.1 hpieces

/-! ### Tokens -/

/-- The name of the token with a number. -/
def Description.tokenName (g : Description) (number : Nat) : String :=
  (Productions.tokens g.productions)[number]?.getD ""

section Tokens

variable {g : Description} {name : String}

theorem mem_tokens {e : Element} (h : e ∈ Productions.elements g.productions)
    (hname : e.tokenName? = some name) : name ∈ Productions.tokens g.productions :=
  List.mem_eraseDups.2 (List.mem_cons_of_mem _ (List.mem_filterMap.2 ⟨e, h, hname⟩))

theorem endOfText_mem_tokens (g : Description) : endOfText ∈ Productions.tokens g.productions :=
  List.mem_eraseDups.2 List.mem_cons_self

theorem getElem?_tokens (g : Description) (number : Nat) :
    (Table.ofDescription g).tokens[number]?.getD "" = g.tokenName number := by
  have htokens : (Table.ofDescription g).tokens = (Productions.tokens g.productions).toArray := rfl
  rw [htokens, List.getElem?_toArray, Description.tokenName]

/-- The number of a token is that of its name. -/
theorem tokenName_number (h : name ∈ Productions.tokens g.productions) :
    g.tokenName ((Table.ofDescription g).number name) = name := by
  have hnodup : (Productions.tokens g.productions).Nodup := nodup_eraseDups _
  have hnumber : (Table.ofDescription g).number name =
      (Std.HashMap.ofList (Productions.tokens g.productions).zipIdx).getD name 0 := rfl
  rw [hnumber, Description.tokenName, getElem?_getD_ofList hnodup h, Option.getD_some]

/-- A token of fixed spelling is a literal of the grammar. -/
theorem exists_literal_of_mem_literals {number : Nat} {spelling : Text}
    (h : (number, spelling) ∈ (Table.ofDescription g).literals) :
    ∃ name, Element.literal name ∈ Productions.elements g.productions ∧
      (Table.ofDescription g).number name = number ∧ name.toList = spelling := by
  unfold Table.ofDescription at h
  simp only [List.mem_eraseDups] at h
  obtain ⟨e, he, hliteral⟩ := List.mem_filterMap.1 h
  cases e with
  | token => cases hliteral
  | rule => cases hliteral
  | again => cases hliteral
  | literal name =>
    cases hliteral
    exact ⟨name, he, rfl, rfl⟩

end Tokens

/-! ### Regular grammars -/

/-- Every element has its productions in one place, there are some for every element, and no
production is too long. -/
structure Description.Regular (g : Description) : Prop where
  nodup : (g.productions.map Prod.fst).Nodup
  closed : ∀ x ∈ g.productions, ∀ steps ∈ x.2, ∀ s ∈ steps, s.element.tokenName? = none →
    s.element ∈ g.productions.map Prod.fst
  first : ∃ x, g.productions[0]? = some x ∧ [] ∈ x.2
  short : ∀ x ∈ g.productions, ∀ steps ∈ x.2, steps.length < Item.width

variable {g : Description} {lexicon : Lexicon}

/-- What a symbol of the table stands for. -/
def Means (g : Description) (lexicon : Lexicon) : Symbol → Piece → Prop
  | .token k, p => lexicon.Leaf (g.tokenName k) p
  | .rule n, p => ∃ x, g.productions[n]? = some x ∧ Derived g lexicon x.1 p

/-- What the symbol of an element stands for is derived from the element. -/
theorem derived_of_means (hg : g.Regular) {s : Step} (hs : g.HasStep s) {p : Piece}
    (h : Means g lexicon ((Productions.numbers g.productions).symbol s.element) p) :
    Derived g lexicon s.element p := by
  obtain ⟨x, hx, steps, hsteps, hmem⟩ := hs
  unfold Numbers.symbol at h
  cases hname : s.element.tokenName? with
  | some name =>
    rw [hname] at h
    have helement : s.element ∈ Productions.elements g.productions :=
      List.mem_flatMap.2 ⟨x, hx, List.mem_flatMap.2 ⟨steps, hsteps, List.mem_map_of_mem hmem⟩⟩
    have htoken := tokenName_number (mem_tokens helement hname)
    refine .leaf hname ?_
    rw [← htoken]
    exact h
  | none =>
    rw [hname] at h
    obtain ⟨y, hy, hderived⟩ := h
    have hplace := getElem?_getD_ofList hg.nodup (hg.closed x hx steps hsteps s hmem hname)
    rw [List.getElem?_map] at hplace
    simp only [Productions.numbers] at hy
    rw [hy] at hplace
    rw [← Option.some.inj hplace]
    exact hderived

/-! ### Numbered productions -/

/-- A numbered production is one of the grammar, unless its number is that of no production. -/
theorem production_cases (g : Description) {production : Nat}
    (hne : production ≠ (Table.ofDescription g).whole) :
    (∃ x ∈ g.productions, ∃ steps ∈ x.2,
      ((Table.ofDescription g).steps production).toList =
          steps.map (Productions.numbers g.productions).step ∧
        (Table.ofDescription g).produces production =
          (Productions.numbers g.productions).rules.getD x.1 0) ∨
      ((Table.ofDescription g).steps production).toList = [] ∧
        (Table.ofDescription g).produces production = 0 := by
  set numbered := Productions.numbered g.productions (Productions.numbers g.productions)
    with hnumbered
  have hget : (Table.ofDescription g).productions[production]? = numbered[production]? := by
    have hpush : (Table.ofDescription g).productions = numbered.toArray.push
        ⟨(g.productions : Productions).length, #[⟨.rule 0, 0, none, none, none⟩]⟩ := rfl
    have hwhole : (Table.ofDescription g).whole = numbered.toArray.size := rfl
    rw [hpush, Array.getElem?_push, if_neg (hwhole ▸ hne), List.getElem?_toArray]
  unfold Table.steps Table.produces
  rw [hget]
  cases hproduction : numbered[production]? with
  | none => exact .inr ⟨rfl, rfl⟩
  | some found =>
    obtain ⟨x, hx, hfound⟩ := List.mem_flatMap.1 (List.mem_of_getElem? hproduction)
    obtain ⟨steps, hsteps, rfl⟩ := List.mem_map.1 hfound
    exact .inl ⟨x, hx, steps, hsteps, rfl, rfl⟩

theorem narrow_ofDescription (hg : g.Regular) : (Table.ofDescription g).Narrow := by
  intro production
  by_cases hwhole : production = (Table.ofDescription g).whole
  · have hsteps : (Table.ofDescription g).steps production =
        #[⟨.rule 0, 0, none, none, none⟩] := by
      rw [hwhole]
      unfold Table.steps Table.ofDescription
      simp
    rw [hsteps]
    decide
  · rw [← Array.length_toList]
    rcases production_cases g hwhole with ⟨x, hx, steps, hsteps, heq, -⟩ | ⟨hnil, -⟩
    · rw [heq, List.length_map]
      exact hg.short x hx steps hsteps
    · rw [hnil]
      decide

/-- What the table shows of a rule is what the grammar does. -/
theorem construct_partsOf (g : Description) {production n : Nat} {x : Element × List (List Step)}
    (hx : g.productions[n]? = some x)
    (hproduces : (Table.ofDescription g).produces production = n) {steps : List Step}
    (hsteps : ((Table.ofDescription g).steps production).toList =
      steps.map (Productions.numbers g.productions).step) (frames : List Frame) (here : Place) :
    (Table.ofDescription g).construct production frames here =
      construct (g.showing x.1) (partsOf frames steps) here := by
  have hshowing : (Table.ofDescription g).showings[n]? = some (g.showing x.1) := by
    have hshowings : (Table.ofDescription g).showings =
        (g.productions.map fun x => g.showing x.1).toArray := rfl
    rw [hshowings, List.getElem?_toArray, List.getElem?_map, hx]
    rfl
  have hpieces := map_piece_partsOf frames steps
  have hhead : (partsOf frames steps).head?.map (fun part => part.piece.info.start) =
      frames.head?.map fun f => f.piece.info.start := by
    have hmap := congrArg (fun pieces => pieces.head?.map fun p : Piece => p.info.start) hpieces
    simpa [List.head?_map, Function.comp_def] using hmap
  have hlast : (partsOf frames steps).getLast?.map (fun part => part.piece.info.stop) =
      frames.getLast?.map fun f => f.piece.info.stop := by
    have hmap := congrArg (fun pieces => pieces.getLast?.map fun p : Piece => p.info.stop) hpieces
    simpa [List.getLast?_map, Function.comp_def] using hmap
  unfold Table.construct construct
  rw [hproduces, hshowing, hsteps, assemble_eq, hhead, hlast]
  rfl

/-- What the table makes of numbered steps is what the grammar derives. -/
theorem constructs_ofDescription (hg : g.Regular) :
    Constructs (Table.ofDescription g) lexicon.IsPlace lexicon.Extra (Means g lexicon) := by
  refine ⟨?_, lexicon.extra_placed, ?_⟩
  · intro symbol p h
    cases symbol with
    | token k => exact lexicon.leaf_placed _ _ h
    | rule n =>
      obtain ⟨x, -, hderived⟩ := h
      exact hderived.placed
  intro production frames here hne hfills horder hfirst hlast hhere
  obtain ⟨n, x, hx, hproduces, steps, hmem, hsteps⟩ : ∃ n x, g.productions[n]? = some x ∧
      (Table.ofDescription g).produces production = n ∧ ∃ steps ∈ x.2,
        ((Table.ofDescription g).steps production).toList =
          steps.map (Productions.numbers g.productions).step := by
    rcases production_cases g hne with ⟨x, hx, steps, hsteps, heq, hproduces⟩ | ⟨hnil, hproduces⟩
    · have hplace := getElem?_getD_ofList hg.nodup (List.mem_map_of_mem (f := Prod.fst) hx)
      rw [List.getElem?_map, Option.map_eq_some_iff] at hplace
      obtain ⟨y, hy, hfst⟩ := hplace
      obtain rfl : y = x :=
        List.inj_on_of_nodup_map hg.nodup (List.mem_of_getElem? hy) hx hfst
      exact ⟨_, y, hy, hproduces, steps, hsteps, heq⟩
    · obtain ⟨x, hx, hmem⟩ := hg.first
      exact ⟨0, x, hx, hproduces, [], hmem, hnil⟩
  rw [hproduces]
  refine ⟨x, hx, ?_⟩
  rw [hsteps] at hfills
  obtain ⟨hpartsSteps, hpartsSome, hparts⟩ := partsOf_spec _ hfills
  rw [construct_partsOf g hx hproduces hsteps]
  have hx' : x ∈ g.productions := List.mem_of_getElem? hx
  refine .rule hx' (hpartsSteps.symm ▸ hmem) ?_ ?_ ?_ ?_ (partsInOrder_partsOf horder steps) hhere
  · intro part hpart s hs
    refine derived_of_means hg ⟨x, hx', steps, hmem, ?_⟩ ((hparts part hpart).1 s hs)
    rw [← hpartsSteps]
    exact List.mem_filterMap.2 ⟨part, hpart, hs⟩
  · exact fun part hpart => (hparts part hpart).2
  · intro part hpart
    have hmap := congrArg List.head? hpartsSome
    rw [List.head?_map, List.head?_map] at hmap
    exact ne_none_of_map_isSome hmap hfirst hpart
  · intro part hpart
    have hmap := congrArg List.getLast? hpartsSome
    rw [List.getLast?_map, List.getLast?_map] at hmap
    exact ne_none_of_map_isSome hmap hlast hpart

/-! ### Parsed trees -/

/-- The root stands for the first rule, and everything below it shows derived constructs. -/
structure DerivedTree (g : Description) (lexicon : Lexicon) (tree : Tree) : Prop where
  kind : ∀ x, g.productions[0]? = some x → tree.kind = (g.showing x.1).kind
  start : lexicon.IsPlace tree.start
  stop : lexicon.IsPlace tree.stop
  le : tree.start.offset ≤ tree.stop.offset
  within : TreesWithin tree.children tree.start.offset tree.stop.offset
  every : ∀ c ∈ tree.children, c.Every (Shows g lexicon)

theorem means_children {symbol : Symbol} {p : Piece} (h : Means g lexicon symbol p) :
    p.Within ∧ ∀ c ∈ p.children, c.Every (Shows g lexicon) := by
  cases symbol with
  | token k =>
    have hnone := lexicon.leaf_children _ _ h
    refine ⟨within_of_no_children hnone, ?_⟩
    rw [hnone]
    exact fun c hc => absurd hc List.not_mem_nil
  | rule n =>
    obtain ⟨x, -, hderived⟩ := h
    exact ⟨hderived.within, hderived.every_shows⟩

/-- The trees of an entry in the tree of a whole text. -/
theorem entry_trees {a : Automaton} {s : Stack}
    (h : Stacked (Table.ofDescription g) (Means g lexicon) lexicon.Extra a s) {f : Frame}
    (hf : f ∈ s) :
    TreesWithin (if f.anywhere then f.piece.trees none none else f.piece.children)
        f.piece.info.start.offset f.piece.info.stop.offset ∧
      ∀ c ∈ (if f.anywhere then f.piece.trees none none else f.piece.children),
        c.Every (Shows g lexicon) := by
  induction h with
  | nil => cases hf
  | @extra f' s _ hanywhere _ hextra _ ih =>
    rcases List.mem_cons.1 hf with rfl | hf
    · rw [if_pos hanywhere]
      have hwithin := within_of_no_children (lexicon.extra_children _ hextra)
      exact ⟨hwithin.trees none none, every_shows_of_extra hextra⟩
    · exact ih hf
  | @step f' s _ _ hanywhere hmeans _ _ ih =>
    rcases List.mem_cons.1 hf with rfl | hf
    · rw [if_neg (by simp [hanywhere])]
      exact means_children hmeans
    · exact ih hf

/-- The tree of a text is derived by the grammar from what the lexer finds in the text. -/
theorem derivedTree_of_parse? {σ : Type} {lex : Lexer σ} {Ok : σ → Prop} (hg : g.Regular)
    (hlex : lex.Sound Ok lexicon.Extra (Means g lexicon)) {start : σ} (hstart : Ok start)
    {length : Nat} {tree : Tree}
    (h : parse? (Table.ofDescription g) lex start length = some tree) :
    DerivedTree g lexicon tree := by
  have hP : Constructs _ _ _ (Means g lexicon) := constructs_ofDescription hg
  obtain ⟨a, s, hs, hwhole⟩ := isWhole_of_parse? hP (narrow_ofDescription hg) hlex hstart h
  unfold wholeTree at hwhole
  have horder := hs.inOrder hP
  have hplaced : ∀ f ∈ s.reverse, f.piece.Placed lexicon.IsPlace :=
    fun f hf => hs.placed hP f (List.mem_reverse.1 hf)
  cases hfirst : s.reverse.head? with
  | none =>
    rw [hfirst] at hwhole
    cases hwhole
  | some first =>
    cases hlast : s.head? with
    | none =>
      rw [hfirst, hlast] at hwhole
      cases hwhole
    | some last =>
      rw [hfirst, hlast] at hwhole
      cases hwhole
      have hlast' : s.reverse.getLast? = some last := by rw [List.getLast?_reverse, hlast]
      have hmemFirst := List.mem_of_head? hfirst
      have hmemLast := List.mem_of_getLast? hlast'
      refine ⟨?_, (hplaced first hmemFirst).start, (hplaced last hmemLast).stop, ?_, ?_, ?_⟩
      · intro x hx
        have hshowings : (Table.ofDescription g).showings =
            (g.productions.map fun x => g.showing x.1).toArray := rfl
        simp [Tree.kind, Tree.info, hshowings, hx]
      · exact (hplaced first hmemFirst).le.trans
          (stop_le_of_getLast? hplaced horder hlast' hmemFirst)
      · refine treesWithin_flatMap horder ?_ ?_
        · intro f hf
          exact ⟨start_le_of_head? hplaced horder hfirst hf,
            stop_le_of_getLast? hplaced horder hlast' hf⟩
        · exact fun f hf => (entry_trees hs (List.mem_reverse.1 hf)).1
      · intro c hc
        obtain ⟨f, hf, hc⟩ := List.mem_flatMap.1 hc
        exact (entry_trees hs (List.mem_reverse.1 hf)).2 c hc

end Glossator.Grammar
