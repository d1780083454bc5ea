import Glossator.Proofs.Pattern.Lead

/-!
# Preferring to go on

A repetition and a run stop only where going on leads to no answer. So a part of a match that could
have been taken by the repetition before it is not left to what follows.

* `Pattern.exists_stop_of_lead_star`: where a repetition stops.
* `Pattern.exists_stop_of_lead_many`: where a run stops.
* `Pattern.outcomes_eq_map`: what a pattern reads does not depend on the parts known before.
-/

set_option autoImplicit false

namespace Glossator.Pattern

variable {γ β : Type} {o : Outcome γ} {next : Outcome γ → Option β} {r : β}

/-! ### Parts known before -/

/-- The outcome with more parts known from before. -/
def Outcome.knowing (parts : List (γ × Span)) (o : Outcome γ) : Outcome γ :=
  ⟨o.cursor, o.parts ++ parts⟩

/-- A pattern reads the same whatever parts are known before, and keeps them. -/
theorem outcomes_knowing (p : Pattern γ) (o : Outcome γ) (parts : List (γ × Span)) :
    p.outcomes (o.knowing parts) = (p.outcomes o).map (Outcome.knowing parts) := by
  induction p generalizing o with
  | empty => rfl
  | fixed piece =>
    by_cases h : piece.isPrefixOf o.cursor.rest <;> simp [outcomes, Outcome.knowing, h]
  | one cls =>
    cases hrest : o.cursor.rest with
    | nil => simp [outcomes, Outcome.knowing, hrest]
    | cons c rest => by_cases h : cls c = true <;> simp [outcomes, Outcome.knowing, hrest, h]
  | many cls =>
    rw [outcomes_many, outcomes_many, List.map_map]
    rfl
  | lineStart =>
    by_cases h : o.cursor.atLineStart = true <;> simp [outcomes, Outcome.knowing, h]
  | wordEdge =>
    by_cases h : o.cursor.atWordEdge = true <;> simp [outcomes, Outcome.knowing, h]
  | andThen first second ihFirst ihSecond =>
    unfold outcomes
    rw [ihFirst, List.flatMap_map, List.map_flatMap]
    exact List.flatMap_congr fun mid _ => ihSecond mid
  | orElse left right ihLeft ihRight =>
    unfold outcomes
    rw [ihLeft, ihRight, List.map_append]
  | star body ih =>
    unfold outcomes
    change Outcome.repeat body.outcomes o.cursor.rest.length (o.knowing parts) = _
    generalize o.cursor.rest.length = bound
    induction bound generalizing o with
    | zero => rfl
    | succ bound ihBound =>
      rw [Outcome.repeat, Outcome.repeat, ih, List.flatMap_map, List.map_append, List.map_flatMap]
      congr 1
      apply List.flatMap_congr
      intro mid _
      change (if o.cursor.offset < mid.cursor.offset then
        Outcome.repeat body.outcomes bound (mid.knowing parts) else []) = _
      rw [ihBound]
      by_cases hlt : o.cursor.offset < mid.cursor.offset <;> simp [hlt]
  | part name body ih =>
    unfold outcomes
    rw [ih, List.map_map, List.map_map]
    rfl

/-- Whether there is an answer depends on the place only. -/
def ByPlace (next : Outcome γ → Option β) : Prop :=
  ∀ c parts parts', next ⟨c, parts⟩ = none → next ⟨c, parts'⟩ = none

/-- Whether a pattern and what follows it lead to an answer depends on the place only. -/
theorem byPlace_lead (p : Pattern γ) (h : ByPlace next) : ByPlace fun o => lead p o next := by
  have hknowing (c : Cursor) (parts : List (γ × Span)) :
      lead p ⟨c, parts⟩ next = none ↔ lead p ⟨c, []⟩ next = none := by
    have houtcomes : p.outcomes ⟨c, parts⟩ = (p.outcomes ⟨c, []⟩).map (Outcome.knowing parts) :=
      outcomes_knowing p ⟨c, []⟩ parts
    rw [lead_eq_none_iff, lead_eq_none_iff, houtcomes, List.forall_mem_map]
    exact forall₂_congr fun o _ => ⟨h _ _ _, h _ _ _⟩
  intro c parts parts' hnone
  rw [hknowing] at hnone ⊢
  exact hnone

/-! ### Where repetitions and runs stop -/

/-- Reading on from an outcome over characters of a class leads to no answer. -/
def Exhausts (cls : Char → Bool) (next : Outcome γ → Option β) (o : Outcome γ) : Prop :=
  ∀ gap, gap ≠ [] → (∀ c ∈ gap, cls c = true) → gap <+: o.cursor.rest →
    ∃ parts, next ⟨o.cursor.behind gap, parts⟩ = none

/-- A repetition stops at a place whose answer is taken, where one more step leads to none. -/
theorem exists_stop_of_lead_star {p : Pattern γ} (h : lead (star p) o next = some r) :
    ∃ o' ∈ (star p).outcomes o, next o' = some r ∧
      ∀ o'' ∈ p.outcomes o', o'.cursor.offset < o''.cursor.offset →
        lead (star p) o'' next = none := by
  induction hn : o.cursor.rest.length using Nat.strong_induction_on generalizing o with
  | _ n ih =>
    unfold lead at h
    rw [outcomes_star, List.findSome?_append, findSome?_flatMap, Option.or_eq_some_iff] at h
    rcases h with hon | ⟨hstop, hhere⟩
    · obtain ⟨mid, hmid, hanswer⟩ := List.exists_of_findSome?_eq_some hon
      split at hanswer
      · next hlt =>
        obtain ⟨o', ho', hnext, hlast⟩ := ih _ (hn ▸ length_rest_lt hmid hlt) hanswer rfl
        refine ⟨o', ?_, hnext, hlast⟩
        rw [outcomes_star, List.mem_append, List.mem_flatMap]
        exact .inl ⟨mid, hmid, by rwa [if_pos hlt]⟩
      · cases hanswer
    · refine ⟨o, ?_, ?_, ?_⟩
      · rw [outcomes_star]
        exact List.mem_append_right _ List.mem_cons_self
      · simpa using hhere
      · intro o'' ho'' hlt
        have hnone := List.findSome?_eq_none_iff.1 hstop o'' ho''
        rwa [if_pos hlt] at hnone

/-- A run stops at a place whose answer is taken, and each longer run leads to none. -/
theorem exists_stop_of_lead_many {cls : Char → Bool} (h : lead (many cls) o next = some r) :
    ∃ o' ∈ (many cls).outcomes o, next o' = some r ∧ Exhausts cls next o' := by
  rw [lead_many, List.findSome?_eq_some_iff] at h
  obtain ⟨longer, n, shorter, hsplit, hnext, hlonger⟩ := h
  have hn : n ≤ (o.cursor.rest.takeWhile cls).length := by
    have hmem : n ∈ (List.range ((o.cursor.rest.takeWhile cls).length + 1)).reverse := by
      rw [hsplit]
      exact List.mem_append_right _ List.mem_cons_self
    simpa [Nat.lt_succ_iff] using hmem
  have hrun := (List.takeWhile_prefix (l := o.cursor.rest) cls).length_le
  have hpiece : o.cursor.rest.take n <+: o.cursor.rest.takeWhile cls :=
    List.prefix_of_prefix_length_le (List.take_prefix _ _) (List.takeWhile_prefix _)
      (by rw [List.length_take]; omega)
  refine ⟨⟨o.cursor.behind (o.cursor.rest.take n), o.parts⟩, ?_, hnext, ?_⟩
  · rw [outcomes_many, List.mem_map]
    exact ⟨n, by simpa [Nat.lt_succ_iff] using hn, rfl⟩
  intro gap hne hgap hrest
  have hreads : o.cursor.Reads (o.cursor.rest.take n) (o.cursor.behind (o.cursor.rest.take n)) :=
    ⟨List.take_prefix _ _, rfl⟩
  obtain ⟨hpre, hplace⟩ := hreads.trans ⟨hrest, rfl⟩
  rw [hplace]
  refine ⟨o.parts, ?_⟩
  -- the longer run is one of those that are tried before
  have hwhole : o.cursor.rest.take n ++ gap <+: o.cursor.rest.takeWhile cls := by
    obtain ⟨rest, hrest⟩ := hpre
    have hall : ∀ c ∈ o.cursor.rest.take n ++ gap, cls c = true := by
      intro c hc
      rcases List.mem_append.1 hc with hc | hc
      · exact List.mem_takeWhile_imp (hpiece.mem hc)
      · exact hgap c hc
    generalize o.cursor.rest.take n ++ gap = run at hrest hall
    rw [← hrest, List.takeWhile_append_of_pos hall]
    exact List.prefix_append _ _
  have hlength := hwhole.length_le
  have hpos := List.length_pos_iff.2 hne
  rw [List.length_append, List.length_take] at hlength
  have htake : o.cursor.rest.take n ++ gap = o.cursor.rest.take (n + gap.length) := by
    rw [List.prefix_iff_eq_take.1 hpre, List.length_append, List.length_take]
    congr 1
    omega
  rw [htake]
  apply hlonger
  have hmem : n + gap.length ∈ longer ++ n :: shorter := by
    rw [← hsplit, List.mem_reverse, List.mem_range]
    omega
  have hdesc : (longer ++ n :: shorter).Pairwise (· > ·) := by
    rw [← hsplit, List.pairwise_reverse]
    exact List.pairwise_lt_range
  rcases List.mem_append.1 hmem with hmem | hmem
  · exact hmem
  · have hle := (List.pairwise_append.1 hdesc).2.1
    rcases List.mem_cons.1 hmem with heq | hmem
    · omega
    · have := List.rel_of_pairwise_cons hle hmem
      omega

theorem exists_stop_of_lead_someOf {cls : Char → Bool} (h : lead (someOf cls) o next = some r) :
    ∃ o' ∈ (someOf cls).outcomes o, next o' = some r ∧ Exhausts cls next o' := by
  rw [someOf, append_eq, lead_andThen] at h
  obtain ⟨first, hfirst, hmany⟩ := exists_of_lead_eq_some h
  obtain ⟨o', ho', hnext, hlonger⟩ := exists_stop_of_lead_many hmany
  exact ⟨o', mem_outcomes_andThen.2 ⟨first, hfirst, ho'⟩, hnext, hlonger⟩

/-! ### Optional repetitions -/

/-- Every way of a pattern goes forward. -/
def Forward (p : Pattern γ) : Prop :=
  ∀ o, ∀ o' ∈ p.outcomes o, o.cursor.offset < o'.cursor.offset

/-- A repetition of steps that go forward takes none, or at least one. -/
theorem mem_outcomes_star_iff {p : Pattern γ} (hp : Forward p) {o o' : Outcome γ} :
    o' ∈ (star p).outcomes o ↔ o' ∈ (plus p).outcomes o ∨ o' = o := by
  rw [outcomes_star, List.mem_append, List.mem_flatMap, List.mem_singleton, plus, append_eq,
    mem_outcomes_andThen]
  refine or_congr_left (exists_congr fun mid => and_congr_right fun hmid => ?_)
  rw [if_pos (hp o mid hmid)]

/-- A repetition of steps that go forward takes any number of them. -/
theorem mem_outcomes_star_iff_reflTransGen {p : Pattern γ} (hp : Forward p) {o o' : Outcome γ} :
    o' ∈ (star p).outcomes o ↔ Relation.ReflTransGen (fun a b => b ∈ p.outcomes a) o o' := by
  constructor
  · intro h
    rw [outcomes] at h
    exact Relation.ReflTransGen.mono (fun _ _ hstep => And.left hstep) o o'
      (Outcome.reflTransGen_of_mem_repeat h)
  · intro h
    induction h using Relation.ReflTransGen.head_induction_on with
    | refl => exact self_mem_outcomes_star p o'
    | @head a b hstep _ ih => exact mem_outcomes_star_of_step hstep (hp a b hstep) ih

/-- An optional repetition stops at a place whose answer is taken, and from there more steps lead to
no answer. -/
theorem exists_stop_of_lead_maybe_plus {name : γ} {p : Pattern γ} (hp : Forward p)
    (hnext : ByPlace next) (h : lead (maybe (part name (plus p))) o next = some r) :
    ∃ a ∈ (maybe (part name (plus p))).outcomes o, next a = some r ∧
      (∃ mid ∈ (star p).outcomes o, mid.cursor = a.cursor) ∧
      ∀ e ∈ (star p).outcomes ⟨a.cursor, []⟩, a.cursor.offset < e.cursor.offset →
        ∀ parts, next ⟨e.cursor, parts⟩ = none := by
  have hmore {a e : Outcome γ} (he : e ∈ (star p).outcomes ⟨a.cursor, []⟩)
      (hlt : a.cursor.offset < e.cursor.offset) :
      ∃ parts, (⟨e.cursor, parts⟩ : Outcome γ) ∈ (plus p).outcomes a := by
    rcases (mem_outcomes_star_iff hp).1 he with he | rfl
    · have hknowing := outcomes_knowing (plus p) ⟨a.cursor, []⟩ a.parts
      refine ⟨e.parts ++ a.parts, ?_⟩
      change _ ∈ (plus p).outcomes (Outcome.knowing a.parts ⟨a.cursor, []⟩)
      rw [hknowing]
      exact List.mem_map_of_mem he
    · exact absurd hlt (lt_irrefl _)
  rw [lead_maybe, lead_part, Option.or_eq_some_iff] at h
  rcases h with htaken | ⟨hnone, hhere⟩
  · rw [plus, append_eq, lead_andThen] at htaken
    obtain ⟨first, hfirst, hstar⟩ := exists_of_lead_eq_some htaken
    obtain ⟨a, ha, hnexta, hlast⟩ := exists_stop_of_lead_star hstar
    have hplus : a ∈ (plus p).outcomes o := mem_outcomes_andThen.2 ⟨first, hfirst, ha⟩
    refine ⟨_, mem_outcomes_orElse.2 (.inl (mem_outcomes_part.2 ⟨a, hplus, rfl⟩)), hnexta,
      ⟨a, (mem_outcomes_star_iff hp).2 (.inl hplus), rfl⟩, ?_⟩
    intro e he hlt
    obtain ⟨parts, hparts⟩ := hmore (a := a) he hlt
    obtain ⟨mid, hmid, hrest⟩ := mem_outcomes_andThen.1 hparts
    have hstop := lead_eq_none_iff.1 (hlast mid hmid (hp a mid hmid)) _ hrest
    exact fun parts' => hnext _ _ _ hstop
  · refine ⟨o, mem_outcomes_orElse.2 (.inr (List.mem_singleton_self o)), hhere,
      ⟨o, self_mem_outcomes_star p o, rfl⟩, ?_⟩
    intro e he hlt
    obtain ⟨parts, hparts⟩ := hmore (a := o) he hlt
    have hstop := lead_eq_none_iff.1 hnone _ hparts
    exact fun parts' => hnext _ _ _ hstop

/-! ### Repetitions of single characters and more -/

section

variable {p : Pattern γ} {cls : Char → Bool} {gap : Text}

theorem mem_outcomes_orElse_one {c : Cursor} {d : Char} {parts : List (γ × Span)}
    (hd : cls d = true) (hpre : d :: gap <+: c.rest) :
    ⟨c.behind [d], parts⟩ ∈ (p ||| one cls).outcomes ⟨c, parts⟩ := by
  obtain ⟨rest, hrest⟩ := hpre
  rw [orOp_eq, outcomes, List.mem_append, outcomes]
  right
  simp [← hrest, hd, Cursor.behind]

/-- A repetition that may read single characters of a class reads any number of them. -/
theorem mem_outcomes_star_orElse_one {c : Cursor} {parts : List (γ × Span)}
    (hgap : ∀ d ∈ gap, cls d = true) (hpre : gap <+: c.rest) :
    ⟨c.behind gap, parts⟩ ∈ (star (p ||| one cls)).outcomes ⟨c, parts⟩ := by
  induction gap generalizing c with
  | nil =>
    rw [Cursor.Reads.behind_nil, outcomes_star]
    exact List.mem_append_right _ List.mem_cons_self
  | cons d gap ih =>
    rw [outcomes_star, List.mem_append, List.mem_flatMap]
    refine .inl ⟨_, mem_outcomes_orElse_one (hgap d List.mem_cons_self) hpre, ?_⟩
    rw [if_pos (by simp [Cursor.behind]), behind_cons c d gap]
    exact ih (fun e he => hgap e (List.mem_cons_of_mem d he)) ((cons_prefix_rest_iff.1 hpre).2)

end

end Glossator.Pattern
