import Glossator.Proofs.Pattern.Outcomes

/-!
# First answers

A match is the first of a pattern's outcomes that what follows accepts. This module gives the
first answer among the outcomes, one equation for each kind of pattern, so that a match can be
computed step by step, the preferred way first.

* `Pattern.outcomes_star`: the outcomes of a repetition, one step unfolded.
-/

set_option autoImplicit false

namespace Glossator.Pattern

variable {γ β : Type}

/-- The first answer of `next` among the outcomes of a pattern. -/
def lead (p : Pattern γ) (o : Outcome γ) (next : Outcome γ → Option β) : Option β :=
  (p.outcomes o).findSome? next

theorem findSome?_flatMap {α α' : Type} (l : List α) (f : α → List α') (next : α' → Option β) :
    (l.flatMap f).findSome? next = l.findSome? fun a => (f a).findSome? next := by
  induction l with
  | nil => rfl
  | cons a l ih =>
    rw [List.flatMap_cons, List.findSome?_append, ih, List.findSome?_cons]
    cases (f a).findSome? next <;> rfl

theorem findSome?_congr {α : Type} {l : List α} {next next' : α → Option β}
    (h : ∀ a ∈ l, next a = next' a) : l.findSome? next = l.findSome? next' := by
  induction l with
  | nil => rfl
  | cons a l ih =>
    rw [List.findSome?_cons, List.findSome?_cons, h a List.mem_cons_self]
    cases next' a with
    | none => exact ih fun b hb => h b (List.mem_cons_of_mem a hb)
    | some b => rfl

theorem lead_congr {p : Pattern γ} {o : Outcome γ} {next next' : Outcome γ → Option β}
    (h : ∀ o' ∈ p.outcomes o, next o' = next' o') : lead p o next = lead p o next' :=
  findSome?_congr h

section Equations

variable (o : Outcome γ) (next : Outcome γ → Option β)

@[simp] theorem lead_empty : lead empty o next = next o := by
  simp [lead, outcomes]

theorem lead_fixed (piece : Text) : lead (fixed piece) o next =
    if piece.isPrefixOf o.cursor.rest then next ⟨o.cursor.behind piece, o.parts⟩ else none := by
  rw [lead, outcomes]
  split <;> simp

theorem lead_one (cls : Char → Bool) : lead (one cls) o next =
    match o.cursor.rest with
    | [] => none
    | c :: rest =>
      if cls c then next ⟨⟨some c, rest, o.cursor.offset + 1⟩, o.parts⟩ else none := by
  rw [lead, outcomes]
  cases o.cursor.rest with
  | nil => rfl
  | cons c rest =>
    simp only
    split <;> simp

theorem lead_many (cls : Char → Bool) : lead (many cls) o next =
    (List.range ((o.cursor.rest.takeWhile cls).length + 1)).reverse.findSome? fun n =>
      next ⟨o.cursor.behind (o.cursor.rest.take n), o.parts⟩ := by
  rw [lead, outcomes_many, List.findSome?_map]
  rfl

theorem lead_lineStart : lead lineStart o next =
    if o.cursor.atLineStart then next o else none := by
  rw [lead, outcomes]
  split <;> simp

theorem lead_wordEdge : lead wordEdge o next =
    if o.cursor.atWordEdge then next o else none := by
  rw [lead, outcomes]
  split <;> simp

theorem lead_andThen (first second : Pattern γ) : lead (first.andThen second) o next =
    lead first o fun o' => lead second o' next := by
  rw [lead, outcomes, findSome?_flatMap]
  rfl

theorem lead_orElse (left right : Pattern γ) : lead (left.orElse right) o next =
    (lead left o next).or (lead right o next) := by
  rw [lead, outcomes, List.findSome?_append]
  rfl

theorem lead_part (name : γ) (body : Pattern γ) : lead (part name body) o next =
    lead body o fun o' =>
      next ⟨o'.cursor, (name, ⟨o.cursor.offset, o'.cursor.offset⟩) :: o'.parts⟩ := by
  rw [lead, outcomes, List.findSome?_map]
  rfl

theorem lead_maybe (p : Pattern γ) : lead (maybe p) o next = (lead p o next).or (next o) := by
  rw [maybe, orOp_eq, lead_orElse, lead_empty]

theorem lead_maybeLazy (p : Pattern γ) :
    lead (maybeLazy p) o next = (next o).or (lead p o next) := by
  rw [maybeLazy, orOp_eq, lead_orElse, lead_empty]

end Equations

/-! ### Repetition -/

theorem length_rest_lt {p : Pattern γ} {o o' : Outcome γ} (h : o' ∈ p.outcomes o)
    (hlt : o.cursor.offset < o'.cursor.offset) :
    o'.cursor.rest.length < o.cursor.rest.length := by
  obtain ⟨piece, hread, -⟩ := (reads_of_mem_outcomes h).reads
  have hoffset := hread.offset_eq
  rw [hread.rest_eq, List.length_append]
  omega

/-- The bound of a repetition does not matter once it covers the characters left. -/
theorem repeat_eq_of_length_le {p : Pattern γ} {bound bound' : Nat} {o : Outcome γ}
    (h : o.cursor.rest.length ≤ bound) (h' : o.cursor.rest.length ≤ bound') :
    Outcome.repeat p.outcomes bound o = Outcome.repeat p.outcomes bound' o := by
  -- with no bound left there are no characters left, and no step goes forward
  have hstuck (o : Outcome γ) (hnil : o.cursor.rest.length = 0) (b : Nat) :
      Outcome.repeat p.outcomes b o = [o] := by
    cases b with
    | zero => rfl
    | succ b =>
      rw [Outcome.repeat, List.flatMap_eq_nil_iff.2, List.nil_append]
      intro o' ho'
      rw [if_neg]
      intro hlt
      have := length_rest_lt ho' hlt
      omega
  induction bound generalizing o bound' with
  | zero => rw [hstuck o (Nat.le_zero.1 h), hstuck o (Nat.le_zero.1 h)]
  | succ bound ih =>
    cases bound' with
    | zero => rw [hstuck o (Nat.le_zero.1 h'), hstuck o (Nat.le_zero.1 h')]
    | succ bound' =>
      rw [Outcome.repeat, Outcome.repeat]
      congr 1
      apply List.flatMap_congr
      intro o' ho'
      split
      · next hlt =>
        have := length_rest_lt ho' hlt
        exact ih (by omega) (by omega)
      · rfl

/-- The outcomes of a repetition, one step unfolded. -/
theorem outcomes_star (p : Pattern γ) (o : Outcome γ) : (star p).outcomes o =
    (p.outcomes o).flatMap (fun o' =>
      if o.cursor.offset < o'.cursor.offset then (star p).outcomes o' else []) ++ [o] := by
  have hbound : Outcome.repeat p.outcomes o.cursor.rest.length o =
      Outcome.repeat p.outcomes (o.cursor.rest.length + 1) o :=
    repeat_eq_of_length_le le_rfl (by omega)
  rw [outcomes, hbound, Outcome.repeat]
  congr 1
  apply List.flatMap_congr
  intro o' ho'
  split
  · next hlt =>
    rw [outcomes]
    exact repeat_eq_of_length_le (length_rest_lt ho' hlt).le le_rfl
  · rfl

/-- A repetition takes a step that goes forward and goes on. -/
theorem mem_outcomes_star_of_step {p : Pattern γ} {o mid o' : Outcome γ}
    (hstep : mid ∈ p.outcomes o) (hlt : o.cursor.offset < mid.cursor.offset) (h : o' ∈ (star p).outcomes mid) :
    o' ∈ (star p).outcomes o := by
  rw [outcomes_star, List.mem_append, List.mem_flatMap]
  exact .inl ⟨mid, hstep, by rwa [if_pos hlt]⟩

theorem self_mem_outcomes_star (p : Pattern γ) (o : Outcome γ) : o ∈ (star p).outcomes o := by
  rw [outcomes_star]
  exact List.mem_append_right _ List.mem_cons_self

/-- The first answer of a repetition, one step unfolded. -/
theorem lead_star (p : Pattern γ) (o : Outcome γ) (next : Outcome γ → Option β) :
    lead (star p) o next = (lead p o fun o' =>
      if o.cursor.offset < o'.cursor.offset then lead (star p) o' next else none).or (next o) := by
  rw [lead, outcomes_star, List.findSome?_append, findSome?_flatMap, List.findSome?_singleton]
  congr 1
  refine findSome?_congr fun o' _ => ?_
  split <;> rfl

/-- A run is a repetition of single characters. -/
theorem lead_many_eq (cls : Char → Bool) (o : Outcome γ) (next : Outcome γ → Option β) :
    lead (many cls) o next = lead (star (one cls)) o next := by
  obtain ⟨⟨previous, rest, offset⟩, parts⟩ := o
  induction rest generalizing previous offset with
  | nil => rw [lead_star, lead_one, lead_many]; simp
  | cons c rest ih =>
    rw [lead_star, lead_one]
    by_cases hc : cls c = true
    · simp only [hc, if_true, Nat.lt_succ_self]
      rw [← ih, lead_many, lead_many]
      simp only [List.takeWhile_cons_of_pos hc, List.length_cons,
        List.range_succ_eq_map (n := (rest.takeWhile cls).length + 1), List.reverse_cons,
        List.findSome?_append, ← List.map_reverse, List.findSome?_map]
      congr 1
      · refine findSome?_congr fun n _ => ?_
        simp [Cursor.behind, List.getLast?_cons, Nat.add_assoc, Nat.add_comm 1]
      · simp [Cursor.behind]
    · rw [lead_many]
      simp [hc, Cursor.behind]

theorem exists_of_lead_eq_some {p : Pattern γ} {o : Outcome γ} {next : Outcome γ → Option β}
    {r : β} (h : lead p o next = some r) : ∃ o' ∈ p.outcomes o, next o' = some r :=
  List.exists_of_findSome?_eq_some h

/-- If all ways lead to one outcome, its answer is the first one. -/
theorem lead_eq_of_mem_iff {p : Pattern γ} {o e : Outcome γ} {next : Outcome γ → Option β}
    (h : ∀ o', o' ∈ p.outcomes o ↔ o' = e) : lead p o next = next e := by
  have hlist : p.outcomes o = List.replicate (p.outcomes o).length e :=
    List.eq_replicate_of_mem fun o' ho' => (h o').1 ho'
  rw [lead, hlist, List.findSome?_replicate_of_pos]
  exact List.length_pos_of_mem ((h e).2 rfl)

theorem lead_eq_none_iff {p : Pattern γ} {o : Outcome γ} {next : Outcome γ → Option β} :
    lead p o next = none ↔ ∀ o' ∈ p.outcomes o, next o' = none :=
  List.findSome?_eq_none_iff

end Glossator.Pattern
