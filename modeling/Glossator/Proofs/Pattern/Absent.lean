import Glossator.Proofs.Pattern.Lead

/-!
# Patterns over texts that lack characters

A pattern that cannot match without reading some character matches nowhere in a text that lacks it.
So in texts without certain characters a pattern has the same outcomes as a simpler one, from which
the parts that need such characters are left out.

* `Pattern.outcomes_eq_nil_of_mustRead`: a pattern matches nowhere without a character it must read.
* `Pattern.SameWithout`: two patterns have the same outcomes in texts without some characters.
-/

set_option autoImplicit false

namespace Glossator.Pattern

variable {γ : Type}

/-- Every way in which the pattern matches reads the character. -/
def mustRead : Pattern γ → Char → Prop
  | fixed piece, c => c ∈ piece
  | andThen first second, c => mustRead first c ∨ mustRead second c
  | orElse left right, c => mustRead left c ∧ mustRead right c
  | part _ body, c => mustRead body c
  | _, _ => False

theorem mem_rest_of_mem_outcomes {p : Pattern γ} {o o' : Outcome γ} (h : o' ∈ p.outcomes o)
    {c : Char} (hc : c ∈ o'.cursor.rest) : c ∈ o.cursor.rest := by
  obtain ⟨piece, hread, -⟩ := (reads_of_mem_outcomes h).reads
  rw [hread.rest_eq]
  exact List.mem_append_right _ hc

/-- A character that a pattern must read stands where it matches. -/
theorem mem_rest_of_mustRead {p : Pattern γ} {c : Char} (hp : p.mustRead c) {o o' : Outcome γ}
    (h : o' ∈ p.outcomes o) : c ∈ o.cursor.rest := by
  induction p generalizing o o' with
  | fixed piece => exact (mem_outcomes_fixed.1 h).1.subset hp
  | andThen first second ihFirst ihSecond =>
    obtain ⟨mid, hmid, h⟩ := mem_outcomes_andThen.1 h
    rcases hp with hp | hp
    · exact ihFirst hp hmid
    · exact mem_rest_of_mem_outcomes hmid (ihSecond hp h)
  | orElse left right ihLeft ihRight =>
    rw [outcomes, List.mem_append] at h
    rcases h with h | h
    · exact ihLeft hp.1 h
    · exact ihRight hp.2 h
  | part name body ih =>
    obtain ⟨mid, hmid, -⟩ := mem_outcomes_part.1 h
    exact ih hp hmid
  | empty | one cls | many cls | lineStart | wordEdge | star body => exact absurd hp id

/-- A pattern matches nowhere without a character that it must read. -/
theorem outcomes_eq_nil_of_mustRead {p : Pattern γ} {c : Char} (hp : p.mustRead c) {o : Outcome γ}
    (hc : c ∉ o.cursor.rest) : p.outcomes o = [] :=
  List.eq_nil_iff_forall_not_mem.2 fun _ h => hc (mem_rest_of_mustRead hp h)

/-- Two patterns have the same outcomes wherever none of some characters follows. -/
def SameWithout (absent : List Char) (p q : Pattern γ) : Prop :=
  ∀ o : Outcome γ, (∀ c ∈ absent, c ∉ o.cursor.rest) → p.outcomes o = q.outcomes o

namespace SameWithout

variable {absent : List Char} {p p' q q' : Pattern γ}

theorem refl (p : Pattern γ) : SameWithout absent p p := fun _ _ => rfl

theorem andThen (hp : SameWithout absent p p') (hq : SameWithout absent q q') :
    SameWithout absent (p ++ q) (p' ++ q') := by
  intro o ho
  rw [append_eq, append_eq, outcomes, outcomes, hp o ho]
  apply List.flatMap_congr
  intro mid hmid
  exact hq mid fun c hc hrest => ho c hc (mem_rest_of_mem_outcomes hmid hrest)

theorem part (name : γ) (hp : SameWithout absent p p') :
    SameWithout absent (.part name p) (.part name p') := by
  intro o ho
  rw [outcomes, outcomes, hp o ho]

/-- A repetition of what needs an absent character stays where it is. -/
theorem star {c : Char} (hc : c ∈ absent) (hp : p.mustRead c) :
    SameWithout absent (.star p) .empty := by
  intro o ho
  rw [outcomes_star, outcomes_eq_nil_of_mustRead hp (ho c hc), outcomes]
  rfl

theorem maybe {c : Char} (hc : c ∈ absent) (hp : p.mustRead c) :
    SameWithout absent (.maybe p) .empty := by
  intro o ho
  change p.outcomes o ++ [o] = [o]
  rw [outcomes_eq_nil_of_mustRead hp (ho c hc), List.nil_append]

theorem maybeLazy {c : Char} (hc : c ∈ absent) (hp : p.mustRead c) :
    SameWithout absent (.maybeLazy p) .empty := by
  intro o ho
  change [o] ++ p.outcomes o = [o]
  rw [outcomes_eq_nil_of_mustRead hp (ho c hc), List.append_nil]

end SameWithout

end Glossator.Pattern
