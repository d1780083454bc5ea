import Glossator.Proofs.Java.Header
import Glossator.Proofs.Pattern.Language

/-!
# The texts of the parts of a header

A part that a match reports was read by one of the patterns that stand under its name, so its text
belongs to the language of such a pattern.

* `Pattern.exists_body_of_find?`: which pattern read a part of a match, and between which places.
* `Pattern.inLanguage_of_find?`: the text of a part is one of that pattern.
-/

set_option autoImplicit false

namespace Glossator.Pattern

variable {γ : Type} [DecidableEq γ] {p : Pattern γ} {t u : Text} {name : γ} {x : γ × Span}
  {o o' : Outcome γ} {m : Match γ} {offset : Nat}

/-- The patterns whose matches are reported under a name. -/
def bodies (name : γ) : Pattern γ → List (Pattern γ)
  | andThen p q | orElse p q => bodies name p ++ bodies name q
  | star p => bodies name p
  | part label p => if label = name then p :: bodies name p else bodies name p
  | _ => []

/-- A part that a pattern adds is what one of the patterns under its name read. -/
theorem exists_body_of_mem_parts (ho : o.IsIn t) (h : o' ∈ p.outcomes o) (hx : x ∈ o'.parts) :
    x ∈ o.parts ∨ ∃ body ∈ p.bodies x.1, ∃ a b : Outcome γ, a.IsIn t ∧ b ∈ body.outcomes a ∧
      x.2 = ⟨a.cursor.offset, b.cursor.offset⟩ := by
  induction p generalizing o o' with
  | empty =>
    obtain rfl := List.mem_singleton.1 h
    exact .inl hx
  | fixed piece =>
    obtain ⟨-, rfl⟩ := mem_outcomes_fixed.1 h
    exact .inl hx
  | one cls =>
    obtain ⟨_, -, -, rfl⟩ := mem_outcomes_one.1 h
    exact .inl hx
  | many cls =>
    obtain ⟨_, -, -, rfl⟩ := mem_outcomes_many.1 h
    exact .inl hx
  | lineStart =>
    obtain ⟨rfl, -⟩ := mem_outcomes_lineStart.1 h
    exact .inl hx
  | wordEdge =>
    obtain ⟨rfl, -⟩ := mem_outcomes_wordEdge.1 h
    exact .inl hx
  | andThen p q ihp ihq =>
    obtain ⟨mid, hmid, h⟩ := mem_outcomes_andThen.1 h
    rcases ihq (ho.of_mem hmid).1 h hx with hx | ⟨body, hbody, hread⟩
    · rcases ihp ho hmid hx with hx | ⟨body, hbody, hread⟩
      · exact .inl hx
      · exact .inr ⟨body, List.mem_append_left _ hbody, hread⟩
    · exact .inr ⟨body, List.mem_append_right _ hbody, hread⟩
  | orElse p q ihp ihq =>
    rcases mem_outcomes_orElse.1 h with h | h
    · rcases ihp ho h hx with hx | ⟨body, hbody, hread⟩
      · exact .inl hx
      · exact .inr ⟨body, List.mem_append_left _ hbody, hread⟩
    · rcases ihq ho h hx with hx | ⟨body, hbody, hread⟩
      · exact .inl hx
      · exact .inr ⟨body, List.mem_append_right _ hbody, hread⟩
  | star p ih =>
    rw [outcomes] at h
    have hsteps := Outcome.reflTransGen_of_mem_repeat h
    clear h
    have hin : ∀ {b}, Relation.ReflTransGen (fun a b => b ∈ p.outcomes a ∧
        a.cursor.offset < b.cursor.offset) o b → b.IsIn t := by
      intro b hb
      induction hb with
      | refl => exact ho
      | tail _ hstep ihSteps => exact (ihSteps.of_mem hstep.1).1
    induction hsteps with
    | refl => exact .inl hx
    | tail hsteps hstep ihSteps =>
      rcases ih (hin hsteps) hstep.1 hx with hx | hread
      · exact ihSteps hx
      · exact .inr hread
  | part label p ih =>
    obtain ⟨mid, hmid, rfl⟩ := mem_outcomes_part.1 h
    rw [bodies]
    rcases List.mem_cons.1 hx with rfl | hx
    · exact .inr ⟨p, by rw [if_pos rfl]; exact List.mem_cons_self, o, mid, ho, hmid, rfl⟩
    · rcases ih ho hmid hx with hx | ⟨body, hbody, hread⟩
      · exact .inl hx
      · refine .inr ⟨body, ?_, hread⟩
        split
        · exact List.mem_cons_of_mem p hbody
        · exact hbody

/-- A part of a match that a search finds was read by one of the patterns under its name. -/
theorem exists_body_of_find? (h : (Finder.ofPattern p t).find? offset = some m)
    (hu : m.text? t name = some u) : ∃ body ∈ p.bodies name, ∃ a b : Outcome γ,
      b ∈ body.outcomes a ∧ a.cursor.Reads u b.cursor := by
  obtain ⟨hin, o, ho, span, hmem, rfl⟩ := exists_part_of_text? h hu
  obtain hmem | ⟨body, hbody, a, b, ha, hb, hspan⟩ := exists_body_of_mem_parts hin ho hmem
  · cases hmem
  · obtain ⟨piece, hread, -⟩ := (reads_of_mem_outcomes hb).reads
    refine ⟨body, hbody, a, b, hb, ?_⟩
    rw [show span = _ from hspan, ha.slice_eq hread]
    exact hread

/-- The text of a part belongs to the language of one of the patterns under its name. -/
theorem inLanguage_of_find? (h : (Finder.ofPattern p t).find? offset = some m)
    (hu : m.text? t name = some u) : ∃ body ∈ p.bodies name, body.InLanguage u := by
  obtain ⟨body, hbody, a, b, hb, hreads⟩ := exists_body_of_find? h hu
  obtain ⟨v, hv, hlanguage⟩ := exists_inLanguage_of_mem_outcomes hb
  have hsame : v = u := List.append_cancel_right (hv.rest_eq.symm.trans hreads.rest_eq)
  exact ⟨body, hbody, hsame ▸ hlanguage⟩

end Glossator.Pattern
