import Glossator.Proofs.Pattern.Lead

/-!
# The texts that a pattern reads

Whatever stands around it, a piece of text that a pattern reads belongs to the language of the
pattern. Where a match goes on from and what it is preferred to play no part in this.

* `Pattern.InLanguage`: the language of a pattern.
* `Pattern.exists_inLanguage_of_mem_outcomes`: an outcome reads a text of the language.
* `Pattern.exists_mem_outcomes_of_inLanguage`: a text of the language is read where it stands.
-/

set_option autoImplicit false

namespace Glossator.Pattern

variable {γ : Type} {p q : Pattern γ} {o o' : Outcome γ} {u : Text} {cls : Char → Bool}

/-- The text is one that the pattern may read at a fitting place. -/
def InLanguage : Pattern γ → Text → Prop
  | empty, u | lineStart, u | wordEdge, u => u = []
  | fixed piece, u => u = piece
  | one cls, u => ∃ c, cls c = true ∧ u = [c]
  | many cls, u => ∀ c ∈ u, cls c = true
  | andThen p q, u => ∃ v w, InLanguage p v ∧ InLanguage q w ∧ u = v ++ w
  | orElse p q, u => InLanguage p u ∨ InLanguage q u
  | star p, u => ∃ pieces : List Text, (∀ v ∈ pieces, InLanguage p v) ∧ u = pieces.flatten
  | part _ p, u => InLanguage p u

theorem inLanguage_someOf : (someOf cls : Pattern γ).InLanguage u ↔
    u ≠ [] ∧ ∀ c ∈ u, cls c = true := by
  simp only [someOf, append_eq, InLanguage]
  constructor
  · rintro ⟨_, w, ⟨c, hc, rfl⟩, hw, rfl⟩
    exact ⟨List.cons_ne_nil c w, List.forall_mem_cons.2 ⟨hc, hw⟩⟩
  · rintro ⟨hne, hall⟩
    obtain ⟨c, w, rfl⟩ := List.exists_cons_of_ne_nil hne
    obtain ⟨hc, hw⟩ := List.forall_mem_cons.1 hall
    exact ⟨[c], w, ⟨c, hc, rfl⟩, hw, rfl⟩

/-- If every text of a pattern stands for something, a repetition reads a list of such things. -/
theorem exists_flatMap_of_star {β : Type} {P : β → Prop} {write : β → Text}
    (h : ∀ v, p.InLanguage v → ∃ x, P x ∧ v = write x) (hu : p.star.InLanguage u) :
    ∃ xs : List β, (∀ x ∈ xs, P x) ∧ u = xs.flatMap write := by
  obtain ⟨pieces, hpieces, rfl⟩ := hu
  induction pieces with
  | nil => exact ⟨[], by simp, rfl⟩
  | cons v pieces ih =>
    obtain ⟨hv, hrest⟩ := List.forall_mem_cons.1 hpieces
    obtain ⟨x, hx, rfl⟩ := h v hv
    obtain ⟨xs, hxs, hflat⟩ := ih hrest
    exact ⟨x :: xs, List.forall_mem_cons.2 ⟨hx, hxs⟩, by rw [List.flatten_cons, hflat]; rfl⟩

/-- What an outcome read is in the language of the pattern. -/
theorem exists_inLanguage_of_mem_outcomes (h : o' ∈ p.outcomes o) :
    ∃ u, o.cursor.Reads u o'.cursor ∧ p.InLanguage u := by
  induction p generalizing o o' with
  | empty =>
    obtain rfl := List.mem_singleton.1 h
    exact ⟨[], .refl _, rfl⟩
  | fixed piece =>
    obtain ⟨hpre, rfl⟩ := mem_outcomes_fixed.1 h
    exact ⟨piece, ⟨hpre, rfl⟩, rfl⟩
  | one cls =>
    obtain ⟨c, hc, hpre, rfl⟩ := mem_outcomes_one.1 h
    exact ⟨[c], ⟨hpre, rfl⟩, c, hc, rfl⟩
  | many cls =>
    obtain ⟨piece, hpiece, hpre, rfl⟩ := mem_outcomes_many.1 h
    exact ⟨piece, ⟨hpre, rfl⟩, hpiece⟩
  | lineStart =>
    obtain ⟨rfl, -⟩ := mem_outcomes_lineStart.1 h
    exact ⟨[], .refl _, rfl⟩
  | wordEdge =>
    obtain ⟨rfl, -⟩ := mem_outcomes_wordEdge.1 h
    exact ⟨[], .refl _, rfl⟩
  | andThen p q ihp ihq =>
    obtain ⟨mid, hmid, h⟩ := mem_outcomes_andThen.1 h
    obtain ⟨v, hv, hvp⟩ := ihp hmid
    obtain ⟨w, hw, hwq⟩ := ihq h
    exact ⟨v ++ w, hv.trans hw, v, w, hvp, hwq, rfl⟩
  | orElse p q ihp ihq =>
    rcases mem_outcomes_orElse.1 h with h | h
    · obtain ⟨u, hu, hup⟩ := ihp h
      exact ⟨u, hu, .inl hup⟩
    · obtain ⟨u, hu, huq⟩ := ihq h
      exact ⟨u, hu, .inr huq⟩
  | star p ih =>
    rw [outcomes] at h
    have hsteps := Outcome.reflTransGen_of_mem_repeat h
    clear h
    induction hsteps with
    | refl => exact ⟨[], .refl _, [], by simp, rfl⟩
    | tail _ hstep ihSteps =>
      obtain ⟨_, hu, pieces, hpieces, rfl⟩ := ihSteps
      obtain ⟨v, hv, hvp⟩ := ih hstep.1
      refine ⟨_, hu.trans hv, pieces ++ [v], ?_, by simp⟩
      simpa [or_imp, forall_and] using ⟨hpieces, hvp⟩
  | part name p ih =>
    obtain ⟨mid, hmid, rfl⟩ := mem_outcomes_part.1 h
    obtain ⟨u, hu, hup⟩ := ih hmid
    exact ⟨u, hu, hup⟩

/-- The pattern reads the same at all places: it asks neither for the start of a line nor for the
edge of a word. -/
def Placeless : Pattern γ → Prop
  | lineStart | wordEdge => False
  | andThen p q | orElse p q => Placeless p ∧ Placeless q
  | star p | part _ p => Placeless p
  | _ => True

/-- A text of the language of such a pattern is read wherever it stands. -/
theorem exists_mem_outcomes_of_inLanguage (hp : p.Placeless) (h : p.InLanguage u)
    (hu : u <+: o.cursor.rest) : ∃ o' ∈ p.outcomes o, o.cursor.Reads u o'.cursor := by
  induction p generalizing o u with
  | empty =>
    obtain rfl : u = [] := h
    exact ⟨o, List.mem_singleton_self o, .refl _⟩
  | fixed piece =>
    obtain rfl : u = piece := h
    exact ⟨_, mem_outcomes_fixed.2 ⟨hu, rfl⟩, hu, rfl⟩
  | one cls =>
    obtain ⟨c, hc, rfl⟩ := h
    exact ⟨_, mem_outcomes_one.2 ⟨c, hc, hu, rfl⟩, hu, rfl⟩
  | many cls => exact ⟨_, mem_outcomes_many.2 ⟨u, h, hu, rfl⟩, hu, rfl⟩
  | lineStart => exact absurd hp id
  | wordEdge => exact absurd hp id
  | andThen p q ihp ihq =>
    obtain ⟨v, w, hv, hw, rfl⟩ := h
    obtain ⟨mid, hmid, hread⟩ := ihp hp.1 hv ((List.prefix_append v w).trans hu)
    have hw' : w <+: mid.cursor.rest := by
      rw [hread.rest_eq] at hu
      exact (List.prefix_append_right_inj v).1 hu
    obtain ⟨o', ho', hread'⟩ := ihq hp.2 hw hw'
    exact ⟨o', mem_outcomes_andThen.2 ⟨mid, hmid, ho'⟩, hread.trans hread'⟩
  | orElse p q ihp ihq =>
    rcases h with h | h
    · obtain ⟨o', ho', hread⟩ := ihp hp.1 h hu
      exact ⟨o', mem_outcomes_orElse.2 (.inl ho'), hread⟩
    · obtain ⟨o', ho', hread⟩ := ihq hp.2 h hu
      exact ⟨o', mem_outcomes_orElse.2 (.inr ho'), hread⟩
  | star p ih =>
    obtain ⟨pieces, hpieces, rfl⟩ := h
    -- by induction on the pieces, of which the empty ones take no step
    induction pieces generalizing o with
    | nil => exact ⟨o, self_mem_outcomes_star p o, .refl _⟩
    | cons v pieces ihPieces =>
      obtain ⟨hv, hmore⟩ := List.forall_mem_cons.1 hpieces
      rw [List.flatten_cons] at hu ⊢
      by_cases hnil : v = []
      · rw [hnil] at hu ⊢
        exact ihPieces hmore hu
      · obtain ⟨mid, hmid, hread⟩ := ih hp hv ((List.prefix_append v _).trans hu)
        have hrest : pieces.flatten <+: mid.cursor.rest := by
          rw [hread.rest_eq] at hu
          exact (List.prefix_append_right_inj v).1 hu
        obtain ⟨o', ho', hread'⟩ := ihPieces hmore hrest
        have hpos := List.length_pos_iff.2 hnil
        have hlt : o.cursor.offset < mid.cursor.offset := by
          rw [hread.offset_eq]
          omega
        exact ⟨o', mem_outcomes_star_of_step hmid hlt ho', hread.trans hread'⟩
  | part name p ih =>
    obtain ⟨mid, hmid, hread⟩ := ih hp h hu
    exact ⟨_, mem_outcomes_part.2 ⟨mid, hmid, rfl⟩, hread⟩

/-- So a text of its language consists of characters that it may read. -/
theorem mayRead_of_inLanguage (hp : p.Placeless) (h : p.InLanguage u) : ∀ c ∈ u, p.mayRead c := by
  obtain ⟨o', ho', hread⟩ := exists_mem_outcomes_of_inLanguage (o := ⟨⟨none, u, 0⟩, []⟩) hp h
    (List.prefix_refl u)
  obtain ⟨piece, hpiece, hchars⟩ := (reads_of_mem_outcomes ho').reads
  rwa [hread.unique hpiece]

end Glossator.Pattern
