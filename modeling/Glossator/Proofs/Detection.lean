import Mathlib
import Glossator.Detection.Content

/-!
# What content detection finds

The search for the language of a text goes through the languages in order and keeps the one that
leads. A language leads if it scores more than those before it and no less than those behind it, so
the one that leads in the end is the first with the highest score.

* `Detection.Wins`: a language scores, none scores more, and none before it as much.
* `Detection.byContent?_eq_some_iff`, `Detection.byContent?_eq_none_iff`: what is found, and when
  nothing.
* `Detection.byContent?_ne_prompt`: no content is a prompt.
-/

set_option autoImplicit false

namespace Glossator

/-- All languages are listed in the order of their declaration. -/
theorem Language.pairwise_all : Language.all.Pairwise fun l l' => l.ctorIdx < l'.ctorIdx := by
  decide

namespace Detection

variable {t : Text} {points : Language → Nat} {best : Option Language} {l : Language}

/-! ### The search for the best score -/

/-- A language wins: it scores, no language scores more, and those declared before it score less. -/
structure Wins (points : Language → Nat) (l : Language) : Prop where
  scores : 0 < points l
  highest : ∀ l', points l' ≤ points l
  first : ∀ l', l'.ctorIdx < l.ctorIdx → points l' < points l

/-- What the search keeps after the languages seen: the first of them with the most points, or
none if none of them scores. -/
def Leads (points : Language → Nat) (seen : List Language) : Option Language → Prop
  | none => ∀ l ∈ seen, points l = 0
  | some l => 0 < points l ∧ ∃ before after, seen = before ++ l :: after ∧
      (∀ l' ∈ before, points l' < points l) ∧ ∀ l' ∈ after, points l' ≤ points l

/-- A further language takes the lead only by more points. -/
theorem Leads.lead {seen : List Language} (h : Leads points seen best) (l : Language) :
    Leads points (seen ++ [l]) (lead points best l) := by
  cases best with
  | none =>
    rw [Detection.lead]
    split
    · next hzero =>
      intro l' hl'
      rcases List.mem_append.1 hl' with hl' | hl'
      · exact h l' hl'
      · rw [List.mem_singleton.1 hl', hzero]
    · next hne =>
      have hpos := Nat.pos_of_ne_zero hne
      exact ⟨hpos, seen, [], rfl, fun l' hl' => by rwa [h l' hl'], by simp⟩
  | some b =>
    obtain ⟨hpos, before, after, rfl, hbefore, hafter⟩ := h
    rw [Detection.lead]
    split
    · next hlt =>
      refine ⟨by omega, before ++ b :: after, [], rfl, fun l' hl' => ?_, by simp⟩
      rcases List.mem_append.1 hl' with hl' | hl'
      · exact (hbefore l' hl').trans hlt
      · rcases List.mem_cons.1 hl' with rfl | hl'
        · exact hlt
        · exact (hafter l' hl').trans_lt hlt
    · next hle =>
      refine ⟨hpos, before, after ++ [l], by simp, hbefore, fun l' hl' => ?_⟩
      rcases List.mem_append.1 hl' with hl' | hl'
      · exact hafter l' hl'
      · rw [List.mem_singleton.1 hl']
        exact Nat.le_of_not_lt hle

theorem Leads.foldl {seen : List Language} (h : Leads points seen best) (ls : List Language) :
    Leads points (seen ++ ls) (ls.foldl (Detection.lead points) best) := by
  induction ls generalizing seen best with
  | nil => rwa [List.append_nil]
  | cons l ls ih =>
    rw [List.foldl_cons, List.append_cons]
    exact ih (h.lead l)

theorem leads_byContent? (t : Text) : Leads (score t) Language.all (byContent? t) := by
  have hnone : Leads (score t) [] none := by simp [Leads]
  exact hnone.foldl Language.all

/-- The language that leads in the end wins. -/
theorem Leads.wins (h : Leads points Language.all (some l)) : Wins points l := by
  obtain ⟨hpos, before, after, hall, hbefore, hafter⟩ := h
  have hmem (l' : Language) : l' ∈ before ∨ l' = l ∨ l' ∈ after := by
    simpa [hall] using Language.mem_all l'
  refine ⟨hpos, fun l' => ?_, fun l' hlt => ?_⟩
  · rcases hmem l' with hl' | rfl | hl'
    · exact (hbefore l' hl').le
    · exact le_rfl
    · exact hafter l' hl'
  · have hpairs := Language.pairwise_all
    rw [hall, List.pairwise_append, List.pairwise_cons] at hpairs
    rcases hmem l' with hl' | rfl | hl'
    · exact hbefore l' hl'
    · exact absurd hlt (lt_irrefl _)
    · have := hpairs.2.1.1 l' hl'
      omega

/-- Two languages do not both win. -/
theorem Wins.eq {l' : Language} (h : Wins points l) (h' : Wins points l') : l = l' := by
  have hnot {a b : Language} (ha : Wins points a) (hb : Wins points b) : ¬ a.ctorIdx < b.ctorIdx :=
    fun hlt => absurd (hb.first a hlt) (Nat.not_lt.2 (ha.highest b))
  have hsame : l.ctorIdx = l'.ctorIdx :=
    Nat.le_antisymm (Nat.le_of_not_lt (hnot h' h)) (Nat.le_of_not_lt (hnot h h'))
  revert hsame
  cases l <;> cases l' <;> decide

theorem byContent?_eq_some_iff : byContent? t = some l ↔ Wins (score t) l := by
  constructor
  · intro h
    exact (h ▸ leads_byContent? t : Leads (score t) Language.all (some l)).wins
  · intro h
    cases hfound : byContent? t with
    | none =>
      have hnone : Leads (score t) Language.all none := hfound ▸ leads_byContent? t
      have := hnone l (Language.mem_all l)
      have := h.scores
      omega
    | some l' =>
      have hl' : Leads (score t) Language.all (some l') := hfound ▸ leads_byContent? t
      rw [h.eq hl'.wins]

theorem byContent?_eq_none_iff : byContent? t = none ↔ ∀ l, score t l = 0 := by
  constructor
  · intro h l
    exact (h ▸ leads_byContent? t : Leads (score t) Language.all none) l (Language.mem_all l)
  · intro h
    refine Option.eq_none_iff_forall_ne_some.2 fun l hl => ?_
    exact (byContent?_eq_some_iff.1 hl).scores.ne' (h l)

/-! ### Languages without clues -/

/-- A language without clues does not score. -/
theorem score_eq_zero (h : l ∉ clues.map Prod.fst) : score t l = 0 := by
  have hnone : (scores t).lookup l = none := by
    rw [List.lookup_eq_none_iff]
    intro entry hentry
    obtain ⟨c, hc, rfl⟩ := List.mem_map.1 hentry
    rw [bne_iff_ne]
    rintro rfl
    exact h (List.mem_map_of_mem hc)
  rw [score, hnone, Option.getD_none]

/-- No content is a prompt. -/
theorem byContent?_ne_prompt : byContent? t ≠ some .prompt := fun h =>
  (byContent?_eq_some_iff.1 h).scores.ne' (score_eq_zero (by simp [clues]))

end Detection

end Glossator
