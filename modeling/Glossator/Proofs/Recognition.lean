import Glossator.Proofs.Detection
import Glossator.Proofs.Influence
import Glossator.Proofs.Pattern.Locality

/-!
# How the language of a file is recognised

The score of a language is the total of its clues that occur in a text. A clue that occurs in some
lines of a text occurs in the text, so a score only grows where lines are added, up to the weight of
all clues. Content decides by the scores, and it decides only where the name of the file tells
nothing.

* `Detection.score_le_of_lines`, `Detection.score_le_weight`: how scores grow, and how far.
* `Detection.scores_grow`: two texts put on lines behind one another.
* `Engine.detect_spec`: the name of a file first, else the language that wins by content.
-/

set_option autoImplicit false

namespace Glossator

namespace Detection

variable {t t' before lines behind : Text} {l : Language} {cs : List Clue}

/-! ### Scores as totals of clues -/

/-- The clues of a language; none if it is not listed. -/
def cluesOf (l : Language) : List Clue := (clues.lookup l).getD []

/-- The weight of all clues together. -/
def weight (cs : List Clue) : Nat := (cs.map Clue.weight).sum

theorem total_cons (c : Clue) (cs : List Clue) (t : Text) :
    total (c :: cs) t = (if c.pattern.occursIn t then c.weight else 0) + total cs t := by
  by_cases h : c.pattern.occursIn t <;> simp [total, h]

/-- More clues that occur, more in total. -/
theorem total_le_total (h : ∀ c ∈ cs, c.pattern.occursIn t → c.pattern.occursIn t') :
    total cs t ≤ total cs t' := by
  induction cs with
  | nil => exact le_rfl
  | cons c cs ih =>
    have hrest := ih fun d hd => h d (List.mem_cons_of_mem c hd)
    rw [total_cons, total_cons]
    by_cases hc : c.pattern.occursIn t
    · rw [if_pos hc, if_pos (h c List.mem_cons_self hc)]
      exact Nat.add_le_add_left hrest _
    · rw [if_neg hc, Nat.zero_add]
      exact hrest.trans (Nat.le_add_left _ _)

theorem total_le_weight (cs : List Clue) (t : Text) : total cs t ≤ weight cs := by
  induction cs with
  | nil => exact le_rfl
  | cons c cs ih =>
    rw [total_cons, weight, List.map_cons, List.sum_cons]
    refine Nat.add_le_add ?_ ih
    split
    · exact le_rfl
    · exact Nat.zero_le _

/-- The score of a language is the total of its clues. -/
theorem score_eq_total (t : Text) (l : Language) : score t l = total (cluesOf l) t := by
  have hlookup (table : List (Language × List Clue)) :
      (table.map fun entry => (entry.1, total entry.2 t)).lookup l =
        (table.lookup l).map fun cs => total cs t := by
    induction table with
    | nil => rfl
    | cons entry table ih =>
      rw [List.map_cons, List.lookup_cons, List.lookup_cons, ih]
      cases l == entry.1 <;> rfl
  change ((clues.map fun entry => (entry.1, total entry.2 t)).lookup l).getD 0 = _
  rw [hlookup, cluesOf]
  cases clues.lookup l <;> rfl

/-! ### Scores over lines of a text -/

/-- A language scores no less in a text than in some lines of it. -/
theorem score_le_of_lines (hbefore : ∀ c ∈ before.getLast?, c = '\n')
    (hbehind : ∀ c ∈ behind.head?, c = '\n') (l : Language) :
    score lines l ≤ score (before ++ lines ++ behind) l := by
  rw [score_eq_total, score_eq_total]
  exact total_le_total fun c _ => Pattern.occursIn_of_lines hbefore hbehind

/-- A score never exceeds the weight of the clues of the language. -/
theorem score_le_weight (t : Text) (l : Language) : score t l ≤ weight (cluesOf l) :=
  score_eq_total t l ▸ total_le_weight (cluesOf l) t

/-- Where nothing is found in a text whose scores are no less, nothing is found. -/
theorem byContent?_eq_none_of_le (hle : ∀ l, score t l ≤ score t' l) (h : byContent? t' = none) :
    byContent? t = none :=
  byContent?_eq_none_iff.2 fun l =>
    Nat.eq_zero_of_le_zero ((hle l).trans (byContent?_eq_none_iff.1 h l).le)

/-- Two texts on lines behind one another score no less than either of them, and no more than the
clues weigh; if nothing is found in both together, nothing is found in either. -/
theorem scores_grow (a b : Text) :
    (∀ l, score a l ≤ score (a ++ '\n' :: b) l ∧ score b l ≤ score (a ++ '\n' :: b) l ∧
      score (a ++ '\n' :: b) l ≤ weight (cluesOf l)) ∧
    (byContent? (a ++ '\n' :: b) = none → byContent? a = none ∧ byContent? b = none) := by
  have hfirst (l : Language) : score a l ≤ score (a ++ '\n' :: b) l := by
    have hlines : score a l ≤ score ([] ++ a ++ '\n' :: b) l :=
      score_le_of_lines (by simp) (by simp) l
    simpa using hlines
  have hsecond (l : Language) : score b l ≤ score (a ++ '\n' :: b) l := by
    have hlines : score b l ≤ score (a ++ ['\n'] ++ b ++ []) l :=
      score_le_of_lines (by simp) (by simp) l
    simpa using hlines
  refine ⟨fun l => ⟨hfirst l, hsecond l, score_le_weight _ l⟩, fun h => ?_⟩
  exact ⟨byContent?_eq_none_of_le hfirst h, byContent?_eq_none_of_le hsecond h⟩

theorem scores_grow_words : byContent? "left".toList = none ∧ byContent? "right".toList = none :=
  (scores_grow "left".toList "right".toList).2 (by decide +kernel)

-- a clue can run over the line end between two texts that tell nothing on their own
example : byContent? "import".toList = none ∧ byContent? "os".toList = none ∧
    byContent? "import\nos".toList = some .python := by
  decide +kernel

end Detection

/-! ### The name of a file and its content -/

open Detection

/-- With the fallback to content on, a file is of the language that its name tells, whatever is in
it; else of the language that wins by content, and of none if no language scores. -/
theorem Engine.detect_spec (t : Text) :
    (byContent? t = none ↔ ∀ l, score t l = 0) ∧
    (∀ l, byContent? t = some l ↔ Wins (score t) l) ∧
    ∀ (e : Engine) (file : String),
      (e.withFallback true).detect file t = (byFileName? file.toList).or (byContent? t) := by
  refine ⟨byContent?_eq_none_iff, fun l => byContent?_eq_some_iff, fun e file => ?_⟩
  rw [detect]
  cases byFileName? file.toList with
  | some language => rfl
  | none => exact if_pos rfl

end Glossator
