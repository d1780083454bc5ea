import Glossator.Proofs.Pattern.Search

/-!
# Patterns over lines of a longer text

A pattern looks at the characters it reads and at the ones right before and behind them. Where some
lines of a text begin and end, a newline stands in place of the ends of the text, and a newline is
no word character and starts a line. So what matches in these lines alone matches in the whole text.

* `Pattern.exists_mem_outcomes`: an outcome within the lines is one within the whole text.
* `Pattern.occursIn_of_lines`: a pattern that occurs in some lines occurs in the whole text.
-/

set_option autoImplicit false

namespace Glossator

/-- A place of some lines, and the same place in the text of which these are lines: before the first
of them stands nothing or a newline, and `behind` is what follows the last. -/
structure Cursor.InLines (shift : Nat) (behind : Text) (c c' : Cursor) : Prop where
  previous : c'.previous = c.previous ∨ c.previous = none ∧ c'.previous = some '\n'
  rest : c'.rest = c.rest ++ behind
  offset : c'.offset = shift + c.offset

namespace Cursor.InLines

variable {shift : Nat} {behind piece : Text} {c c' : Cursor}

/-- Reading a piece in the lines is reading it in the text. -/
theorem reads (h : InLines shift behind c c') (hpiece : piece <+: c.rest) :
    piece <+: c'.rest ∧ InLines shift behind (c.behind piece) (c'.behind piece) := by
  obtain ⟨rest, hrest⟩ := hpiece
  have hrest' : c'.rest = piece ++ (rest ++ behind) := by rw [h.rest, ← hrest, List.append_assoc]
  refine ⟨⟨rest ++ behind, hrest'.symm⟩, ?_, ?_, ?_⟩
  · rcases List.eq_nil_or_concat piece with rfl | ⟨front, last, rfl⟩
    · simpa [Cursor.behind] using h.previous
    · simp [Cursor.behind]
  · simp [Cursor.behind, hrest', ← hrest]
  · simp [Cursor.behind, h.offset, Nat.add_assoc]

theorem atLineStart_eq (h : InLines shift behind c c') : c'.atLineStart = c.atLineStart := by
  rcases h.previous with hsame | ⟨hnone, hline⟩
  · rw [atLineStart, hsame, atLineStart]
  · simp [atLineStart, hnone, hline]

theorem atWordEdge_eq (h : InLines shift behind c c')
    (hbehind : ∀ d ∈ behind.head?, isWord d = false) : c'.atWordEdge = c.atWordEdge := by
  have hnewline : isWord '\n' = false := by decide
  have hprevious : c'.previous.any isWord = c.previous.any isWord := by
    rcases h.previous with hsame | ⟨hnone, hline⟩
    · rw [hsame]
    · simp [hnone, hline, hnewline]
  have hnext : c'.rest.head?.any isWord = c.rest.head?.any isWord := by
    rw [h.rest]
    cases c.rest with
    | nil =>
      cases hhead : behind.head? with
      | none => simp [hhead]
      | some d => simp [hhead, hbehind d hhead]
    | cons d rest => rfl
  rw [atWordEdge, atWordEdge, hprevious, hnext]

end Cursor.InLines

namespace Pattern

variable {γ : Type} {p : Pattern γ}

variable {shift : Nat} {behind : Text}

/-- An outcome of a pattern within some lines is one within the text of which these are lines. -/
theorem exists_mem_outcomes (hbehind : ∀ d ∈ behind.head?, isWord d = false) {o o' u : Outcome γ}
    (h : o' ∈ p.outcomes o) (hu : o.cursor.InLines shift behind u.cursor) :
    ∃ u' ∈ p.outcomes u, o'.cursor.InLines shift behind u'.cursor := by
  induction p generalizing o o' u with
  | empty =>
    obtain rfl := List.mem_singleton.1 h
    exact ⟨u, List.mem_singleton_self u, hu⟩
  | fixed piece =>
    obtain ⟨hpre, rfl⟩ := mem_outcomes_fixed.1 h
    obtain ⟨hpre', hread⟩ := hu.reads hpre
    exact ⟨_, mem_outcomes_fixed.2 ⟨hpre', rfl⟩, hread⟩
  | one cls =>
    obtain ⟨c, hc, hpre, rfl⟩ := mem_outcomes_one.1 h
    obtain ⟨hpre', hread⟩ := hu.reads hpre
    exact ⟨_, mem_outcomes_one.2 ⟨c, hc, hpre', rfl⟩, hread⟩
  | many cls =>
    obtain ⟨piece, hpiece, hpre, rfl⟩ := mem_outcomes_many.1 h
    obtain ⟨hpre', hread⟩ := hu.reads hpre
    exact ⟨_, mem_outcomes_many.2 ⟨piece, hpiece, hpre', rfl⟩, hread⟩
  | lineStart =>
    obtain ⟨rfl, hline⟩ := mem_outcomes_lineStart.1 h
    exact ⟨u, mem_outcomes_lineStart.2 ⟨rfl, hu.atLineStart_eq.trans hline⟩, hu⟩
  | wordEdge =>
    obtain ⟨rfl, hedge⟩ := mem_outcomes_wordEdge.1 h
    exact ⟨u, mem_outcomes_wordEdge.2 ⟨rfl, (hu.atWordEdge_eq hbehind).trans hedge⟩, hu⟩
  | andThen first second ihFirst ihSecond =>
    obtain ⟨mid, hmid, h⟩ := mem_outcomes_andThen.1 h
    obtain ⟨mid', hmid', hin⟩ := ihFirst hmid hu
    obtain ⟨u', hu', hin'⟩ := ihSecond h hin
    exact ⟨u', mem_outcomes_andThen.2 ⟨mid', hmid', hu'⟩, hin'⟩
  | orElse left right ihLeft ihRight =>
    rcases mem_outcomes_orElse.1 h with h | h
    · obtain ⟨u', hu', hin⟩ := ihLeft h hu
      exact ⟨u', mem_outcomes_orElse.2 (.inl hu'), hin⟩
    · obtain ⟨u', hu', hin⟩ := ihRight h hu
      exact ⟨u', mem_outcomes_orElse.2 (.inr hu'), hin⟩
  | star body ih =>
    rw [outcomes] at h
    have hsteps := Outcome.reflTransGen_of_mem_repeat h
    clear h
    -- by induction on the steps, the last of them first
    induction hsteps using Relation.ReflTransGen.head_induction_on generalizing u with
    | refl => exact ⟨u, self_mem_outcomes_star _ u, hu⟩
    | head hstep _ ihSteps =>
      obtain ⟨mid, hmid, hin⟩ := ih hstep.1 hu
      obtain ⟨u', hu', hin'⟩ := ihSteps hin
      have hlt := hstep.2
      exact ⟨u', mem_outcomes_star_of_step hmid (by rw [hu.offset, hin.offset]; omega) hu', hin'⟩
  | part name body ih =>
    obtain ⟨mid, hmid, rfl⟩ := mem_outcomes_part.1 h
    obtain ⟨mid', hmid', hin⟩ := ih hmid hu
    exact ⟨_, mem_outcomes_part.2 ⟨mid', hmid', rfl⟩, hin⟩

/-- A pattern occurs in a text if it has an outcome at some place of it. -/
theorem occursIn_iff {t : Text} :
    p.occursIn t = true ↔ ∃ i ≤ t.length, ∃ o, o ∈ p.outcomes ⟨.inText t i, []⟩ := by
  rw [occursIn, Option.isSome_iff_ne_none, ne_eq, Pattern.find?, Finder.find?_eq_none_iff]
  simp only [Nat.zero_le, true_implies, matchAt?_eq_none_iff, List.eq_nil_iff_forall_not_mem]
  push Not
  rfl

/-- A pattern that occurs in some lines of a text occurs in the text. -/
theorem occursIn_of_lines {before lines behind : Text} (hbefore : ∀ c ∈ before.getLast?, c = '\n')
    (hbehind : ∀ c ∈ behind.head?, c = '\n') (h : p.occursIn lines = true) :
    p.occursIn (before ++ lines ++ behind) = true := by
  obtain ⟨i, hi, o, ho⟩ := occursIn_iff.1 h
  have hplace : (Cursor.inText lines i).InLines before.length behind
      (.inText (before ++ lines ++ behind) (before.length + i)) := by
    refine ⟨?_, ?_, rfl⟩
    · change ((before ++ lines ++ behind).take (before.length + i)).getLast? =
        (lines.take i).getLast? ∨ (lines.take i).getLast? = none ∧
          ((before ++ lines ++ behind).take (before.length + i)).getLast? = some '\n'
      rw [List.append_assoc, List.take_length_add_append, List.take_append_of_le_length hi,
        List.getLast?_append]
      cases hlast : (lines.take i).getLast? with
      | some c => simp
      | none =>
        cases hfirst : before.getLast? with
        | none => simp
        | some c => simp [hbefore c hfirst]
    · rw [Cursor.inText_rest, Cursor.inText_rest, List.append_assoc, ← List.drop_drop,
        List.drop_left, List.drop_append_of_le_length hi]
  have hword : ∀ c ∈ behind.head?, isWord c = false := by
    intro c hc
    rw [hbehind c hc]
    decide
  obtain ⟨u, hu, -⟩ := exists_mem_outcomes hword ho (u := ⟨_, []⟩) hplace
  exact occursIn_iff.2 ⟨_, by simp only [List.length_append]; omega, u, hu⟩

end Pattern

end Glossator
