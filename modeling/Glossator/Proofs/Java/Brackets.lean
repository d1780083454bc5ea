import Glossator.Proofs.Text.Join
import Glossator.Java.Parameters

/-!
# Splitting outside brackets, piece by piece

A piece of a text is whole if nothing in it separates. A text is split at the first separator, where
the count of open brackets is that behind the piece before it, and what follows is split from there.
Blanks count for nothing in this where they do not separate.

* `Text.SingleSpaced`, `Text.singleSpaced_spaced`: words with a single space between two of them.
* `Java.Brackets.split_append_cons_of_whole`, `Java.Brackets.split_cases`: the first piece of a text
  and the others.
* `Java.Brackets.whole_spaced`: which blanks stand in a piece does not matter.
-/

set_option autoImplicit false

namespace Glossator

namespace Text

variable {t w : Text} {ws : List Text}

/-! ### Words with single spaces -/

/-- The words of a text with a single space between two of them. -/
def spaced (t : Text) : Text := join [' '] (words t)

/-- Words with a single space between two of them and no blank at the ends. -/
structure SingleSpaced (t : Text) : Prop where
  ne_nil : t ≠ []
  head : ∀ c ∈ t.head?, isBlank c = false
  last : ∀ c ∈ t.getLast?, isBlank c = false
  inner : t.IsChain fun c d => isBlank c = true → c = ' ' ∧ isBlank d = false

/-- A list of words: none is empty, and none has a blank in it. -/
def AreWords (ws : List Text) : Prop := ∀ w ∈ ws, w ≠ [] ∧ ∀ c ∈ w, isBlank c = false

theorem areWords_words (t : Text) : AreWords (words t) := by
  intro w hw
  obtain ⟨hmem, hne⟩ := List.mem_filter.1 hw
  exact ⟨by simpa using hne, eq_false_of_mem_splitAt hmem⟩

theorem join_space_cons (w : Text) (hne : ws ≠ []) :
    join [' '] (w :: ws) = w ++ ' ' :: join [' '] ws := by
  obtain ⟨v, ws, rfl⟩ := List.exists_cons_of_ne_nil hne
  rw [join_cons, join_cons, List.flatMap_cons, List.append_assoc]
  rfl

theorem singleSpaced_word (hne : w ≠ []) (hw : ∀ c ∈ w, isBlank c = false) : SingleSpaced w where
  ne_nil := hne
  head c hc := hw c (List.mem_of_mem_head? hc)
  last c hc := hw c (List.mem_of_getLast? hc)
  inner := (List.pairwise_of_forall_mem_list fun c hc _ _ hblank =>
    absurd (hw c hc) (by simp [hblank])).isChain

/-- A further word in front, and a space. -/
theorem SingleSpaced.cons (hne : w ≠ []) (hw : ∀ c ∈ w, isBlank c = false) (h : SingleSpaced t) :
    SingleSpaced (w ++ ' ' :: t) where
  ne_nil := by simp
  head := by
    rw [List.head?_append_of_ne_nil _ hne]
    exact (singleSpaced_word hne hw).head
  last := by
    rw [List.getLast?_append_cons, List.getLast?_cons_of_ne_nil h.ne_nil]
    exact h.last
  inner := by
    rw [List.isChain_append, List.isChain_cons]
    refine ⟨(singleSpaced_word hne hw).inner, ⟨fun d hd _ => ⟨rfl, h.head d hd⟩, h.inner⟩, ?_⟩
    intro c hc d _ hblank
    exact absurd (hw c (List.mem_of_getLast? hc)) (by simp [hblank])

theorem singleSpaced_join (h : AreWords ws) (hne : ws ≠ []) : SingleSpaced (join [' '] ws) := by
  induction ws with
  | nil => exact absurd rfl hne
  | cons w ws ih =>
    obtain ⟨⟨hw, hchars⟩, hws⟩ := List.forall_mem_cons.1 h
    by_cases hlast : ws = []
    · rw [hlast, join_cons, List.flatMap_nil, List.append_nil]
      exact singleSpaced_word hw hchars
    · rw [join_space_cons w hlast]
      exact (ih hws hlast).cons hw hchars

/-- Words that are joined are the words of what they are joined to. -/
theorem words_join (h : AreWords ws) : words (join [' '] ws) = ws := by
  induction ws with
  | nil => rfl
  | cons w ws ih =>
    obtain ⟨⟨hw, hchars⟩, hws⟩ := List.forall_mem_cons.1 h
    by_cases hlast : ws = []
    · rw [hlast, join_cons, List.flatMap_nil, List.append_nil, words_eq_singleton hw hchars]
    · rw [join_space_cons w hlast, words_append_cons (by decide), words_eq_singleton hw hchars,
        ih hws]
      rfl

theorem words_spaced (t : Text) : words (spaced t) = words t := words_join (areWords_words t)

theorem spaced_spaced (t : Text) : spaced (spaced t) = spaced t := by
  rw [spaced, words_spaced, spaced]

theorem singleSpaced_spaced (h : spaced t ≠ []) : SingleSpaced (spaced t) := by
  refine singleSpaced_join (areWords_words t) ?_
  intro hnil
  exact h (by rw [spaced, hnil, join_nil])

/-- The pieces of a text are what is left of it without the separators. -/
theorem flatten_splitAt (p : Char → Bool) (t : Text) :
    (splitAt p t).flatten = t.filter fun c => !p c := by
  induction t with
  | nil => rfl
  | cons c t ih =>
    rw [splitAt]
    by_cases hc : p c = true
    · simp [hc, ih]
    · cases hpieces : splitAt p t with
      | nil => exact absurd hpieces (splitAt_ne_nil p t)
      | cons piece pieces =>
        rw [hpieces] at ih
        simp [hc, ← ih]

/-- Only blanks are left out or put between the words. -/
theorem solid_spaced (t : Text) : solid (spaced t) = solid t := by
  have hwords : (words t).flatMap solid = (words t).flatten := by
    rw [List.flatMap_def]
    congr 1
    conv_rhs => rw [← List.map_id (words t)]
    refine List.map_congr_left fun w hw => ?_
    rw [solid, List.filter_eq_self.2, id]
    intro c hc
    simp [(areWords_words t w hw).2 c hc]
  have hspace : solid [' '] = [] := by decide
  rw [spaced, solid_join hspace, hwords, words, List.flatten_filter_not_isEmpty, flatten_splitAt,
    solid]

end Text

namespace Java.Brackets

variable {b : Brackets} {depth : Int} {t w : Text} {c : Char}

/-! ### Pieces -/

/-- The count of open brackets behind a text. -/
def run (b : Brackets) (depth : Int) (t : Text) : Int := t.foldl b.step depth

/-- A text is one piece: nothing in it separates. -/
def Whole (b : Brackets) (depth : Int) (t : Text) : Prop := b.split depth t = [t]

theorem split_ne_nil (b : Brackets) (depth : Int) (t : Text) : b.split depth t ≠ [] := by
  cases t with
  | nil => exact List.cons_ne_nil _ _
  | cons c t =>
    rw [split]
    split
    · exact List.cons_ne_nil _ _
    · split <;> exact List.cons_ne_nil _ _

theorem split_cons_of_separates (h : b.separates depth c = true) (t : Text) :
    b.split depth (c :: t) = [] :: b.split depth t := by
  rw [split, if_pos h]

/-- A character that does not separate belongs to the first piece. -/
theorem exists_split_cons (h : b.separates depth c = false) (t : Text) : ∃ piece pieces,
    b.split (b.step depth c) t = piece :: pieces ∧
      b.split depth (c :: t) = (c :: piece) :: pieces := by
  obtain ⟨piece, pieces, hpieces⟩ := List.exists_cons_of_ne_nil (b.split_ne_nil (b.step depth c) t)
  exact ⟨piece, pieces, hpieces, by rw [split, h, if_neg Bool.false_ne_true, hpieces]⟩

theorem whole_nil (b : Brackets) (depth : Int) : b.Whole depth [] := rfl

theorem whole_cons : b.Whole depth (c :: t) ↔
    b.separates depth c = false ∧ b.Whole (b.step depth c) t := by
  unfold Whole
  cases hc : b.separates depth c with
  | true =>
    rw [split_cons_of_separates hc]
    simp
  | false =>
    obtain ⟨piece, pieces, hpieces, hsplit⟩ := exists_split_cons hc t
    rw [hsplit, hpieces]
    simp

/-- A piece is split off at the separator behind it. -/
theorem split_append_cons_of_whole (hw : b.Whole depth w)
    (hc : b.separates (b.run depth w) c = true) (rest : Text) :
    b.split depth (w ++ c :: rest) = w :: b.split (b.run depth w) rest := by
  induction w generalizing depth with
  | nil => exact split_cons_of_separates hc rest
  | cons d w ih =>
    obtain ⟨hd, hw⟩ := whole_cons.1 hw
    have hmore := ih hw hc
    obtain ⟨piece, pieces, hpieces, hsplit⟩ := exists_split_cons hd (w ++ c :: rest)
    rw [hmore, List.cons.injEq] at hpieces
    rw [List.cons_append, hsplit, ← hpieces.1, ← hpieces.2]
    rfl

/-- A text is one piece, or its first piece ends at a separator and the others are split off what
comes behind that. -/
theorem split_cases (b : Brackets) (depth : Int) (t : Text) :
    b.split depth t = [t] ∨ ∃ w c rest, t = w ++ c :: rest ∧ b.Whole depth w ∧
      b.separates (b.run depth w) c = true ∧
      b.split depth t = w :: b.split (b.run depth w) rest := by
  induction t generalizing depth with
  | nil => exact .inl rfl
  | cons c t ih =>
    cases hc : b.separates depth c with
    | true =>
      exact .inr ⟨[], c, t, rfl, whole_nil b depth, hc, split_cons_of_separates hc t⟩
    | false =>
      rcases ih (b.step depth c) with hwhole | ⟨w, d, rest, rfl, hw, hd, -⟩
      · exact .inl (whole_cons.2 ⟨hc, hwhole⟩)
      · have hwhole : b.Whole depth (c :: w) := whole_cons.2 ⟨hc, hw⟩
        exact .inr ⟨c :: w, d, rest, rfl, hwhole, hd, split_append_cons_of_whole hwhole hd rest⟩

/-- Nothing separates exactly if no character does at the count of open brackets before it. -/
theorem whole_iff : b.Whole depth t ↔
    ∀ u c v, t = u ++ c :: v → b.separates (b.run depth u) c = false := by
  induction t generalizing depth with
  | nil => simp [whole_nil]
  | cons d t ih =>
    rw [whole_cons, ih]
    constructor
    · rintro ⟨hd, hrest⟩ u c v ht
      cases u with
      | nil =>
        obtain ⟨rfl, -⟩ := List.cons.inj ht
        exact hd
      | cons e u =>
        obtain ⟨rfl, hmore⟩ := List.cons.inj ht
        exact hrest u c v hmore
    · exact fun h => ⟨h [] d t rfl, fun u c v ht => h (d :: u) c v (congrArg (d :: ·) ht)⟩

/-- No piece is longer than the text. -/
theorem length_le_of_mem_split (h : w ∈ b.split depth t) : w.length ≤ t.length := by
  induction t generalizing depth w with
  | nil => rw [List.mem_singleton.1 h]
  | cons c t ih =>
    rw [List.length_cons]
    cases hc : b.separates depth c with
    | true =>
      rw [split_cons_of_separates hc] at h
      rcases List.mem_cons.1 h with rfl | h
      · exact Nat.zero_le _
      · exact (ih h).trans (Nat.le_succ _)
    | false =>
      obtain ⟨piece, pieces, hpieces, hsplit⟩ := exists_split_cons hc t
      have hshort (v : Text) (hv : v ∈ piece :: pieces) : v.length ≤ t.length := ih (hpieces ▸ hv)
      rw [hsplit] at h
      rcases List.mem_cons.1 h with rfl | h
      · exact Nat.succ_le_succ (hshort piece List.mem_cons_self)
      · exact (hshort w (List.mem_cons_of_mem piece h)).trans (Nat.le_succ _)

/-- A text that is a piece of itself is one piece. -/
theorem whole_of_mem_split (h : t ∈ b.split depth t) : b.Whole depth t := by
  induction t generalizing depth with
  | nil => exact whole_nil b depth
  | cons c t ih =>
    have hlong {e : Int} (hmem : c :: t ∈ b.split e t) : False :=
      absurd (length_le_of_mem_split hmem) (by simp)
    cases hc : b.separates depth c with
    | true =>
      rw [split_cons_of_separates hc] at h
      exact absurd ((List.mem_cons.1 h).resolve_left (List.cons_ne_nil c t)) hlong
    | false =>
      obtain ⟨piece, pieces, hpieces, hsplit⟩ := exists_split_cons hc t
      rw [hsplit] at h
      rcases List.mem_cons.1 h with hsame | hmem
      · refine whole_cons.2 ⟨hc, ih ?_⟩
        rw [hpieces, (List.cons.inj hsame).2]
        exact List.mem_cons_self
      · have hpiece : c :: t ∈ b.split (b.step depth c) t :=
          hpieces ▸ List.mem_cons_of_mem piece hmem
        exact absurd hpiece hlong

theorem run_append (depth : Int) (t u : Text) : b.run depth (t ++ u) = b.run (b.run depth t) u :=
  List.foldl_append

/-- Where separators are no brackets, a text is split at each of them. -/
theorem split_append_cons_of_separates
    (hb : ∀ depth c, b.separates depth c = true → b.step depth c = depth) {u : Text}
    (hc : b.separates (b.run depth u) c = true) (rest : Text) :
    b.split depth (u ++ c :: rest) = b.split depth u ++ b.split (b.run depth u) rest := by
  induction u generalizing depth with
  | nil => exact split_cons_of_separates hc rest
  | cons d u ih =>
    have hmore : b.split (b.step depth d) (u ++ c :: rest) =
        b.split (b.step depth d) u ++ b.split (b.run (b.step depth d) u) rest := ih hc
    cases hd : b.separates depth d with
    | true =>
      rw [hb depth d hd] at hmore
      have hrun : b.run depth (d :: u) = b.run depth u := by
        rw [run, List.foldl_cons, hb depth d hd, run]
      rw [List.cons_append, split_cons_of_separates hd, hmore, split_cons_of_separates hd, hrun]
      rfl
    | false =>
      obtain ⟨piece, pieces, hpieces, hsplit⟩ := exists_split_cons hd u
      obtain ⟨piece', pieces', hpieces', hsplit'⟩ := exists_split_cons hd (u ++ c :: rest)
      rw [hmore, hpieces, List.cons_append, List.cons.injEq] at hpieces'
      rw [List.cons_append, hsplit', hsplit, ← hpieces'.1, ← hpieces'.2]
      rfl

/-! ### Pieces without brackets -/

/-- What neither separates nor is a bracket. -/
def Plain (b : Brackets) (depth : Int) (w : Text) : Prop :=
  ∀ c ∈ w, b.opens c = false ∧ b.closes c = false ∧ b.separates depth c = false

theorem split_eq_singleton (hw : b.Plain depth w) : b.split depth w = [w] := by
  induction w with
  | nil => rfl
  | cons c w ih =>
    obtain ⟨hopens, hcloses, hseparates⟩ := hw c List.mem_cons_self
    rw [split, hseparates, if_neg Bool.false_ne_true, step_eq_self hopens hcloses,
      ih fun d hd => hw d (List.mem_cons_of_mem c hd)]

theorem run_eq_self (hw : b.Plain depth w) : b.run depth w = depth := by
  induction w with
  | nil => rfl
  | cons c w ih =>
    obtain ⟨hopens, hcloses, -⟩ := hw c List.mem_cons_self
    rw [run, List.foldl_cons, step_eq_self hopens hcloses]
    exact ih fun d hd => hw d (List.mem_cons_of_mem c hd)

theorem split_append_cons {c : Char} (hw : b.Plain depth w) (hc : b.separates depth c = true)
    (rest : Text) : b.split depth (w ++ c :: rest) = w :: b.split depth rest := by
  have hrun := run_eq_self hw
  rw [split_append_cons_of_whole (split_eq_singleton hw) (by rwa [hrun]), hrun]

/-! ### Blanks in a piece -/

/-- Blanks neither separate nor are they brackets. -/
def BlanksPlain (b : Brackets) : Prop := ∀ depth c, isBlank c = true →
  b.opens c = false ∧ b.closes c = false ∧ b.separates depth c = false

section

variable (hb : b.BlanksPlain)

include hb

theorem run_solid (depth : Int) (t : Text) : b.run depth (Text.solid t) = b.run depth t := by
  induction t generalizing depth with
  | nil => rfl
  | cons c t ih =>
    rw [Text.solid, List.filter_cons]
    cases hc : isBlank c with
    | true =>
      obtain ⟨hopens, hcloses, -⟩ := hb depth c hc
      exact (ih depth).trans (congrArg (b.run · t) (step_eq_self hopens hcloses).symm)
    | false => exact ih (b.step depth c)

theorem whole_solid : b.Whole depth (Text.solid t) ↔ b.Whole depth t := by
  induction t generalizing depth with
  | nil => rfl
  | cons c t ih =>
    rw [Text.solid, List.filter_cons, whole_cons]
    cases hc : isBlank c with
    | true =>
      obtain ⟨hopens, hcloses, hseparates⟩ := hb depth c hc
      rw [step_eq_self hopens hcloses, hseparates]
      simpa [Text.solid] using ih
    | false =>
      change b.Whole depth (c :: Text.solid t) ↔ _
      rw [whole_cons, ih]

theorem run_spaced (depth : Int) (t : Text) : b.run depth (Text.spaced t) = b.run depth t := by
  rw [← run_solid hb, Text.solid_spaced, run_solid hb]

theorem whole_spaced : b.Whole depth (Text.spaced t) ↔ b.Whole depth t := by
  rw [← whole_solid hb, Text.solid_spaced, whole_solid hb]

end

end Java.Brackets

end Glossator
