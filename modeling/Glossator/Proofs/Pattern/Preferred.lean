import Glossator.Proofs.Pattern.Absent
import Glossator.Proofs.Pattern.Search

/-!
# The preferred outcome

The match of a pattern at a place is the first of its outcomes there. This module finds it step by
step: for each kind of pattern, the preferred way over a piece of text that stands at the place.

* `Pattern.Prefers.andThen`: the preferred way of a sequence goes the preferred ways of its parts.
* `Pattern.outcomes_many_eq_append`: the ways of a run, split where it has come over a piece.
* `Pattern.matchAt?_eq_some`: the match at a place, from the preferred outcome there.
-/

set_option autoImplicit false

namespace Glossator

/-- The place between two pieces of text. -/
def Cursor.between (before rest : Text) : Cursor := ⟨before.getLast?, rest, before.length⟩

namespace Cursor

@[simp] theorem between_rest (before rest : Text) : (between before rest).rest = rest := rfl

@[simp] theorem between_offset (before rest : Text) :
    (between before rest).offset = before.length := rfl

@[simp] theorem between_previous (before rest : Text) :
    (between before rest).previous = before.getLast? := rfl

theorem behind_between (before piece rest : Text) :
    (between before (piece ++ rest)).behind piece = between (before ++ piece) rest := by
  simp [behind, between, List.getLast?_append]

/-- A piece that is read between two texts leads to the place behind it. -/
theorem Reads.eq_between {before rest piece : Text} {c : Cursor}
    (h : (between before rest).Reads piece c) :
    ∃ rest', rest = piece ++ rest' ∧ c = between (before ++ piece) rest' := by
  obtain ⟨⟨rest', hrest⟩, rfl⟩ := h
  obtain rfl : piece ++ rest' = rest := hrest
  exact ⟨rest', rfl, behind_between before piece rest'⟩

theorem inText_append (before rest : Text) :
    inText (before ++ rest) before.length = between before rest := by
  simp [inText, between]

end Cursor

namespace Pattern

variable {γ : Type}

/-- The preferred way of a pattern leads from one outcome to another. -/
def Prefers (p : Pattern γ) (o o' : Outcome γ) : Prop := (p.outcomes o).head? = some o'

/-- The match at a place is the preferred outcome there. -/
theorem matchAt?_eq_some {p : Pattern γ} {before rest : Text} {o : Outcome γ}
    (h : Prefers p ⟨.between before rest, []⟩ o) :
    p.matchAt? (before ++ rest) before.length = some ⟨before.length, o.cursor.offset, o.parts⟩ := by
  rw [matchAt?, Cursor.inText_append, lead]
  obtain ⟨later, hlater⟩ := List.head?_eq_some_iff.1 h
  rw [hlater, List.findSome?_cons]

/-- Patterns that have the same outcomes without some characters prefer the same. -/
theorem SameWithout.prefers_iff {absent : List Char} {p q : Pattern γ} {o o' : Outcome γ}
    (h : SameWithout absent p q) (ho : ∀ c ∈ absent, c ∉ o.cursor.rest) :
    Prefers p o o' ↔ Prefers q o o' := by
  rw [Prefers, Prefers, h o ho]

namespace Prefers

variable {p q : Pattern γ} {o o' o'' : Outcome γ}

theorem empty (o : Outcome γ) : Prefers .empty o o := by
  rw [Prefers, outcomes]
  rfl

/-- The preferred way of a sequence goes the preferred way of the first pattern and then that of the
second. -/
theorem andThen (h : Prefers p o o') (h' : Prefers q o' o'') : Prefers (p ++ q) o o'' := by
  obtain ⟨later, hlater⟩ := List.head?_eq_some_iff.1 h
  obtain ⟨later', hlater'⟩ := List.head?_eq_some_iff.1 h'
  rw [Prefers, append_eq, outcomes, hlater, List.flatMap_cons, hlater']
  rfl

/-- Ways of the first pattern from which the second one does not match are passed over. -/
theorem andThen_of_append {passed later : List (Outcome γ)}
    (h : p.outcomes o = passed ++ o' :: later) (hpassed : ∀ mid ∈ passed, q.outcomes mid = [])
    (h' : Prefers q o' o'') : Prefers (p ++ q) o o'' := by
  obtain ⟨later', hlater'⟩ := List.head?_eq_some_iff.1 h'
  rw [Prefers, append_eq, outcomes, h, List.flatMap_append, List.flatMap_eq_nil_iff.2 hpassed,
    List.flatMap_cons, hlater']
  rfl

theorem part (name : γ) (h : Prefers p o o') : Prefers (.part name p) o
    ⟨o'.cursor, (name, ⟨o.cursor.offset, o'.cursor.offset⟩) :: o'.parts⟩ := by
  obtain ⟨later, hlater⟩ := List.head?_eq_some_iff.1 h
  rw [Prefers, outcomes, hlater]
  rfl

theorem left (h : Prefers p o o') : Prefers (p ||| q) o o' := by
  obtain ⟨later, hlater⟩ := List.head?_eq_some_iff.1 h
  rw [Prefers, orOp_eq, outcomes, hlater]
  rfl

theorem right (hp : p.outcomes o = []) (h : Prefers q o o') : Prefers (p ||| q) o o' := by
  rw [Prefers, orOp_eq, outcomes, hp, List.nil_append]
  exact h

theorem left_out (hp : p.outcomes o = []) : Prefers (maybe p) o o := .right hp (.empty o)

/-- A repetition takes a step that goes forward and goes on. -/
theorem star_step (h : Prefers p o o') (hlt : o.cursor.offset < o'.cursor.offset)
    (h' : Prefers (.star p) o' o'') : Prefers (.star p) o o'' := by
  obtain ⟨later, hlater⟩ := List.head?_eq_some_iff.1 h
  obtain ⟨later', hlater'⟩ := List.head?_eq_some_iff.1 h'
  rw [Prefers, outcomes_star, hlater, List.flatMap_cons, if_pos hlt, hlater']
  rfl

theorem star_stop (hp : p.outcomes o = []) : Prefers (.star p) o o := by
  rw [Prefers, outcomes_star, hp]
  rfl

/-! ### Over pieces of text -/

variable {before piece rest : Text} {parts : List (γ × Span)} {cls : Char → Bool}

theorem fixed (before piece rest : Text) (parts : List (γ × Span)) :
    Prefers (.fixed piece) ⟨.between before (piece ++ rest), parts⟩
      ⟨.between (before ++ piece) rest, parts⟩ := by
  rw [Prefers, outcomes, if_pos (by simp), ← Cursor.behind_between]
  rfl

theorem lineStart (h : before = [] ∨ before.getLast? = some '\n') :
    Prefers .lineStart ⟨.between before rest, parts⟩ ⟨.between before rest, parts⟩ := by
  rw [Prefers, outcomes, if_pos]
  · rfl
  · rcases h with rfl | h
    · rfl
    · simp [Cursor.atLineStart, h]

theorem wordEdge (hbefore : ∀ c ∈ before.getLast?, isWord c = false)
    (hrest : ∃ c, rest.head? = some c ∧ isWord c = true) :
    Prefers .wordEdge ⟨.between before rest, parts⟩ ⟨.between before rest, parts⟩ := by
  obtain ⟨c, hc, hword⟩ := hrest
  have hprevious : before.getLast?.any isWord = false := by
    cases hlast : before.getLast? with
    | none => rfl
    | some d => exact hbefore d hlast
  have hedge : (Cursor.between before rest).atWordEdge = true := by
    simp [Cursor.atWordEdge, hprevious, hc, hword]
  rw [Prefers, outcomes, if_pos hedge]
  rfl

theorem one {c : Char} (hc : cls c = true) :
    Prefers (.one cls) ⟨.between before (c :: rest), parts⟩
      ⟨.between (before ++ [c]) rest, parts⟩ := by
  simp [Prefers, outcomes, hc, Cursor.between]

end Prefers

/-- A run of at least one character needs one of its class. -/
theorem outcomes_someOf_eq_nil {before rest : Text} {parts : List (γ × Span)} {cls : Char → Bool}
    (h : ∀ c ∈ rest.head?, cls c = false) :
    (someOf cls).outcomes ⟨.between before rest, parts⟩ = [] := by
  cases rest with
  | nil => rfl
  | cons c rest => simp [someOf, append_eq, outcomes, h c rfl]

/-- The ways of a run, split where it has come over a piece: first those that go on, then the one
that stops there. -/
theorem outcomes_many_eq_append (before rest : Text) (parts : List (γ × Span)) {piece : Text}
    {cls : Char → Bool} (hpiece : ∀ c ∈ piece, cls c = true) :
    ∃ longer shorter, (many cls).outcomes ⟨.between before (piece ++ rest), parts⟩ =
        longer ++ ⟨.between (before ++ piece) rest, parts⟩ :: shorter ∧
      ∀ o ∈ longer, ∃ more rest', more ≠ [] ∧ rest = more ++ rest' ∧ (∀ c ∈ more, cls c = true) ∧
        o = ⟨.between (before ++ piece ++ more) rest', parts⟩ := by
  have htake (n : Nat) : (piece ++ rest).take (piece.length + n) = piece ++ rest.take n :=
    List.take_length_add_append n
  have hlength : ((piece ++ rest).takeWhile cls).length + 1 =
      piece.length + 1 + (rest.takeWhile cls).length := by
    rw [List.takeWhile_append_of_pos hpiece, List.length_append]
    omega
  have hways : (many cls).outcomes ⟨.between before (piece ++ rest), parts⟩ =
      (List.range (piece.length + 1 + (rest.takeWhile cls).length)).reverse.map fun n =>
        ⟨(Cursor.between before (piece ++ rest)).behind ((piece ++ rest).take n), parts⟩ := by
    rw [outcomes_many, ← hlength]
    rfl
  rw [List.range_add, List.range_succ, List.reverse_append, List.reverse_append, List.map_append,
    List.reverse_singleton, List.singleton_append, List.map_cons, ← Nat.add_zero piece.length,
    htake, List.take_zero, List.append_nil, Cursor.behind_between] at hways
  refine ⟨_, _, hways, ?_⟩
  intro o ho
  simp only [List.mem_map, List.mem_reverse, List.mem_range] at ho
  obtain ⟨_, ⟨n, hn, rfl⟩, rfl⟩ := ho
  refine ⟨rest.take (n + 1), rest.drop (n + 1), ?_, (List.take_append_drop _ _).symm, ?_, ?_⟩
  · have hle := (List.takeWhile_prefix (l := rest) cls).length_le
    intro hnil
    have := congrArg List.length hnil
    rw [List.length_take, List.length_nil] at this
    omega
  · intro c hc
    have hpre : rest.take (n + 1) <+: rest.takeWhile cls :=
      List.prefix_of_prefix_length_le (List.take_prefix _ _) (List.takeWhile_prefix _)
        (by rw [List.length_take]; omega)
    exact List.mem_takeWhile_imp (hpre.mem hc)
  · have hadd : piece.length + 1 + n = piece.length + (n + 1) := by omega
    rw [hadd, htake, List.append_assoc, ← Cursor.behind_between]
    congr 3
    rw [List.append_assoc, List.take_append_drop]

/-- The ways of a run of at least one character, split where it has come over a piece. -/
theorem outcomes_someOf_eq_append (before rest : Text) (parts : List (γ × Span)) {piece : Text}
    {cls : Char → Bool} (hne : piece ≠ []) (hpiece : ∀ c ∈ piece, cls c = true) :
    ∃ longer shorter, (someOf cls).outcomes ⟨.between before (piece ++ rest), parts⟩ =
        longer ++ ⟨.between (before ++ piece) rest, parts⟩ :: shorter ∧
      ∀ o ∈ longer, ∃ more rest', more ≠ [] ∧ rest = more ++ rest' ∧ (∀ c ∈ more, cls c = true) ∧
        o = ⟨.between (before ++ piece ++ more) rest', parts⟩ := by
  obtain ⟨c, piece, rfl⟩ := List.exists_cons_of_ne_nil hne
  have hmore : ∀ d ∈ piece, cls d = true := fun d hd => hpiece d (List.mem_cons_of_mem c hd)
  have hone : (Pattern.one cls).outcomes ⟨.between before (c :: piece ++ rest), parts⟩ =
      [⟨.between (before ++ [c]) (piece ++ rest), parts⟩] := by
    simp [outcomes, hpiece, Cursor.between]
  obtain ⟨longer, shorter, hways, hlonger⟩ :=
    outcomes_many_eq_append (before ++ [c]) rest parts hmore
  have hlist : before ++ [c] ++ piece = before ++ c :: piece := by simp
  rw [hlist] at hways hlonger
  refine ⟨longer, shorter, ?_, hlonger⟩
  rw [someOf, append_eq, outcomes, hone, List.flatMap_singleton, hways]

/-- Of several words one is read as a whole only where it stands as a word of the text. -/
theorem eq_of_mem_outcomes_wholeWord {words : List String} {before w rest : Text}
    {parts : List (γ × Span)} (hw : ∀ c ∈ w, isWord c = true)
    (hrest : ∀ c ∈ rest.head?, isWord c = false)
    (hwords : ∀ s ∈ words, s.toList ≠ [] ∧ ∀ c ∈ s.toList, isWord c = true) {o : Outcome γ}
    (h : o ∈ (anyText words ++ wordEdge).outcomes ⟨.between before (w ++ rest), parts⟩) :
    w ∈ words.map String.toList ∧ o = ⟨.between (before ++ w) rest, parts⟩ := by
  obtain ⟨mid, hmid, hedge⟩ := mem_outcomes_andThen.1 h
  obtain ⟨rfl, hedge⟩ := mem_outcomes_wordEdge.1 hedge
  obtain ⟨s, hs, hinitial, rfl⟩ := mem_outcomes_anyText.1 hmid
  obtain ⟨hsne, hsword⟩ := hwords s hs
  rw [Cursor.between_rest] at hinitial
  suffices heq : s.toList = w by
    rw [← heq, ← Cursor.behind_between]
    exact ⟨List.mem_map_of_mem hs, rfl⟩
  obtain ⟨tail, htail⟩ := hinitial
  rcases List.prefix_or_prefix_of_prefix ⟨tail, htail⟩ (List.prefix_append w rest) with
    ⟨x, hx⟩ | ⟨x, hx⟩
  · cases x with
    | nil => rw [← hx, List.append_nil]
    | cons c x =>
      -- the text goes on with a word character
      have hlast : (s.toList.getLast?.or before.getLast?).any isWord = true := by
        obtain ⟨d, hd⟩ := Option.isSome_iff_exists.1 (List.getLast?_isSome.2 hsne)
        rw [hd, Option.some_or, Option.any_some]
        exact hsword d (List.mem_of_getLast? hd)
      have hnext : isWord c = true := hw c (by rw [← hx]; simp)
      have hrest' : (w ++ rest).drop s.toList.length = c :: (x ++ rest) := by
        rw [← hx, List.append_assoc, List.drop_left, List.cons_append]
      simp [Cursor.atWordEdge, Cursor.behind, hrest', hlast, hnext] at hedge
  · cases x with
    | nil => rw [← hx, List.append_nil]
    | cons c x =>
      -- the word goes on with what is no word character
      rw [← hx, List.append_assoc, List.append_cancel_left_eq] at htail
      have hnext := hrest c (by rw [← htail]; rfl)
      have hword := hsword c (by rw [← hx]; simp)
      exact absurd (hnext.symm.trans hword) Bool.false_ne_true

namespace Prefers

variable {before piece rest : Text} {parts : List (γ × Span)} {cls : Char → Bool}

/-- A run goes over all characters of its class. -/
theorem many (hpiece : ∀ c ∈ piece, cls c = true) (hrest : ∀ c ∈ rest.head?, cls c = false) :
    Prefers (.many cls) ⟨.between before (piece ++ rest), parts⟩
      ⟨.between (before ++ piece) rest, parts⟩ := by
  obtain ⟨longer, shorter, hways, hlonger⟩ := outcomes_many_eq_append before rest parts hpiece
  have hnone : longer = [] := by
    refine List.eq_nil_iff_forall_not_mem.2 ?_
    intro o ho
    obtain ⟨more, rest', hne, rfl, hmore, -⟩ := hlonger o ho
    obtain ⟨c, more, rfl⟩ := List.exists_cons_of_ne_nil hne
    exact Bool.false_ne_true ((hrest c rfl).symm.trans (hmore c List.mem_cons_self))
  rw [Prefers, hways, hnone]
  rfl

theorem many_stop (hrest : ∀ c ∈ rest.head?, cls c = false) :
    Prefers (.many cls) ⟨.between before rest, parts⟩ ⟨.between before rest, parts⟩ := by
  have hmany : Prefers (.many cls) ⟨.between before ([] ++ rest), parts⟩
      ⟨.between (before ++ []) rest, parts⟩ := many (List.forall_mem_nil _) hrest
  rwa [List.append_nil] at hmany

theorem someOf (hne : piece ≠ []) (hpiece : ∀ c ∈ piece, cls c = true)
    (hrest : ∀ c ∈ rest.head?, cls c = false) :
    Prefers (someOf cls) ⟨.between before (piece ++ rest), parts⟩
      ⟨.between (before ++ piece) rest, parts⟩ := by
  obtain ⟨c, piece, rfl⟩ := List.exists_cons_of_ne_nil hne
  have hfirst := hpiece c List.mem_cons_self
  have hmore : ∀ d ∈ piece, cls d = true := fun d hd => hpiece d (List.mem_cons_of_mem c hd)
  have hone : Prefers (.one cls) ⟨.between before (c :: piece ++ rest), parts⟩
      ⟨.between (before ++ [c]) (piece ++ rest), parts⟩ := one hfirst
  have hmany : Prefers (.many cls) ⟨.between (before ++ [c]) (piece ++ rest), parts⟩
      ⟨.between (before ++ c :: piece) rest, parts⟩ := by
    have hlist : before ++ c :: piece = before ++ [c] ++ piece := by simp
    rw [hlist]
    exact many hmore hrest
  exact hone.andThen hmany

theorem wholeWord {words : List String} (hmem : piece ∈ words.map String.toList)
    (hne : piece ≠ []) (hpiece : ∀ c ∈ piece, isWord c = true)
    (hrest : ∀ c ∈ rest.head?, isWord c = false)
    (hwords : ∀ s ∈ words, s.toList ≠ [] ∧ ∀ c ∈ s.toList, isWord c = true) :
    Prefers (anyText words ++ .wordEdge) ⟨.between before (piece ++ rest), parts⟩
      ⟨.between (before ++ piece) rest, parts⟩ := by
  obtain ⟨s, hs, rfl⟩ := List.mem_map.1 hmem
  have hedge : (Cursor.between (before ++ s.toList) rest).atWordEdge = true := by
    obtain ⟨d, hd⟩ := Option.isSome_iff_exists.1 (List.getLast?_isSome.2 hne)
    have hword := hpiece d (List.mem_of_getLast? hd)
    have hnext : rest.head?.any isWord = false := by
      cases hhead : rest.head? with
      | none => rfl
      | some c => exact hrest c hhead
    simp [Cursor.atWordEdge, List.getLast?_append, hd, hword, hnext]
  have hway : (⟨.between (before ++ s.toList) rest, parts⟩ : Outcome γ) ∈
      (anyText words ++ .wordEdge).outcomes ⟨.between before (s.toList ++ rest), parts⟩ := by
    refine mem_outcomes_andThen.2
      ⟨_, mem_outcomes_anyText.2 ⟨s, hs, List.prefix_append _ _, rfl⟩, ?_⟩
    rw [Cursor.behind_between]
    exact mem_outcomes_wordEdge.2 ⟨rfl, hedge⟩
  obtain ⟨o, hfirst⟩ := Option.isSome_iff_exists.1
    (List.isSome_head?.2 (List.ne_nil_of_mem hway))
  obtain ⟨-, heq⟩ := eq_of_mem_outcomes_wholeWord hpiece hrest hwords
    (List.mem_of_mem_head? hfirst)
  rw [Prefers, hfirst, heq]

end Prefers

end Pattern

end Glossator
