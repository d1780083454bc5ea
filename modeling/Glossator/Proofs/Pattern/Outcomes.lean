import Mathlib
import Glossator.Proofs.Pattern.Places

/-!
# The outcomes of a pattern

`Pattern.outcomes` lists the ways in which a pattern matches. This module says what each of them
read and reported.

* `Pattern.reads_of_mem_outcomes`: an outcome read characters of its pattern and added parts that
  its pattern reports, within what was read.
-/

set_option autoImplicit false

namespace Glossator

/-- A cursor gets to another one over a piece of text that stands there. -/
def Cursor.Reads (c : Cursor) (piece : Text) (c' : Cursor) : Prop :=
  piece <+: c.rest ∧ c' = c.behind piece

namespace Cursor.Reads

variable {c c' c'' : Cursor} {u v : Text}

@[simp] theorem behind_nil (c : Cursor) : c.behind [] = c := by
  simp [Cursor.behind]

theorem refl (c : Cursor) : c.Reads [] c := ⟨List.nil_prefix, (behind_nil c).symm⟩

theorem rest_eq (h : c.Reads u c') : c.rest = u ++ c'.rest := by
  obtain ⟨⟨rest, hrest⟩, rfl⟩ := h
  simp [Cursor.behind, ← hrest]

theorem offset_eq (h : c.Reads u c') : c'.offset = c.offset + u.length := by
  rw [h.2, Cursor.behind]

theorem trans (h : c.Reads u c') (h' : c'.Reads v c'') : c.Reads (u ++ v) c'' := by
  have hrest := h.rest_eq
  have hrest' := h'.rest_eq
  refine ⟨⟨c''.rest, by rw [hrest, hrest', List.append_assoc]⟩, ?_⟩
  obtain ⟨-, rfl⟩ := h
  obtain ⟨-, rfl⟩ := h'
  simp only [Cursor.behind, List.getLast?_append, List.drop_drop, List.length_append,
    Option.or_assoc, Nat.add_assoc]

/-- Between two places only one piece is read. -/
theorem unique (h : c.Reads u c') (h' : c.Reads v c') : u = v :=
  List.append_cancel_right (h.rest_eq.symm.trans h'.rest_eq)

/-- Two pieces behind one another are read one after the other. -/
theorem of_append (h : c.Reads (u ++ v) c') :
    c.Reads u (c.behind u) ∧ (c.behind u).Reads v c' := by
  have hrest := h.rest_eq
  rw [List.append_assoc] at hrest
  have hfirst : c.Reads u (c.behind u) := ⟨⟨_, hrest.symm⟩, rfl⟩
  have hbehind : (c.behind u).rest = v ++ c'.rest :=
    List.append_cancel_left (hfirst.rest_eq.symm.trans hrest)
  have hsecond : (c.behind u).Reads v ((c.behind u).behind v) := ⟨⟨_, hbehind.symm⟩, rfl⟩
  refine ⟨hfirst, hsecond.1, ?_⟩
  rw [h.2, (hfirst.trans hsecond).2]

/-- A piece read at a place of a text leads to the place of its end. -/
theorem eq_inText {t : Text} {i : Nat} (h : (Cursor.inText t i).Reads u c') :
    c' = Cursor.inText t (i + u.length) := h.2.trans (Cursor.behind_inText h.1)

theorem stop_le {t : Text} {i : Nat} (hi : i ≤ t.length) (h : (Cursor.inText t i).Reads u c') :
    i + u.length ≤ t.length := by
  have := h.1.length_le
  rw [Cursor.inText_rest, List.length_drop] at this
  omega

end Cursor.Reads

namespace Pattern

variable {γ β : Type}

@[simp] theorem append_eq (p q : Pattern γ) : p ++ q = p.andThen q := rfl

@[simp] theorem orOp_eq (p q : Pattern γ) : p ||| q = p.orElse q := rfl

/-! ### Repetition and runs -/

/-- What a repetition gets to, it gets to by steps that go forward. -/
theorem Outcome.reflTransGen_of_mem_repeat {step : Outcome γ → List (Outcome γ)} {bound : Nat}
    {o o' : Outcome γ} (h : o' ∈ Outcome.repeat step bound o) :
    Relation.ReflTransGen (fun a b => b ∈ step a ∧ a.cursor.offset < b.cursor.offset) o o' := by
  induction bound generalizing o with
  | zero =>
    rw [Outcome.repeat, List.mem_singleton] at h
    exact h ▸ .refl
  | succ bound ih =>
    rw [Outcome.repeat, List.mem_append, List.mem_flatMap, List.mem_singleton] at h
    rcases h with ⟨mid, hmid, h⟩ | rfl
    · split at h
      · next hlt => exact .head ⟨hmid, hlt⟩ (ih h)
      · cases h
    · exact .refl

/-- A run stops behind any number of characters of its class, the longest way first. -/
theorem Outcome.many_eq (cls : Char → Bool) (parts : List (γ × Span)) (previous : Option Char)
    (rest : Text) (offset : Nat) (shorter : List (Outcome γ)) :
    Outcome.many cls parts previous rest offset shorter =
      (List.range ((rest.takeWhile cls).length + 1)).reverse.map (fun n =>
        ⟨⟨(rest.take n).getLast?.or previous, rest.drop n, offset + n⟩, parts⟩) ++ shorter := by
  induction rest generalizing previous offset shorter with
  | nil => simp [Outcome.many]
  | cons c rest ih =>
    rw [Outcome.many]
    by_cases h : cls c
    · have hlast (n : Nat) : ((c :: rest).take (n + 1)).getLast?.or previous =
          (rest.take n).getLast?.or (some c) := by
        rw [List.take_succ_cons, List.getLast?_cons]
        cases (rest.take n).getLast? <;> rfl
      rw [if_pos h, ih, List.takeWhile_cons_of_pos h, List.length_cons,
        List.range_succ_eq_map (n := (rest.takeWhile cls).length + 1)]
      simp only [List.reverse_cons, List.map_append, ← List.map_reverse, List.map_map,
        List.append_assoc]
      congr 1
      apply List.map_congr_left
      intro n hn
      simp only [Function.comp_apply, Nat.succ_eq_add_one, hlast, List.drop_succ_cons,
        Nat.add_assoc, Nat.add_comm 1 n]
    · rw [if_neg h, List.takeWhile_cons_of_neg h]
      simp

/-- The outcomes of a run, as the places behind each shorter and shorter piece. -/
theorem outcomes_many (cls : Char → Bool) (o : Outcome γ) :
    (many cls).outcomes o = (List.range ((o.cursor.rest.takeWhile cls).length + 1)).reverse.map
      fun n => ⟨o.cursor.behind (o.cursor.rest.take n), o.parts⟩ := by
  rw [outcomes, Outcome.many_eq, List.append_nil]
  apply List.map_congr_left
  intro n hn
  have hle : n ≤ o.cursor.rest.length := by
    have := (List.takeWhile_prefix (l := o.cursor.rest) cls).length_le
    have := List.mem_range.1 (List.mem_reverse.1 hn)
    omega
  simp only [Cursor.behind, List.length_take, Nat.min_eq_left hle]

/-- A run reads any piece of characters of its class that stands there. -/
theorem mem_outcomes_many {cls : Char → Bool} {o o' : Outcome γ} :
    o' ∈ (many cls).outcomes o ↔ ∃ piece, (∀ c ∈ piece, cls c = true) ∧ piece <+: o.cursor.rest ∧
      o' = ⟨o.cursor.behind piece, o.parts⟩ := by
  rw [outcomes_many, List.mem_map]
  simp only [List.mem_reverse, List.mem_range, Nat.lt_succ_iff]
  constructor
  · rintro ⟨n, hn, rfl⟩
    refine ⟨_, ?_, List.take_prefix n _, rfl⟩
    intro c hc
    have hpre : o.cursor.rest.take n <+: o.cursor.rest.takeWhile cls :=
      List.prefix_of_prefix_length_le (List.take_prefix _ _) (List.takeWhile_prefix _)
        (by rw [List.length_take]; omega)
    exact List.mem_takeWhile_imp (hpre.mem hc)
  · rintro ⟨piece, hpiece, ⟨rest, hrest⟩, rfl⟩
    refine ⟨piece.length, ?_, ?_⟩
    · rw [← hrest, List.takeWhile_append_of_pos hpiece, List.length_append]
      exact Nat.le_add_right _ _
    · rw [← hrest, List.take_left]

/-! ### What an outcome read and reported -/

/-- The characters that a pattern may read. -/
def mayRead : Pattern γ → Char → Prop
  | empty, _ | lineStart, _ | wordEdge, _ => False
  | fixed piece, c => c ∈ piece
  | one cls, c | many cls, c => cls c
  | andThen first second, c => mayRead first c ∨ mayRead second c
  | orElse left right, c => mayRead left c ∨ mayRead right c
  | star body, c | part _ body, c => mayRead body c

/-- The parts that a pattern may report. -/
def mayReport : Pattern γ → γ → Prop
  | andThen first second, x => mayReport first x ∨ mayReport second x
  | orElse left right, x => mayReport left x ∨ mayReport right x
  | star body, x => mayReport body x
  | part name body, x => x = name ∨ mayReport body x
  | _, _ => False

/-- Reading on from one outcome to another: the piece read consists of certain characters, and
the parts added have certain names and lie where it was read. -/
structure Outcome.Extends (chars : Char → Prop) (names : γ → Prop) (o o' : Outcome γ) : Prop where
  reads : ∃ piece, o.cursor.Reads piece o'.cursor ∧ ∀ c ∈ piece, chars c
  parts : ∃ added, o'.parts = added ++ o.parts ∧ ∀ x ∈ added, names x.1 ∧
    o.cursor.offset ≤ x.2.start ∧ x.2.start ≤ x.2.stop ∧ x.2.stop ≤ o'.cursor.offset

namespace Outcome.Extends

variable {chars chars' : Char → Prop} {names names' : γ → Prop} {o o' o'' : Outcome γ}

theorem refl (o : Outcome γ) : o.Extends chars names o :=
  ⟨⟨[], .refl _, by simp⟩, [], rfl, by simp⟩

/-- Nothing is reported on the way over a piece. -/
theorem of_reads {piece : Text} {c : Cursor} (h : o.cursor.Reads piece c)
    (hc : ∀ c ∈ piece, chars c) : o.Extends chars names ⟨c, o.parts⟩ :=
  ⟨⟨piece, h, hc⟩, [], rfl, by simp⟩

theorem mono (h : o.Extends chars names o') (hc : ∀ c, chars c → chars' c)
    (hn : ∀ x, names x → names' x) : o.Extends chars' names' o' := by
  obtain ⟨⟨piece, hread, hpiece⟩, added, hadded, hparts⟩ := h
  exact ⟨⟨piece, hread, fun c hmem => hc c (hpiece c hmem)⟩, added, hadded,
    fun x hx => ⟨hn _ (hparts x hx).1, (hparts x hx).2⟩⟩

theorem offset_le (h : o.Extends chars names o') : o.cursor.offset ≤ o'.cursor.offset := by
  obtain ⟨piece, hread, -⟩ := h.reads
  rw [hread.offset_eq]
  omega

theorem trans (h : o.Extends chars names o') (h' : o'.Extends chars names o'') :
    o.Extends chars names o'' := by
  have hle := h.offset_le
  have hle' := h'.offset_le
  obtain ⟨⟨u, hu, hcu⟩, added, hadded, hparts⟩ := h
  obtain ⟨⟨v, hv, hcv⟩, added', hadded', hparts'⟩ := h'
  refine ⟨⟨u ++ v, hu.trans hv, ?_⟩, added' ++ added, by rw [hadded', hadded, List.append_assoc],
    ?_⟩
  · intro c hc
    rcases List.mem_append.1 hc with hc | hc
    · exact hcu c hc
    · exact hcv c hc
  · intro x hx
    rcases List.mem_append.1 hx with hx | hx
    · have := hparts' x hx
      exact ⟨this.1, by omega, this.2.2.1, this.2.2.2⟩
    · have := hparts x hx
      exact ⟨this.1, this.2.1, this.2.2.1, by omega⟩

/-- Without names that may be reported no parts are added. -/
theorem parts_eq (h : o.Extends chars names o') (hnone : ∀ x, ¬ names x) : o'.parts = o.parts := by
  obtain ⟨added, hadded, hparts⟩ := h.parts
  cases added with
  | nil => exact hadded
  | cons x added => exact absurd (hparts x List.mem_cons_self).1 (hnone x.1)

theorem lookup_eq [DecidableEq γ] (h : o.Extends chars names o') {x : γ} (hx : ¬ names x) :
    o'.parts.lookup x = o.parts.lookup x := by
  obtain ⟨added, hadded, hparts⟩ := h.parts
  rw [hadded, List.lookup_append, List.lookup_eq_none_iff.2, Option.none_or]
  intro y hy
  have hne : y.1 ≠ x := fun hyx => hx (hyx ▸ (hparts y hy).1)
  simpa using Ne.symm hne

end Outcome.Extends

/-- An outcome read characters of its pattern and added parts that its pattern reports. -/
theorem reads_of_mem_outcomes {p : Pattern γ} {o o' : Outcome γ} (h : o' ∈ p.outcomes o) :
    o.Extends p.mayRead p.mayReport o' := by
  induction p generalizing o o' with
  | empty =>
    obtain rfl := List.mem_singleton.1 h
    exact .refl o'
  | fixed piece =>
    rw [outcomes] at h
    split at h
    · next hpre =>
      obtain rfl := List.mem_singleton.1 h
      exact .of_reads ⟨List.isPrefixOf_iff_prefix.1 hpre, rfl⟩ fun c hc => hc
    · cases h
  | one cls =>
    rw [outcomes] at h
    split at h
    · cases h
    · next c rest hrest =>
      split at h
      · next hcls =>
        obtain rfl := List.mem_singleton.1 h
        have hread : o.cursor.Reads [c] ⟨some c, rest, o.cursor.offset + 1⟩ :=
          ⟨⟨rest, hrest.symm⟩, by simp [Cursor.behind, hrest]⟩
        refine .of_reads hread ?_
        intro d hd
        rw [List.mem_singleton.1 hd]
        exact hcls
      · cases h
  | many cls =>
    obtain ⟨piece, hpiece, hpre, rfl⟩ := mem_outcomes_many.1 h
    exact .of_reads ⟨hpre, rfl⟩ hpiece
  | lineStart =>
    rw [outcomes] at h
    split at h
    · obtain rfl := List.mem_singleton.1 h
      exact .refl o'
    · cases h
  | wordEdge =>
    rw [outcomes] at h
    split at h
    · obtain rfl := List.mem_singleton.1 h
      exact .refl o'
    · cases h
  | andThen first second ihFirst ihSecond =>
    rw [outcomes, List.mem_flatMap] at h
    obtain ⟨mid, hmid, h⟩ := h
    exact ((ihFirst hmid).mono (fun _ => .inl) fun _ => .inl).trans
      ((ihSecond h).mono (fun _ => .inr) fun _ => .inr)
  | orElse left right ihLeft ihRight =>
    rw [outcomes, List.mem_append] at h
    rcases h with h | h
    · exact (ihLeft h).mono (fun _ => .inl) fun _ => .inl
    · exact (ihRight h).mono (fun _ => .inr) fun _ => .inr
  | star body ih =>
    rw [outcomes] at h
    have hsteps := Outcome.reflTransGen_of_mem_repeat h
    clear h
    induction hsteps with
    | refl => exact .refl o
    | tail _ hstep ihSteps => exact ihSteps.trans (ih hstep.1)
  | part name body ih =>
    rw [outcomes, List.mem_map] at h
    obtain ⟨mid, hmid, rfl⟩ := h
    have hext := ih hmid
    have hle := hext.offset_le
    obtain ⟨hreads, added, hadded, hparts⟩ := hext
    refine ⟨hreads, (name, ⟨o.cursor.offset, mid.cursor.offset⟩) :: added, ?_, ?_⟩
    · rw [hadded, List.cons_append]
    · intro x hx
      rcases List.mem_cons.1 hx with rfl | hx
      · exact ⟨.inl rfl, le_rfl, hle, le_rfl⟩
      · exact ⟨.inr (hparts x hx).1, (hparts x hx).2⟩

/-! ### Membership, by kind of pattern -/

theorem mem_outcomes_andThen {first second : Pattern γ} {o o' : Outcome γ} :
    o' ∈ (first.andThen second).outcomes o ↔
      ∃ mid ∈ first.outcomes o, o' ∈ second.outcomes mid := by
  rw [outcomes, List.mem_flatMap]

theorem mem_outcomes_part {name : γ} {body : Pattern γ} {o o' : Outcome γ} :
    o' ∈ (part name body).outcomes o ↔ ∃ mid ∈ body.outcomes o,
      o' = ⟨mid.cursor, (name, ⟨o.cursor.offset, mid.cursor.offset⟩) :: mid.parts⟩ := by
  rw [outcomes, List.mem_map]
  exact exists_congr fun mid => and_congr_right fun _ => eq_comm

theorem mem_outcomes_orElse {left right : Pattern γ} {o o' : Outcome γ} :
    o' ∈ (left.orElse right).outcomes o ↔ o' ∈ left.outcomes o ∨ o' ∈ right.outcomes o := by
  rw [outcomes, List.mem_append]

theorem mem_outcomes_one {cls : Char → Bool} {o o' : Outcome γ} :
    o' ∈ (one cls).outcomes o ↔
      ∃ c, cls c = true ∧ [c] <+: o.cursor.rest ∧ o' = ⟨o.cursor.behind [c], o.parts⟩ := by
  rw [outcomes]
  cases hrest : o.cursor.rest with
  | nil => simp
  | cons c rest =>
    by_cases hc : cls c = true <;> simp [hc, hrest, Cursor.behind]

theorem mem_outcomes_lineStart {o o' : Outcome γ} :
    o' ∈ lineStart.outcomes o ↔ o' = o ∧ o.cursor.atLineStart = true := by
  rw [outcomes]
  split <;> simp_all

theorem mem_outcomes_wordEdge {o o' : Outcome γ} :
    o' ∈ wordEdge.outcomes o ↔ o' = o ∧ o.cursor.atWordEdge = true := by
  rw [outcomes]
  split <;> simp_all

theorem mem_outcomes_fixed {piece : Text} {o o' : Outcome γ} :
    o' ∈ (fixed piece).outcomes o ↔
      piece <+: o.cursor.rest ∧ o' = ⟨o.cursor.behind piece, o.parts⟩ := by
  rw [outcomes, ← List.isPrefixOf_iff_prefix]
  split <;> simp_all

theorem mem_outcomes_anyText {words : List String} {o o' : Outcome γ} :
    o' ∈ (anyText words).outcomes o ↔
      ∃ w ∈ words, w.toList <+: o.cursor.rest ∧ o' = ⟨o.cursor.behind w.toList, o.parts⟩ := by
  fun_induction anyText words with
  | case1 =>
    rw [outcomes]
    split <;> simp
  | case2 s => simp [text, mem_outcomes_fixed]
  | case3 s rest _ ih =>
    rw [orOp_eq, outcomes, List.mem_append, text, mem_outcomes_fixed, ih]
    simp

/-- The characters of several texts are read by reading one of them. -/
theorem exists_of_mayRead_anyText {words : List String} {c : Char}
    (h : (anyText words : Pattern γ).mayRead c) : ∃ w ∈ words, c ∈ w.toList := by
  fun_induction anyText words with
  | case1 => cases h
  | case2 s => exact ⟨s, by simp, h⟩
  | case3 s rest _ ih =>
    rcases h with h | h
    · exact ⟨s, by simp, h⟩
    · obtain ⟨w, hw, hc⟩ := ih h
      exact ⟨w, List.mem_cons_of_mem _ hw, hc⟩

theorem behind_cons (c : Cursor) (d : Char) (gap : Text) :
    c.behind (d :: gap) = (c.behind [d]).behind gap := by
  simp [Cursor.behind, List.getLast?_cons, Nat.add_assoc, Nat.add_comm 1]

theorem cons_prefix_rest_iff {c : Cursor} {d : Char} {piece : Text} :
    d :: piece <+: c.rest ↔ [d] <+: c.rest ∧ piece <+: (c.behind [d]).rest := by
  rw [Cursor.behind]
  cases c.rest with
  | nil => simp
  | cons e rest => simp

/-- At least one character of a class is read as a piece of such characters. -/
theorem mem_outcomes_someOf {cls : Char → Bool} {o o' : Outcome γ} :
    o' ∈ (someOf cls).outcomes o ↔ ∃ piece, piece ≠ [] ∧ (∀ c ∈ piece, cls c = true) ∧
      piece <+: o.cursor.rest ∧ o' = ⟨o.cursor.behind piece, o.parts⟩ := by
  rw [someOf, append_eq, mem_outcomes_andThen]
  constructor
  · rintro ⟨_, hone, hmany⟩
    obtain ⟨c, hc, hfirst, rfl⟩ := mem_outcomes_one.1 hone
    obtain ⟨piece, hpiece, hrest, rfl⟩ := mem_outcomes_many.1 hmany
    exact ⟨c :: piece, List.cons_ne_nil _ _, List.forall_mem_cons.2 ⟨hc, hpiece⟩,
      cons_prefix_rest_iff.2 ⟨hfirst, hrest⟩, by rw [behind_cons o.cursor c piece]⟩
  · rintro ⟨piece, hne, hpiece, hpre, rfl⟩
    obtain ⟨c, piece, rfl⟩ := List.exists_cons_of_ne_nil hne
    obtain ⟨hc, hmore⟩ := List.forall_mem_cons.1 hpiece
    obtain ⟨hfirst, hrest⟩ := cons_prefix_rest_iff.1 hpre
    exact ⟨_, mem_outcomes_one.2 ⟨c, hc, hfirst, rfl⟩,
      mem_outcomes_many.2 ⟨piece, hmore, hrest, by rw [behind_cons o.cursor c piece]⟩⟩

theorem reads_of_mem_someOf {cls : Char → Bool} {o o' : Outcome γ}
    (h : o' ∈ (someOf cls).outcomes o) : o'.parts = o.parts ∧
      ∃ piece, piece ≠ [] ∧ o.cursor.Reads piece o'.cursor ∧ ∀ c ∈ piece, cls c := by
  obtain ⟨piece, hne, hpiece, hpre, rfl⟩ := mem_outcomes_someOf.1 h
  exact ⟨rfl, piece, hne, ⟨hpre, rfl⟩, hpiece⟩

end Pattern

end Glossator
