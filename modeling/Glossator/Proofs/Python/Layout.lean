import Glossator.Proofs.Python.Token
import Glossator.Proofs.Tree
import Glossator.Python.Layout

/-!
# Where layout tokens stand

A spot of a text moves forward only, and so do the layout tokens and the pieces of strings that are
found from spot to spot.

* `Python.Spot.Reaches`: a spot of the text at or behind another one.
* `Python.Layout.next_stands`: a layout token stands between two spots.
-/

set_option autoImplicit false

namespace Glossator.Python

variable {t : Text} {s s' s'' : Spot}

/-! ### Spots -/

namespace Spot

/-- The spot is one of the text. -/
structure IsOf (t : Text) (s : Spot) : Prop where
  place : t.IsPlace s.place
  rest : s.rest = t.drop s.place.offset

/-- The second spot is one of the text, at or behind the first. -/
structure Reaches (t : Text) (s s' : Spot) : Prop where
  isOf : s'.IsOf t
  le : s.place.offset ≤ s'.place.offset

theorem IsOf.refl (h : s.IsOf t) : s.Reaches t s := ⟨h, le_rfl⟩

theorem IsOf.here?_eq (h : s.IsOf t) : s.here? = t[s.place.offset]? := by
  rw [Spot.here?, h.rest, List.head?_drop]

theorem Reaches.trans (h : s.Reaches t s') (h' : s'.Reaches t s'') : s.Reaches t s'' :=
  ⟨h'.isOf, h.le.trans h'.le⟩

theorem IsOf.forward (h : s.IsOf t) (n : Nat) :
    (s.forward n).IsOf t ∧
      (s.forward n).place.offset = s.place.offset + min n s.rest.length := by
  induction n generalizing s with
  | zero => exact ⟨h, by simp [Spot.forward]⟩
  | succ n ih =>
    obtain ⟨place, rest⟩ := s
    cases rest with
    | nil => exact ⟨h, by simp [Spot.forward]⟩
    | cons c rest =>
      obtain ⟨hplace, hrest⟩ := h
      simp only at hplace hrest
      have hlt : place.offset < t.length := by
        by_contra hge
        rw [List.drop_eq_nil_of_le (Nat.le_of_not_lt hge)] at hrest
        cases hrest
      have hc : t[place.offset] = c ∧ t.drop (place.offset + 1) = rest := by
        rw [List.drop_eq_getElem_cons hlt] at hrest
        exact ⟨(List.cons.inj hrest).1.symm, (List.cons.inj hrest).2.symm⟩
      have hoffset : (place.after c).offset = place.offset + 1 := by
        unfold Place.after
        split <;> rfl
      have hafter : t.placeAt (place.offset + 1) = place.after c := by
        conv_rhs => rw [← hplace.eq_placeAt, ← hc.1]
        unfold Text.placeAt
        rw [List.take_succ_eq_append_getElem hlt, List.foldl_append]
        rfl
      have hnext : Spot.IsOf t ⟨place.after c, rest⟩ := by
        refine ⟨⟨place.offset + 1, hlt, hafter⟩, ?_⟩
        show rest = t.drop (place.after c).offset
        rw [hoffset, hc.2]
      obtain ⟨hforward, hforwardOffset⟩ := ih hnext
      refine ⟨hforward, ?_⟩
      rw [Spot.forward, hforwardOffset]
      simp only [hoffset, List.length_cons]
      omega

theorem IsOf.reaches_forward (h : s.IsOf t) (n : Nat) : s.Reaches t (s.forward n) := by
  obtain ⟨hforward, hoffset⟩ := h.forward n
  exact ⟨hforward, by omega⟩

theorem IsOf.lt_forward (h : s.IsOf t) {c : Char} (hc : s.here? = some c) (n : Nat) :
    s.place.offset < (s.forward (n + 1)).place.offset := by
  have hpos : 0 < s.rest.length := by
    unfold Spot.here? at hc
    exact List.length_pos_of_mem (List.mem_of_head? hc)
  rw [(h.forward (n + 1)).2]
  omega

theorem IsOf.reaches_next (h : s.IsOf t) : s.Reaches t s.next := h.reaches_forward 1

theorem IsOf.reaches_skipIf (h : s.IsOf t) (c : Char) : s.Reaches t (s.skipIf c) := by
  unfold Spot.skipIf
  split
  · exact h.reaches_next
  · exact h.refl

theorem IsOf.reaches_upTo (h : s.IsOf t) (rest : Text) : s.Reaches t (s.upTo rest) :=
  h.reaches_forward _

/-- The text up to a rest. -/
theorem IsOf.slice_upTo (h : s.IsOf t) (rest : Text) :
    Span.slice ⟨s.place.offset, (s.upTo rest).place.offset⟩ t =
      s.rest.take (s.rest.length - rest.length) := by
  rw [Span.slice, ← h.rest, Spot.upTo, (h.forward _).2, Nat.add_sub_cancel_left,
    Nat.min_eq_left (Nat.sub_le _ _)]

theorem IsOf.lt_upTo (h : s.IsOf t) {rest : Text} (hlt : rest.length < s.rest.length) :
    s.place.offset < (s.upTo rest).place.offset := by
  rw [Spot.upTo, (h.forward _).2]
  omega

end Spot

/-! ### Strings -/

namespace Layout

theorem reaches_skipProtected (h : s.IsOf t) (d : Delimiter) :
    s.Reaches t (skipProtected d s) := by
  have hnext := h.reaches_next
  have hquoted : s.Reaches t
      (if s.next.isAt d.quote || s.next.isAt '\\' then s.next.next else s.next) := by
    split
    · exact hnext.trans hnext.isOf.reaches_next
    · exact hnext
  unfold skipProtected
  simp only
  generalize (if s.next.isAt d.quote || s.next.isAt '\\' then s.next.next else s.next) = quoted
    at hquoted
  by_cases hreturn : quoted.isAt '\r' = true
  · rw [if_pos hreturn]
    have hbehind := hquoted.trans hquoted.isOf.reaches_next
    exact hbehind.trans (hbehind.isOf.reaches_skipIf '\n')
  · rw [if_neg hreturn]
    exact hquoted.trans (hquoted.isOf.reaches_skipIf '\n')

/-- Where a stretch of string content stops, in the text. -/
def ContentStop.IsOf (t : Text) (s : Spot) : ContentStop → Prop
  | .before s' => s.Reaches t s'
  | .atEnd s' => s.Reaches t s' ∧ s.place.offset < s'.place.offset
  | .unusable => True

theorem ContentStop.IsOf.trans {stop : ContentStop} (h : s.Reaches t s')
    (hstop : stop.IsOf t s') : stop.IsOf t s := by
  cases stop with
  | before => exact h.trans hstop
  | atEnd => exact ⟨h.trans hstop.1, h.le.trans_lt hstop.2⟩
  | unusable => trivial

theorem content_isOf (h : s.IsOf t) (d : Delimiter) (bound : Nat) (started : Bool) :
    (content d bound started s).IsOf t s := by
  induction bound generalizing s started with
  | zero => trivial
  | succ bound ih =>
    have hstop : (if started then ContentStop.before s else .unusable).IsOf t s := by
      split
      · exact h.refl
      · trivial
    have hend {c : Char} (hc : s.here? = some c) (n : Nat) :
        (ContentStop.atEnd (s.forward (n + 1))).IsOf t s :=
      ⟨h.reaches_forward _, h.lt_forward hc n⟩
    unfold content
    simp only
    cases hc : s.here? with
    | none => trivial
    | some c =>
      simp only
      by_cases hzero : c = '\x00'
      · rw [if_pos hzero]
        trivial
      rw [if_neg hzero]
      split
      · exact hstop
      split
      · split
        · have hprotected := reaches_skipProtected h d
          exact (ih hprotected.isOf started).trans hprotected
        · split
          · have hforward := h.reaches_forward 3
            exact (ih hforward.isOf true).trans hforward
          · exact hstop
      split
      · split
        · split
          · split
            · exact h.refl
            · exact hend hc 2
          · split
            · exact h.reaches_forward 2
            · exact h.reaches_next
        · split
          · exact h.refl
          · exact hend hc 0
      split
      · trivial
      · have hnext := h.reaches_next
        exact (ih hnext.isOf true).trans hnext

/-! ### Blanks, newlines and comments -/

theorem reaches_margin (w : Wanted) (bound : Nat) {m m' : Margin} (h : m.spot.IsOf t)
    (hm : margin w bound m = some m') : m.spot.Reaches t m'.spot := by
  induction bound generalizing m with
  | zero =>
    cases hm
    exact h.refl
  | succ bound ih =>
    have hon (m₁ : Margin) (hreaches : m.spot.Reaches t m₁.spot)
        (hmargin : margin w bound m₁ = some m') : m.spot.Reaches t m'.spot :=
      hreaches.trans (ih hreaches.isOf hmargin)
    have hnext := h.reaches_next
    unfold margin at hm
    cases hc : m.spot.here? with
    | none =>
      simp only [hc] at hm
      cases hm
      exact h.refl
    | some c =>
      simp only [hc] at hm
      split at hm
      · exact hon _ hnext hm
      split at hm
      · exact hon _ hnext hm
      split at hm
      · exact hon _ hnext hm
      split at hm
      · exact hon _ hnext hm
      split at hm
      · split at hm
        · cases hm
        · have hbehind := h.reaches_upTo (m.spot.rest.dropWhile fun c => c ≠ '\n' && c ≠ '\x00')
          exact hon _ (hbehind.trans hbehind.isOf.reaches_next) hm
      split at hm
      · split at hm
        · have hskip := hnext.trans (hnext.isOf.reaches_skipIf '\r')
          exact hon _ (hskip.trans hskip.isOf.reaches_next) hm
        · cases hm
      · cases hm
        exact h.refl

/-! ### Tokens -/

theorem openQuotes_spec (h : s.IsOf t) {letters : Text} {d : Delimiter}
    (hquotes : openQuotes letters s = some (d, s')) :
    s.Reaches t s' ∧ s.place.offset < s'.place.offset := by
  unfold openQuotes at hquotes
  cases hq : s.here? with
  | none =>
    simp only [hq] at hquotes
    cases hquotes
  | some q =>
    simp only [hq] at hquotes
    split at hquotes
    · cases hquotes
      split
      · exact ⟨h.reaches_forward 3, h.lt_forward hq 2⟩
      · exact ⟨h.reaches_forward 1, h.lt_forward hq 0⟩
    · cases hquotes

/-- Quotes open a token. -/
theorem opening_of_openQuotes {letters : Text} {d : Delimiter}
    (hquotes : openQuotes letters s = some (d, s')) :
    ∃ c, s.here? = some c ∧ Token.isOpening c = true := by
  unfold openQuotes at hquotes
  cases hq : s.here? with
  | none =>
    simp only [hq] at hquotes
    cases hquotes
  | some q =>
    simp only [hq] at hquotes
    obtain ⟨hquote, -⟩ := Option.ite_none_right_eq_some.1 hquotes
    refine ⟨q, rfl, ?_⟩
    simp only [Bool.or_eq_true, decide_eq_true_eq] at hquote
    rcases hquote with (rfl | rfl) | rfl <;> decide

/-- The letters before the quotes of a string open it, or the quotes do. -/
theorem opening_of_letters {d : Delimiter} (letters : List Char)
    (hletters : ∀ c ∈ letters, Token.isOpening c = true)
    (hquotes : openQuotes (s.rest.takeWhile letters.contains)
      (s.forward (s.rest.takeWhile letters.contains).length) = some (d, s')) :
    ∃ c, s.here? = some c ∧ Token.isOpening c = true := by
  cases hrest : s.rest with
  | nil =>
    rw [hrest] at hquotes
    exact opening_of_openQuotes hquotes
  | cons c rest =>
    by_cases hc : letters.contains c = true
    · exact ⟨c, by rw [Spot.here?, hrest, List.head?_cons],
        hletters c (List.contains_iff_mem.1 hc)⟩
    · rw [hrest, List.takeWhile_cons_of_neg hc] at hquotes
      exact opening_of_openQuotes hquotes

/-- Where a layout token stands, sought at a spot. -/
structure Stands (t : Text) (s : Spot) (x : LayoutLexeme) : Prop where
  start : t.IsPlace x.start
  behind : x.behind.spot.IsOf t
  ge : s.place.offset ≤ x.start.offset
  le : x.start.offset ≤ x.behind.spot.place.offset
  lt : x.token ∈ [.stringStart, .doubledBrace, .stringEnd] →
    x.start.offset < x.behind.spot.place.offset
  opening : x.token = .stringStart →
    ∃ c, t[x.start.offset]? = some c ∧ Token.isOpening c = true

/-- A token that starts at a spot. -/
theorem Stands.of_reaches (h : s.IsOf t) {token : LayoutToken} {behind : Lexing}
    (hbehind : s.Reaches t behind.spot)
    (hlt : token ∈ [.stringStart, .doubledBrace, .stringEnd] →
      s.place.offset < behind.spot.place.offset)
    (hopening : token = .stringStart → ∃ c, s.here? = some c ∧ Token.isOpening c = true) :
    Stands t s ⟨token, s.place, behind⟩ :=
  ⟨h.place, hbehind.isOf, le_rfl, hbehind.le, hlt, h.here?_eq ▸ hopening⟩

theorem Stands.mono {x : LayoutLexeme} (h : s.Reaches t s') (hx : Stands t s' x) :
    Stands t s x :=
  { hx with ge := h.le.trans hx.ge }

variable {l : Lexing} {x : LayoutLexeme} {w : Wanted}

theorem stringStart_stands (h : s.IsOf t) (hx : stringStart l s = some x) : Stands t s x := by
  unfold stringStart at hx
  obtain ⟨⟨d, behind⟩, hquotes, rfl⟩ := Option.map_eq_some_iff.1 hx
  have hletters := h.reaches_forward (s.rest.takeWhile fun c =>
    ['f', 'F', 'r', 'R', 'b', 'B', 'u', 'U'].contains c).length
  obtain ⟨hbehind, hlt⟩ := openQuotes_spec hletters.isOf hquotes
  refine .of_reaches h (hletters.trans hbehind) (fun _ => hletters.le.trans_lt hlt) fun _ => ?_
  exact opening_of_letters ['f', 'F', 'r', 'R', 'b', 'B', 'u', 'U']
    (List.all_eq_true.1 (by decide)) hquotes

theorem ofMargin_stands (h : l.spot.IsOf t) {m : Margin} (hm : l.spot.Reaches t m.spot)
    (hx : ofMargin w l m = some x) : Stands t l.spot x := by
  unfold ofMargin at hx
  simp only at hx
  split at hx
  · cases hx
    exact .of_reaches h h.refl (by simp) (by simp)
  split at hx
  · cases hx
    exact .of_reaches h h.refl (by simp) (by simp)
  split at hx
  · cases hx
    exact .of_reaches h h.refl (by simp) (by simp)
  split at hx
  · exact (stringStart_stands hm.isOf hx).mono hm
  · cases hx

theorem outside_stands (h : l.spot.IsOf t) (hx : outside w l = some x) : Stands t l.spot x := by
  unfold outside at hx
  obtain ⟨m, hm, hx⟩ := Option.bind_eq_some_iff.1 hx
  exact ofMargin_stands h (reaches_margin w _ h hm) hx

/-- A layout token stands between two spots of the text. -/
theorem next_stands (h : l.spot.IsOf t) (hx : next w l = some x) : Stands t l.spot x := by
  unfold next at hx
  cases hstrings : l.strings with
  | nil =>
    simp only [hstrings] at hx
    exact outside_stands h hx
  | cons d strings =>
    simp only [hstrings] at hx
    split at hx
    case isTrue hbrace =>
      split at hx
      · cases hx
        have hhere : ∃ c, l.spot.here? = some c := by
          simp only [Spot.isAt, Bool.and_eq_true, Bool.or_eq_true, beq_iff_eq] at hbrace
          exact hbrace.2.elim (fun hc => ⟨_, hc⟩) fun hc => ⟨_, hc⟩
        obtain ⟨c, hc⟩ := hhere
        exact .of_reaches h (h.reaches_forward 2) (fun _ => h.lt_forward hc 1) (by simp)
      · cases hx
    case isFalse =>
      split at hx
      · have hcontent := content_isOf h d (l.spot.rest.length + 1) false
        split at hx
        case h_1 s' hstop =>
          rw [hstop] at hcontent
          cases hx
          exact .of_reaches h hcontent (by simp) (by simp)
        case h_2 s' hstop =>
          rw [hstop] at hcontent
          cases hx
          exact .of_reaches h hcontent.1 (fun _ => hcontent.2) (by simp)
        case h_3 => cases hx
      · exact outside_stands h hx

end Layout

end Glossator.Python
