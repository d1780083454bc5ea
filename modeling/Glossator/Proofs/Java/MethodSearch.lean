import Glossator.Proofs.Java.ByteBlock
import Glossator.Proofs.Java.Method

/-!
# The search for methods

The search goes from header to header. In each round it finds the first header from its cursor on
and goes on behind it, or behind the body of the method if the header is taken. No round gets stuck:
a header is not empty, and behind its brace there is a block. So the search ends, and only where no
header is left.

* `Java.Searches`: the rounds of a search.
* `Java.byteExtent?_eq`: where a method lies, computed in bytes.
* `Java.Round.Advances`: what one round does.
* `Java.methods_spec`: the rounds that lead to the methods of a stretch.
-/

set_option autoImplicit false

namespace Glossator.Java

open Utf8

variable {src : Source} {scope : Option Scope} {s : Stretch} {t : Text} {m : Match HeaderPart}
  {title : Span} {e : Extent}

/-! ### Rounds -/

/-- One round of the search: where it starts, the header it finds, and where the method lies if the
header is taken. -/
structure Round where
  cursor : Nat
  header : Match HeaderPart
  taken : Option Extent

namespace Round

/-- Where the search goes on. -/
def next (r : Round) : Nat :=
  match r.taken with
  | some e => e.stop
  | none => r.header.stop

/-- The method that the round gives. -/
def method? (r : Round) : Option Method := r.taken.map (Method.mk r.header)

end Round

/-- The types of a stretch, whose members are not its own. -/
def typeExtents (src : Source) (s : Stretch) : List Span :=
  (typeDeclarations src s).map TypeDeclaration.extent

/-- The rounds of a search from a cursor on, and the cursor at which no header is found any more. A
search does not end in any other way. -/
inductive Searches (src : Source) (scope : Option Scope) (s : Stretch) :
    Nat → List Round → Nat → Prop
  | stop {cursor : Nat} : (Finder.ofPattern methodHeader s.text).find? cursor = none →
      Searches src scope s cursor [] cursor
  | pass {cursor last : Nat} {m : Match HeaderPart} {rounds : List Round} :
      (Finder.ofPattern methodHeader s.text).find? cursor = some m →
      isOwnMethod src scope s (typeExtents src s) m = false →
      Searches src scope s m.stop rounds last →
      Searches src scope s cursor (⟨cursor, m, none⟩ :: rounds) last
  | take {cursor last : Nat} {m : Match HeaderPart} {e : Extent} {rounds : List Round} :
      (Finder.ofPattern methodHeader s.text).find? cursor = some m →
      isOwnMethod src scope s (typeExtents src s) m = true → extent? s.text m = some e →
      Searches src scope s e.stop rounds last →
      Searches src scope s cursor (⟨cursor, m, some e⟩ :: rounds) last

/-- Every search ends, and gives the methods that its rounds give. -/
theorem exists_searches (src : Source) (scope : Option Scope) (s : Stretch) (cursor : Nat) :
    ∃ rounds last, Searches src scope s cursor rounds last ∧
      methodsAfter src scope s (typeExtents src s) cursor = rounds.filterMap Round.method? := by
  -- the text left behind the cursor gets shorter in every round
  induction hleft : s.text.length + 1 - cursor using Nat.strong_induction_on
    generalizing cursor with
  | _ left ih =>
    cases hfind : (Finder.ofPattern methodHeader s.text).find? cursor with
    | none =>
      exact ⟨[], cursor, .stop hfind, methodsAfter_eq_nil (Finder.find?_eq_none_iff.1 hfind)⟩
    | some m =>
      obtain ⟨title, hshape⟩ := MethodHeader.of_find? hfind
      have hle := Finder.start_le_of_find? hfind
      have hlt := hshape.start_lt_stop
      have hlen := hshape.stop_le
      cases hown : isOwnMethod src scope s (typeExtents src s) m with
      | false =>
        obtain ⟨rounds, last, hrounds, hmethods⟩ := ih _ (by omega) m.stop rfl
        refine ⟨_, last, .pass hfind hown hrounds, ?_⟩
        rw [methodsAfter_of_not_own hfind hown, hmethods]
        rfl
      | true =>
        obtain ⟨e, he⟩ := hshape.exists_extent?
        have hheader := (ExtentOf.of_extent? hshape he).header_le
        obtain ⟨rounds, last, hrounds, hmethods⟩ := ih _ (by omega) e.stop rfl
        refine ⟨_, last, .take hfind hown he hrounds, ?_⟩
        rw [methodsAfter_of_own hfind hown he, hmethods]
        rfl

/-! ### Bytes -/

/-- Where a method lies in the bytes of its stretch. -/
structure ByteExtent where
  lineStart : Nat
  start : Nat
  bodyStart : Nat
  stop : Nat

/-- Where a method lies, in bytes. -/
def Extent.inBytes (t : Text) (e : Extent) : ByteExtent where
  lineStart := byteOffset t e.lineStart
  start := byteOffset t e.start
  bodyStart := byteOffset t e.bodyStart
  stop := byteOffset t e.stop

/-- Where the method lies that a header declares, computed from the bytes of the header and of the
text. -/
def byteExtent? (t : Text) (m : Match HeaderPart) : Option ByteExtent :=
  let lead := encode ((m.span.slice t).takeWhile isBlank)
  let sinceLine := lead.reverse.takeWhile (· ≠ ascii '\n')
  let start := byteOffset t m.start + lead.length
  let lineStart := byteOffset t m.start + (lead.length - sinceLine.length)
  let stop := byteOffset t m.stop
  if m.text t .terminator = [';'] then some ⟨lineStart, start, stop - 1, stop⟩
  else (byteBlock? (encode t) (stop - 1)).map fun b => ⟨lineStart, start, b.opening, b.stop⟩

/-- The bytes since the last line end are those of the characters since then. -/
theorem takeWhile_reverse_encode {above since : Text} (hsince : '\n' ∉ since)
    (habove : ∀ c ∈ above.getLast?, c = '\n') :
    (encode (above ++ since)).reverse.takeWhile (· ≠ ascii '\n') = (encode since).reverse := by
  have hplain : ∀ b ∈ (encode since).reverse, decide (b ≠ ascii '\n') = true := by
    intro b hb
    rw [decide_eq_true_iff]
    rintro rfl
    obtain ⟨c, hc, hmem⟩ := List.mem_flatMap.1 (List.mem_reverse.1 hb)
    exact hsince (eq_of_ascii_mem (by decide) hmem ▸ hc)
  rw [encode_append, List.reverse_append, List.takeWhile_append_of_pos hplain]
  rcases List.eq_nil_or_concat above with rfl | ⟨front, c, rfl⟩
  · simp
  · obtain rfl : c = '\n' := habove c (by simp)
    rw [List.concat_eq_append, encode_append, encode_cons, encodeChar_of_lt (by decide)]
    simp

/-- The mark at the end of a header is one byte. -/
theorem byteOffset_mark (hm : MethodHeader t m title) :
    byteOffset t m.stop - 1 = byteOffset t (m.stop - 1) := by
  obtain ⟨c, hget, hc⟩ := hm.terminator_char
  have hbyte : c.toNat < 128 := by rcases hc with rfl | rfl <;> decide
  have hpos : m.stop - 1 + 1 = m.stop := by
    have := hm.title_le
    omega
  rw [← byteOffset_pred hget hbyte, hpos]

/-- A method lies at the same place in bytes as in characters. -/
theorem byteExtent?_eq (hm : MethodHeader t m title) (he : extent? t m = some e) :
    byteExtent? t m = some (e.inBytes t) := by
  obtain ⟨above, since, hlead, hnewline, habove, hline, hstart⟩ := lines_of_extent? he
  have hprefix : above ++ since <+: t.drop m.start := by
    rw [← hlead]
    exact (List.takeWhile_prefix _).trans (List.take_prefix _ _)
  have hstartBytes :
      byteOffset t e.start = byteOffset t m.start + (encode (above ++ since)).length := by
    rw [← byteOffset_of_prefix hprefix, hstart, List.length_append, Nat.add_assoc]
  have hlineBytes : byteOffset t e.lineStart = byteOffset t m.start + (encode above).length := by
    rw [← byteOffset_of_prefix ((List.prefix_append above since).trans hprefix), hline]
  have hsince :
      (encode (above ++ since)).length - (encode since).length = (encode above).length := by
    rw [encode_append, List.length_append, Nat.add_sub_cancel]
  simp only [byteExtent?, hlead, takeWhile_reverse_encode hnewline habove, List.length_reverse,
    hsince, ← hstartBytes, ← hlineBytes, byteOffset_mark hm, byteBlock?_encode]
  simp only [extent?] at he
  split at he
  · next hterminator =>
    cases he
    rw [if_pos hterminator]
    rfl
  · next hterminator =>
    obtain ⟨b, hb, rfl⟩ := Option.map_eq_some_iff.1 he
    rw [if_neg hterminator, hb]
    rfl

/-! ### What a round does -/

/-- A span of bytes that can be cut out of a text: it is in order, and both of its ends are between
characters. -/
def CanCut (t : Text) (span : Span) : Prop :=
  span.start ≤ span.stop ∧ IsBoundary t span.start ∧ IsBoundary t span.stop

/-- The spans of bytes that are cut out of a text in a round: what is left to search, the header,
the blanks at its start, the text from its mark on, and the method with and without its header. -/
def Round.cuts (t : Text) (r : Round) (e : ByteExtent) : List Span :=
  let start := byteOffset t r.header.start
  let stop := byteOffset t r.header.stop
  [⟨byteOffset t r.cursor, (encode t).length⟩, ⟨start, stop⟩, ⟨start, e.start⟩,
    ⟨stop - 1, (encode t).length⟩, ⟨e.lineStart, e.stop⟩, ⟨e.bodyStart, e.stop⟩]

/-- What a round does: it finds the first header from its cursor on, which is not empty, and goes on
behind it and within the text. A block opens with the brace at the end of a header. Where the method
lies can be told from the bytes, and everything that is cut out of the text can be. -/
structure Round.Advances (t : Text) (r : Round) : Prop where
  cursor_le : r.cursor ≤ r.header.start
  first : ∀ i, r.cursor ≤ i → i < r.header.start → methodHeader.matchAt? t i = none
  start_lt : r.header.start < r.header.stop
  header_le : r.header.stop ≤ r.next
  next_le : r.next ≤ t.length
  forward : r.cursor < r.next ∧ byteOffset t r.cursor < byteOffset t r.next
  mark : t[r.header.stop - 1]? = some '{' ∨ t[r.header.stop - 1]? = some ';'
  block : t[r.header.stop - 1]? = some '{' → ∃ b, block? t (r.header.stop - 1) = some b ∧
    b.opening = r.header.stop - 1 ∧ r.header.stop ≤ b.stop
  extent : ∃ e, extent? t r.header = some e ∧ (∀ taken ∈ r.taken, taken = e) ∧
    byteExtent? t r.header = some (e.inBytes t) ∧ ∀ cut ∈ r.cuts t (e.inBytes t), CanCut t cut

theorem canCut_byteOffset {i j : Nat} (h : i ≤ j) : CanCut t ⟨byteOffset t i, byteOffset t j⟩ :=
  ⟨byteOffset_mono t h, isBoundary_byteOffset t i, isBoundary_byteOffset t j⟩

theorem Round.canCut_of_mem_cuts {r : Round} (hm : MethodHeader t r.header title)
    (he : extent? t r.header = some e) (hcursor : r.cursor ≤ r.header.start) :
    ∀ cut ∈ r.cuts t (e.inBytes t), CanCut t cut := by
  have hplace := ExtentOf.of_extent? hm he
  have hstart := hplace.start_le
  have hline := hplace.lineStart_le
  have hheader := hplace.header_le
  have hlen := hm.stop_le
  have hfirst := (lead_of_extent? hm he).1
  have hbody : e.bodyStart ≤ e.stop := by
    cases hb : e.body with
    | none => simp [Extent.bodyStart, hb]
    | some b =>
      have hopening := (hplace.body b hb).2.1
      simp only [Extent.bodyStart, hb, Option.map_some, Option.getD_some]
      omega
  simp only [cuts, List.forall_mem_cons, Extent.inBytes, byteOffset_mark hm, ← byteOffset_length,
    List.not_mem_nil, false_implies, implies_true, and_true]
  exact ⟨canCut_byteOffset (by omega), canCut_byteOffset (by omega), canCut_byteOffset (by omega),
    canCut_byteOffset (by omega), canCut_byteOffset (by omega), canCut_byteOffset hbody⟩

/-- A round does what rounds do if its header was found from its cursor on. -/
theorem Round.Advances.of_find? {r : Round}
    (hfind : (Finder.ofPattern methodHeader t).find? r.cursor = some r.header)
    (htaken : ∀ e ∈ r.taken, extent? t r.header = some e) : r.Advances t := by
  obtain ⟨hle, -, -, hfirst⟩ := Finder.find?_eq_some_iff.1 hfind
  obtain ⟨title, hm⟩ := MethodHeader.of_find? hfind
  obtain ⟨e, he⟩ := hm.exists_extent?
  have hnext : r.header.stop ≤ r.next ∧ r.next ≤ t.length := by
    cases htake : r.taken with
    | none =>
      simp only [next, htake]
      exact ⟨le_rfl, hm.stop_le⟩
    | some e' =>
      have hplace := ExtentOf.of_extent? hm (htaken e' htake)
      simp only [next, htake]
      exact ⟨hplace.header_le, hplace.stop_le⟩
  have hforward : r.cursor < r.next := hle.trans_lt (hm.start_lt_stop.trans_le hnext.1)
  refine ⟨hle, hfirst, hm.start_lt_stop, hnext.1, hnext.2,
    ⟨hforward, byteOffset_lt_byteOffset (hforward.trans_le hnext.2) hforward⟩, ?_, ?_,
    ⟨e, he, fun e' he' => ?_, byteExtent?_eq hm he, canCut_of_mem_cuts hm he hle⟩⟩
  · obtain ⟨c, hget, rfl | rfl⟩ := hm.terminator_char
    · exact .inl hget
    · exact .inr hget
  · intro hbrace
    obtain ⟨b, hb⟩ := exists_block?_of_brace hbrace
    have hopening := opening_eq_of_block? hb hbrace
    have hlt := (BlockAt.of_block? hb).opening_lt
    exact ⟨b, hb, hopening, by omega⟩
  · exact Option.some.inj ((htaken e' he').symm.trans he)

/-! ### What a search does -/

variable {cursor last : Nat} {r : Round} {rounds : List Round}

/-- One round of a search, and the search that goes on behind it. -/
theorem Searches.step (h : Searches src scope s cursor (r :: rounds) last) :
    r.cursor = cursor ∧ r.Advances s.text ∧
      (r.taken.isSome = isOwnMethod src scope s (typeExtents src s) r.header) ∧
      Searches src scope s r.next rounds last := by
  cases h with
  | pass hfind hown hrest => exact ⟨rfl, .of_find? hfind (by simp), hown.symm, hrest⟩
  | take hfind hown he hrest => exact ⟨rfl, .of_find? hfind (by simpa using he), hown.symm, hrest⟩

/-- A search that has no more rounds has found no more headers. -/
theorem Searches.stops (h : Searches src scope s cursor [] last) :
    last = cursor ∧ ∀ i, last ≤ i → i ≤ s.text.length → methodHeader.matchAt? s.text i = none := by
  cases h with
  | stop hfind => exact ⟨rfl, Finder.find?_eq_none_iff.1 hfind⟩

/-- What a search does: each of its rounds goes on behind the ones before it, up to a cursor from
which on no header is found. -/
structure Searched (src : Source) (scope : Option Scope) (s : Stretch) (cursor : Nat)
    (rounds : List Round) (last : Nat) : Prop where
  advances : ∀ r ∈ rounds, r.Advances s.text
  taken : ∀ r ∈ rounds, r.taken.isSome = isOwnMethod src scope s (typeExtents src s) r.header
  cursor_le : ∀ r ∈ rounds, cursor ≤ r.cursor
  inOrder : rounds.Pairwise fun r r' => r.next ≤ r'.cursor
  last_le : last ≤ s.text.length
  exhausted : ∀ i, last ≤ i → i ≤ s.text.length → methodHeader.matchAt? s.text i = none

theorem Searches.searched (h : Searches src scope s cursor rounds last)
    (hcursor : cursor ≤ s.text.length) : Searched src scope s cursor rounds last := by
  induction rounds generalizing cursor with
  | nil =>
    obtain ⟨rfl, hnone⟩ := h.stops
    exact ⟨by simp, by simp, by simp, .nil, hcursor, hnone⟩
  | cons r rounds ih =>
    obtain ⟨rfl, hadvances, htaken, hrest⟩ := h.step
    have hsearched := ih hrest hadvances.next_le
    have hle := hadvances.forward.1.le
    exact
      { advances := List.forall_mem_cons.2 ⟨hadvances, hsearched.advances⟩
        taken := List.forall_mem_cons.2 ⟨htaken, hsearched.taken⟩
        cursor_le := List.forall_mem_cons.2
          ⟨le_rfl, fun r' hr' => hle.trans (hsearched.cursor_le r' hr')⟩
        inOrder := .cons hsearched.cursor_le hsearched.inOrder
        last_le := hsearched.last_le
        exhausted := hsearched.exhausted }

/-! ### The methods of a stretch -/

/-- A method with its header, in the characters of its stretch. -/
def Method.span (m : Method) : Span := ⟨m.extent.lineStart, m.extent.stop⟩

/-- The methods of a stretch lie one behind the other. -/
theorem areOrdered_methods (src : Source) (scope : Option Scope) (s : Stretch) :
    AreOrdered ((methods src scope s).map Method.span) where
  start_lt := by
    simp only [List.forall_mem_map]
    intro m hm
    obtain ⟨title, hfound⟩ := exists_found_of_mem_methods hm
    have hfirst := (lead_of_extent? hfound.shape hfound.extent).1
    have hline := hfound.place.lineStart_le
    have hheader := hfound.place.header_le
    simp only [Method.span]
    omega
  pairwise := by
    refine List.pairwise_map.2 ((pairwise_methods src scope s).imp_of_mem ?_)
    intro m m' _ hm' hle
    obtain ⟨title, hfound⟩ := exists_found_of_mem_methods hm'
    exact hle.trans hfound.place.start_le

/-- The methods of a stretch are those of a search that starts with the stretch, has finitely many
rounds and ends where no header is left. In each round the cursor goes forward, at least to the end
of the header, and never is a block missing or a cut out of place. The methods lie one behind the
other in bytes. -/
theorem methods_spec (src : Source) (scope : Option Scope) (s : Stretch) :
    ∃ rounds last, Searches src scope s 0 rounds last ∧ Searched src scope s 0 rounds last ∧
      methods src scope s = rounds.filterMap Round.method? ∧
      (rounds.Pairwise fun r r' => r.header.stop ≤ r'.header.start ∧ r.next ≤ r'.header.start) ∧
      AreOrdered ((methods src scope s).map fun m => byteSpan s.text m.span) := by
  obtain ⟨rounds, last, hsearches, hmethods⟩ := exists_searches src scope s 0
  have hsearched := hsearches.searched (Nat.zero_le _)
  refine ⟨rounds, last, hsearches, hsearched, hmethods, ?_, ?_⟩
  · refine hsearched.inOrder.imp_of_mem fun {r r'} hr hr' hnext => ?_
    have hle := hnext.trans (hsearched.advances r' hr').cursor_le
    exact ⟨(hsearched.advances r hr).header_le.trans hle, hle⟩
  · have hstop : ∀ span ∈ (methods src scope s).map Method.span, span.stop ≤ s.text.length := by
      simp only [List.forall_mem_map]
      intro m hm
      obtain ⟨title, hfound⟩ := exists_found_of_mem_methods hm
      exact hfound.place.stop_le
    have hbytes := (areOrdered_methods src scope s).byteSpans hstop
    rwa [List.map_map] at hbytes

end Glossator.Java
