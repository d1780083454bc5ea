import Glossator.Proofs.Java.Region
import Glossator.Proofs.Text.Utf8

/-!
# Comments by an automaton

Which bytes of a Java text stand in comments is told by an automaton that reads the bytes one after
the other and looks one byte ahead. The comments that the scanner collects are the runs of these
bytes, and an offset is looked up in them by halving.

* `Java.marks_iff`: the automaton marks a byte exactly if a comment holds it.
* `Java.lookup_iff`: the lookup by halving finds every offset in a span, and no other.
* `Java.isLexed`: the comments of a text as spans of its bytes.
-/

set_option autoImplicit false

namespace Glossator.Java

open Utf8 (ascii encode)

/-! ### The automaton -/

/-- What the bytes that were read so far leave open. -/
inductive LexerState where
  | code
  | lineComment
  /-- The star of an opener comes next. -/
  | blockOpening
  | blockComment
  /-- The slash of a closer comes next. -/
  | blockClosing
  | literal (quote : UInt8)
  /-- A backslash in a literal protects what comes next. -/
  | escape (quote : UInt8)
deriving DecidableEq

namespace LexerState

/-- The byte that is read in a state, with another one next, stands in a comment. -/
def covers (b : UInt8) (next : Option UInt8) : LexerState → Bool
  | code => b = ascii '/' ∧ (next = some (ascii '/') ∨ next = some (ascii '*'))
  | lineComment => b ≠ ascii '\n'
  | blockOpening | blockComment | blockClosing => true
  | literal _ | escape _ => false

/-- The state after a byte that is read in a state, with another one next. -/
def step (b : UInt8) (next : Option UInt8) : LexerState → LexerState
  | code =>
    if b = ascii '/' ∧ next = some (ascii '/') then lineComment
    else if b = ascii '/' ∧ next = some (ascii '*') then blockOpening
    else if b = ascii '"' ∨ b = ascii '\'' then literal b
    else code
  | lineComment => if b = ascii '\n' then code else lineComment
  | blockOpening => blockComment
  | blockComment =>
    if b = ascii '*' ∧ next = some (ascii '/') then blockClosing else blockComment
  | blockClosing => code
  | literal quote =>
    if b = ascii '\\' then escape quote
    else if b = quote ∨ b = ascii '\n' then code
    else literal quote
  | escape quote => literal quote

/-- Which of the bytes that are read from a state on stand in comments. -/
def marks : LexerState → Bytes → List Bool
  | _, [] => []
  | s, b :: rest => s.covers b rest.head? :: marks (s.step b rest.head?) rest

end LexerState

open LexerState

/-- The byte at an offset stands in a comment if the automaton says so that starts with the text. -/
def IsMarked (bytes : Bytes) (offset : Nat) : Prop := (code.marks bytes)[offset]? = some true

/-- A closer does not share its star with the opener. -/
example : code.marks (encode "/*/ a".toList) = List.replicate 5 true := by decide +kernel

/-- A state that does not change marks all bytes alike. -/
theorem marks_append_of_steady {s : LexerState} {mark : Bool} {w : Bytes}
    (h : ∀ b ∈ w, ∀ next, s.step b next = s ∧ s.covers b next = mark) (v : Bytes) :
    s.marks (w ++ v) = List.replicate w.length mark ++ s.marks v := by
  induction w with
  | nil => rfl
  | cons b w ih =>
    obtain ⟨hstep, hcovers⟩ := h b List.mem_cons_self (w ++ v).head?
    rw [List.cons_append, marks, hstep, hcovers, ih fun b' hb' => h b' (List.mem_cons_of_mem b hb')]
    rfl

theorem marks_cons_of_lt {s : LexerState} {c : Char} (h : c.toNat < 128) (t : Text) :
    s.marks (encode (c :: t)) = s.covers (ascii c) (encode t).head? ::
      (s.step (ascii c) (encode t).head?).marks (encode t) := by
  rw [Utf8.encode_cons, Utf8.encodeChar_of_lt h]
  rfl

/-- A state is steady over a character none of whose bytes it minds. -/
theorem marks_cons_of_steady {s : LexerState} {mark : Bool} {c : Char}
    (h : ∀ b ∈ String.utf8EncodeChar c, ∀ next, s.step b next = s ∧ s.covers b next = mark)
    (t : Text) : s.marks (encode (c :: t)) =
      List.replicate (String.utf8EncodeChar c).length mark ++ s.marks (encode t) :=
  marks_append_of_steady h (encode t)

/-- A byte of a character is not that of another one. -/
theorem ne_ascii_of_mem {c d : Char} (hd : d.toNat < 128) (hcd : c ≠ d) {b : UInt8}
    (hb : b ∈ String.utf8EncodeChar c) : b ≠ ascii d := by
  rintro rfl
  exact hcd (Utf8.eq_of_ascii_mem hd hb).symm

/-! ### What the automaton makes of comments and literals -/

/-- From a state, the automaton marks the bytes of what is read all alike, and is in code behind
it. -/
def Reads (s : LexerState) (mark : Bool) (t after : Text) : Prop :=
  ∃ read, t = read ++ after ∧
    s.marks (encode t) = List.replicate (encode read).length mark ++ code.marks (encode after)

variable {s s' : LexerState} {mark : Bool} {t after : Text} {c : Char}

theorem Reads.nil (s : LexerState) (mark : Bool) : Reads s mark [] [] := ⟨[], rfl, rfl⟩

/-- A character of which all bytes are marked like those behind it. -/
theorem Reads.cons (h : Reads s' mark t after)
    (hmarks : s.marks (encode (c :: t)) =
      List.replicate (String.utf8EncodeChar c).length mark ++ s'.marks (encode t)) :
    Reads s mark (c :: t) after := by
  obtain ⟨read, rfl, hread⟩ := h
  refine ⟨c :: read, rfl, ?_⟩
  rw [hmarks, hread, Utf8.encode_cons, List.length_append, ← List.append_assoc,
    List.replicate_append_replicate]

/-- A character of one byte that leads to another state. -/
theorem Reads.step (h : Reads s' mark t after) (hc : c.toNat < 128)
    (hstep : s.step (ascii c) (encode t).head? = s')
    (hcovers : s.covers (ascii c) (encode t).head? = mark) : Reads s mark (c :: t) after := by
  refine h.cons ?_
  rw [marks_cons_of_lt hc, hstep, hcovers, Utf8.encodeChar_of_lt hc]
  rfl

/-- A character of one byte that leads to another state because of the character behind it. -/
theorem Reads.step_before {d : Char} (h : Reads s' mark (d :: t) after) (hc : c.toNat < 128)
    (hd : d.toNat < 128) (hstep : s.step (ascii c) (some (ascii d)) = s')
    (hcovers : s.covers (ascii c) (some (ascii d)) = mark) : Reads s mark (c :: d :: t) after := by
  have hhead : (encode (d :: t)).head? = some (ascii d) := Utf8.head?_encode_cons hd
  exact h.step hc (hhead ▸ hstep) (hhead ▸ hcovers)

/-- A character that the state does not mind. -/
theorem Reads.steady (h : Reads s mark t after)
    (hsteady : ∀ b ∈ String.utf8EncodeChar c, ∀ next, s.step b next = s ∧ s.covers b next = mark) :
    Reads s mark (c :: t) after :=
  h.cons (marks_cons_of_steady hsteady t)

/-- What is in code behind what is read. -/
theorem Reads.refl (mark : Bool) (t : Text) : Reads code mark t t := ⟨[], rfl, rfl⟩

/-- Before a newline and at the end of the text, a line comment is over. -/
theorem marks_lineComment_eq_code {t : Text} (h : ∀ c ∈ t.head?, c = '\n') :
    LexerState.lineComment.marks (encode t) = code.marks (encode t) := by
  cases t with
  | nil => rfl
  | cons c t =>
    obtain rfl := h c rfl
    rw [marks_cons_of_lt (by decide), marks_cons_of_lt (by decide)]
    rfl

theorem reads_lineComment (t : Text) :
    Reads .lineComment true t (t.dropWhile (· ≠ '\n')) := by
  induction t with
  | nil => exact .nil _ _
  | cons c t ih =>
    by_cases hc : c = '\n'
    · subst hc
      exact ⟨[], rfl, marks_lineComment_eq_code (by simp)⟩
    · rw [List.dropWhile_cons_of_pos (by simpa using hc)]
      refine ih.steady fun b hb next => ?_
      have hb' : b ≠ ascii '\n' := ne_ascii_of_mem (by decide) hc hb
      simp [LexerState.step, LexerState.covers, hb']

theorem reads_blockComment (t : Text) : Reads .blockComment true t (afterBlockComment t) := by
  fun_induction afterBlockComment t with
  | case1 => exact .nil _ _
  | case2 rest =>
    have hclosing : Reads .blockClosing true ('/' :: rest) rest :=
      (Reads.refl true rest).step (by decide) rfl rfl
    exact hclosing.step_before (by decide) (by decide) rfl rfl
  | case3 c rest hcloser ih =>
    by_cases hc : c = '*'
    · have hnext : (encode rest).head? ≠ some (ascii '/') := by
        rw [ne_eq, Utf8.head?_encode (by decide)]
        intro hhead
        obtain ⟨tail, rfl⟩ := List.head?_eq_some_iff.1 hhead
        exact hcloser tail hc rfl
      exact ih.step (by rw [hc]; decide) (if_neg fun h => hnext h.2) rfl
    · refine ih.steady fun b hb next => ⟨if_neg fun h => ?_, rfl⟩
      exact ne_ascii_of_mem (by decide) hc hb h.1

/-- In a literal, a backslash protects all bytes of the character behind it. -/
theorem marks_escape {quote : Char} (hquote : quote.toNat < 128) (c : Char) (t : Text) :
    (escape (ascii quote)).marks (encode (c :: t)) =
      List.replicate (String.utf8EncodeChar c).length false ++
        (literal (ascii quote)).marks (encode t) := by
  rcases Nat.lt_or_ge c.toNat 128 with hc | hc
  · rw [marks_cons_of_lt hc, Utf8.encodeChar_of_lt hc]
    rfl
  · -- the first byte is protected, and the literal does not mind the others
    obtain ⟨b, tail, hbytes⟩ := List.exists_cons_of_ne_nil (Utf8.encodeChar_ne_nil c)
    have hsteady : ∀ b' ∈ tail, ∀ next,
        (literal (ascii quote)).step b' next = literal (ascii quote) ∧
          (literal (ascii quote)).covers b' next = false := by
      intro b' hb' next
      have hmem : b' ∈ String.utf8EncodeChar c := hbytes ▸ List.mem_cons_of_mem b hb'
      have hne {d : Char} (hd : d.toNat < 128) : b' ≠ ascii d :=
        ne_ascii_of_mem hd (by rintro rfl; omega) hmem
      simp [LexerState.step, LexerState.covers, hne hquote, hne (d := '\\') (by decide),
        hne (d := '\n') (by decide)]
    rw [Utf8.encode_cons, hbytes, List.cons_append, LexerState.marks, LexerState.step,
      marks_append_of_steady hsteady]
    rfl

theorem ne_backslash {c : Char} {rest : Text} (hlast : c = '\\' → rest = [] → False)
    (hescape : ∀ d tail, c = '\\' → rest = d :: tail → False) : c ≠ '\\' := by
  intro hc
  cases rest with
  | nil => exact hlast hc rfl
  | cons d tail => exact hescape d tail hc rfl

theorem reads_literal {quote : Char} (hquote : quote.toNat < 128) (t : Text) :
    Reads (.literal (ascii quote)) false t (afterLiteral quote t) := by
  fun_induction afterLiteral quote t with
  | case1 => exact .nil _ _
  | case2 => exact .step (.nil (.escape (ascii quote)) false) (by decide) rfl rfl
  | case3 c rest ih =>
    have hescaped : Reads (.escape (ascii quote)) false (c :: rest) (afterLiteral quote rest) :=
      ih.cons (marks_escape hquote c rest)
    exact hescaped.step (by decide) rfl rfl
  | case4 c rest hlast hescape hend =>
    have hc : c ≠ '\\' := ne_backslash hlast hescape
    have hend' : c = quote ∨ c = '\n' := by simpa using hend
    have hlt : c.toNat < 128 := by rcases hend' with rfl | rfl <;> [exact hquote; decide]
    refine .step (.refl false rest) hlt ?_ rfl
    have hbyte : ascii c ≠ ascii '\\' := ne_ascii_of_mem (by decide) hc (by
      rw [Utf8.encodeChar_of_lt hlt]
      exact List.mem_singleton_self _)
    rw [LexerState.step, if_neg hbyte, if_pos]
    rcases hend' with rfl | rfl
    · exact .inl rfl
    · exact .inr rfl
  | case5 c rest hlast hescape hend ih =>
    have hc : c ≠ '\\' := ne_backslash hlast hescape
    have hend' : c ≠ quote ∧ c ≠ '\n' := by simpa using hend
    refine ih.steady fun b hb next => ⟨?_, rfl⟩
    rw [LexerState.step, if_neg (ne_ascii_of_mem (by decide) hc hb), if_neg]
    rintro (h | h)
    · exact ne_ascii_of_mem hquote hend'.1 hb h
    · exact ne_ascii_of_mem (by decide) hend'.2 hb h

/-- Where the scanner does not open a comment or a literal, the automaton stays in code. -/
theorem reads_code {c : Char} {t : Text} (hline : ∀ rest, c = '/' → t = '/' :: rest → False)
    (hblock : ∀ rest, c = '/' → t = '*' :: rest → False) (hdouble : c ≠ '"') (hsingle : c ≠ '\'') :
    Reads .code false (c :: t) t := by
  by_cases hc : c = '/'
  · have hnext {d : Char} (hd : d.toNat < 128) (hne : ∀ rest, t ≠ d :: rest) :
        (encode t).head? ≠ some (ascii d) := by
      rw [ne_eq, Utf8.head?_encode hd]
      intro hhead
      obtain ⟨tail, htail⟩ := List.head?_eq_some_iff.1 hhead
      exact hne tail htail
    have hslash := hnext (d := '/') (by decide) fun rest => hline rest hc
    have hstar := hnext (d := '*') (by decide) fun rest => hblock rest hc
    subst hc
    refine .step (.refl false t) (by decide) ?_ ?_
    · rw [LexerState.step, if_neg fun h => hslash h.2, if_neg fun h => hstar h.2]
      rfl
    · simp [LexerState.covers, hslash, hstar]
  · refine (Reads.refl false t).steady fun b hb next => ?_
    have hb1 : b ≠ ascii '/' := ne_ascii_of_mem (by decide) hc hb
    have hb2 : b ≠ ascii '"' := ne_ascii_of_mem (by decide) hdouble hb
    have hb3 : b ≠ ascii '\'' := ne_ascii_of_mem (by decide) hsingle hb
    simp [LexerState.step, LexerState.covers, hb1, hb2, hb3]

/-! ### Spans of bytes -/

/-- The number of bytes before a character. -/
def byteOffset (t : Text) (offset : Nat) : Nat := (encode (t.take offset)).length

/-- A span of characters as a span of bytes. -/
def byteSpan (t : Text) (s : Span) : Span := ⟨byteOffset t s.start, byteOffset t s.stop⟩

/-- The comments of a text as spans of its bytes. -/
def byteComments (t : Text) : List Span := (comments t).map (byteSpan t)

@[simp] theorem byteOffset_append_length (t u : Text) :
    byteOffset (t ++ u) t.length = (encode t).length := by
  rw [byteOffset, List.take_left]

theorem byteOffset_add_length (t u v : Text) :
    byteOffset (t ++ (u ++ v)) (t.length + u.length) = (encode t).length + (encode u).length := by
  rw [byteOffset, List.take_length_add_append, List.take_left, Utf8.encode_append,
    List.length_append]

theorem byteOffset_mono (t : Text) {i j : Nat} (h : i ≤ j) : byteOffset t i ≤ byteOffset t j := by
  have hprefix : t.take i <+: t.take j := List.take_prefix_take_left h
  obtain ⟨between, hbetween⟩ := hprefix
  rw [byteOffset, byteOffset, ← hbetween, Utf8.encode_append, List.length_append]
  omega

theorem byteOffset_lt_byteOffset {t : Text} {i j : Nat} (hi : i < t.length) (h : i < j) :
    byteOffset t i < byteOffset t j := by
  refine lt_of_lt_of_le ?_ (byteOffset_mono t h)
  have hlength := List.length_pos_iff.2 (Utf8.encodeChar_ne_nil t[i])
  rw [byteOffset, byteOffset, List.take_succ_eq_append_getElem hi, Utf8.encode_append,
    List.length_append, Utf8.encode_cons, List.length_append]
  omega

/-- At some bytes behind a beginning of a text, the bytes of a comment of the text are marked. -/
def MarksRegions (total : Nat) (before t : Text) : Prop :=
  ∀ offset, (code.marks (encode t))[offset]? = some true ↔ ∃ r ∈ regionsFrom total t,
    r.isComment = true ∧
      (byteSpan (before ++ t) r.span).contains ((encode before).length + offset) = true

/-- What is read first is a comment if it is marked, and the regions behind it are those of the
rest. -/
theorem marked_iff_of_reads {total : Nat} {before : Text} (hreads : Reads .code mark t after)
    (htotal : total = before.length + t.length)
    (ih : ∀ before', total = before'.length + after.length → MarksRegions total before' after)
    (offset : Nat) : (code.marks (encode t))[offset]? = some true ↔
      (mark = true ∧ (byteSpan (before ++ t) ⟨total - t.length, total - after.length⟩).contains
        ((encode before).length + offset) = true) ∨
      ∃ r ∈ regionsFrom total after, r.isComment = true ∧
        (byteSpan (before ++ t) r.span).contains ((encode before).length + offset) = true := by
  obtain ⟨read, rfl, hmarks⟩ := hreads
  rw [List.length_append] at htotal
  have hstart : total - (read ++ after).length = before.length := by
    rw [List.length_append]
    omega
  have hstop : total - after.length = before.length + read.length := by omega
  have hfirst : byteSpan (before ++ (read ++ after))
      ⟨total - (read ++ after).length, total - after.length⟩ =
        ⟨(encode before).length, (encode before).length + (encode read).length⟩ := by
    rw [hstart, hstop, byteSpan, byteOffset_append_length, byteOffset_add_length]
  have hrest := ih (before ++ read) (by rw [List.length_append]; omega)
  rw [hfirst, hmarks, Span.contains_iff]
  rcases Nat.lt_or_ge offset (encode read).length with hlt | hge
  · -- the regions of the rest lie behind what is read
    rw [List.getElem?_append_left (by simpa using hlt), List.getElem?_replicate, if_pos hlt,
      Option.some_inj]
    constructor
    · exact fun h => .inl ⟨h, by simp, by simpa using hlt⟩
    · rintro (⟨h, -⟩ | ⟨r, hr, -, hcontains⟩)
      · exact h
      · have hbehind := (@of_mem_regionsFrom _ _ _ (before ++ read) hr
          (by rw [List.length_append]; omega)).2
        have hle := byteOffset_mono (before ++ (read ++ after)) hbehind
        rw [List.length_append, byteOffset_add_length] at hle
        have hcontained := (Span.contains_iff.1 hcontains).1
        dsimp only [byteSpan] at hcontained
        omega
  · rw [List.getElem?_append_right (by simpa using hge), List.length_replicate, hrest]
    have hoffset : (encode (before ++ read)).length + (offset - (encode read).length) =
        (encode before).length + offset := by
      rw [Utf8.encode_append, List.length_append]
      omega
    rw [hoffset, List.append_assoc]
    constructor
    · exact .inr
    · rintro (⟨-, -, h⟩ | h)
      · dsimp only at h
        omega
      · exact h

theorem marksRegions (total : Nat) (before t : Text) (htotal : total = before.length + t.length) :
    MarksRegions total before t := by
  fun_induction regionsFrom total t generalizing before with
  | case1 =>
    intro offset
    simp [regionsFrom, LexerState.marks]
  | case2 rest ih =>
    intro offset
    have hreads : Reads .code true ('/' :: '/' :: rest) (rest.dropWhile (· ≠ '\n')) := by
      have hslash : Reads .lineComment true ('/' :: rest) (rest.dropWhile (· ≠ '\n')) :=
        (reads_lineComment rest).step (by decide) rfl rfl
      exact hslash.step_before (by decide) (by decide) rfl rfl
    rw [marked_iff_of_reads hreads htotal (fun before' h => ih before' h), regionsFrom]
    simp
  | case3 rest ih =>
    intro offset
    have hreads : Reads .code true ('/' :: '*' :: rest) (afterBlockComment rest) := by
      have hstar : Reads .blockOpening true ('*' :: rest) (afterBlockComment rest) :=
        (reads_blockComment rest).step (by decide) rfl rfl
      exact hstar.step_before (by decide) (by decide) rfl rfl
    rw [marked_iff_of_reads hreads htotal (fun before' h => ih before' h), regionsFrom]
    simp
  | case4 c rest hline hblock hquote ih =>
    intro offset
    have hquote' : c = '"' ∨ c = '\'' := by simpa using hquote
    have hlt : c.toNat < 128 := by rcases hquote' with rfl | rfl <;> decide
    have hreads : Reads .code false (c :: rest) (afterLiteral c rest) := by
      refine (reads_literal hlt rest).step hlt ?_ ?_
      · rcases hquote' with rfl | rfl <;> rfl
      · rcases hquote' with rfl | rfl <;> rfl
    rw [marked_iff_of_reads hreads htotal (fun before' h => ih before' h), regionsFrom,
      if_pos hquote]
    · simp
    · exact hline
    · exact hblock
  | case5 c rest hline hblock hquote ih =>
    intro offset
    have hquote' : c ≠ '"' ∧ c ≠ '\'' := by simpa using hquote
    have hreads : Reads .code false (c :: rest) rest :=
      reads_code hline hblock hquote'.1 hquote'.2
    rw [marked_iff_of_reads hreads htotal (fun before' h => ih before' h), regionsFrom,
      if_neg hquote]
    · simp
    · exact hline
    · exact hblock

/-- The automaton marks a byte exactly if a comment holds it. -/
theorem marks_iff (t : Text) (offset : Nat) : IsMarked (encode t) offset ↔
    ∃ s ∈ byteComments t, s.contains offset = true := by
  rw [IsMarked, marksRegions t.length [] t (by simp), byteComments, comments_eq_map_regions,
    regions]
  simp [and_assoc]

/-! ### Lookup by halving -/

/-- The number of items at the start of a list that pass a test, if it lies between the bounds and
the items behind them fail: halves the part of the list where the first to fail may be. -/
def partitionPoint {α : Type} (p : α → Bool) (xs : List α) (low high : Nat) : Nat :=
  if low < high then
    let middle := low + (high - low) / 2
    if xs[middle]?.any p then partitionPoint p xs (middle + 1) high
    else partitionPoint p xs low middle
  else low
termination_by high - low

/-- The offset lies in the first of the spans that ends behind it, which is found by halving. -/
def lookup (spans : List Span) (offset : Nat) : Bool :=
  spans[partitionPoint (fun s => s.stop ≤ offset) spans 0 spans.length]?.any (·.contains offset)

section

variable {α : Type} {p : α → Bool} {xs : List α} {k : Nat}

/-- The first items of the list pass the test, and no others. -/
def IsCut (p : α → Bool) (xs : List α) (k : Nat) : Prop :=
  ∀ i x, xs[i]? = some x → (p x = true ↔ i < k)

theorem partitionPoint_eq (hcut : IsCut p xs k) {low high : Nat} (hlow : low ≤ k)
    (hhigh : k ≤ high) (hlength : high ≤ xs.length) : partitionPoint p xs low high = k := by
  fun_induction partitionPoint p xs low high with
  | case1 low high hlt middle hpass ih =>
    obtain ⟨x, hx, hp⟩ := (Option.any_eq_true _ _).1 hpass
    have hmiddle := (hcut middle x hx).1 hp
    exact ih (by omega) hhigh hlength
  | case2 low high hlt middle hpass ih =>
    have hin : middle < xs.length := by omega
    have hfail := hcut middle xs[middle] (List.getElem?_eq_getElem hin)
    rw [List.getElem?_eq_getElem hin, Option.any_some] at hpass
    have hmiddle : ¬middle < k := fun h => hpass (hfail.2 h)
    exact ih hlow (by omega) (by omega)
  | case3 low high hlt => omega

/-- A test that goes on passing towards the start of the list cuts it. -/
theorem exists_isCut (h : xs.Pairwise fun x y => p y = true → p x = true) :
    ∃ k ≤ xs.length, IsCut p xs k := by
  induction xs with
  | nil => exact ⟨0, le_rfl, by simp [IsCut]⟩
  | cons x xs ih =>
    obtain ⟨hfirst, hrest⟩ := List.pairwise_cons.1 h
    by_cases hx : p x = true
    · obtain ⟨k, hk, hcut⟩ := ih hrest
      refine ⟨k + 1, by simpa using hk, ?_⟩
      rintro (_ | i) y hy
      · obtain rfl : x = y := by simpa using hy
        simpa using hx
      · rw [hcut i y (by simpa using hy)]
        omega
    · refine ⟨0, Nat.zero_le _, ?_⟩
      rintro (_ | i) y hy
      · obtain rfl : x = y := by simpa using hy
        simpa using hx
      · have hmem : y ∈ xs := List.mem_of_getElem? (by simpa using hy)
        simpa using fun hp => hx (hfirst y hmem hp)

end

/-- Spans that are not empty and lie one behind the other. -/
structure AreOrdered (spans : List Span) : Prop where
  start_lt : ∀ s ∈ spans, s.start < s.stop
  pairwise : spans.Pairwise fun s s' => s.stop ≤ s'.start

/-- The lookup by halving finds every offset in a span, and no other. -/
theorem lookup_iff {spans : List Span} (h : AreOrdered spans) (offset : Nat) :
    lookup spans offset = true ↔ ∃ s ∈ spans, s.contains offset = true := by
  have hstops : spans.Pairwise fun s s' =>
      decide (s'.stop ≤ offset) = true → decide (s.stop ≤ offset) = true := by
    refine h.pairwise.imp_of_mem fun {s s'} _ hs' hle hstop => ?_
    have hlt := h.start_lt s' hs'
    simp only [decide_eq_true_eq] at hstop ⊢
    omega
  obtain ⟨k, hk, hcut⟩ := exists_isCut hstops
  rw [lookup, partitionPoint_eq hcut (Nat.zero_le k) hk le_rfl, Option.any_eq_true]
  constructor
  · rintro ⟨s, hs, hcontains⟩
    exact ⟨s, List.mem_of_getElem? hs, hcontains⟩
  · rintro ⟨s, hs, hcontains⟩
    obtain ⟨i, hi, rfl⟩ := List.getElem_of_mem hs
    have hbounds := Span.contains_iff.1 hcontains
    have hge : k ≤ i := by
      have hpass := hcut i spans[i] (List.getElem?_eq_getElem hi)
      simp only [decide_eq_true_eq] at hpass
      omega
    -- a span between would end before the offset
    have hle : i ≤ k := by
      by_contra hlt
      have hbetween := List.pairwise_iff_getElem.1 h.pairwise k i (by omega) hi (by omega)
      have hfail := hcut k spans[k] (List.getElem?_eq_getElem (by omega))
      simp only [decide_eq_true_eq] at hfail
      omega
    obtain rfl : i = k := by omega
    exact ⟨_, List.getElem?_eq_getElem hi, hcontains⟩

theorem lookup_eq_inComment {spans : List Span} (h : AreOrdered spans) (offset : Nat) :
    lookup spans offset = inComment spans offset := by
  rw [Bool.eq_iff_iff, lookup_iff h, inComment_eq_any h.pairwise, List.any_eq_true]

/-! ### The comments of a text -/

theorem areOrdered_comments (t : Text) : AreOrdered (comments t) := by
  rw [comments_eq_map_regions]
  constructor
  · intro s hs
    obtain ⟨r, hr, rfl⟩ := List.mem_map.1 hs
    exact (RegionOf.of_mem (List.mem_of_mem_filter hr)).start_lt
  · rw [List.pairwise_map]
    exact (pairwise_regionsFrom le_rfl).sublist List.filter_sublist

theorem stop_le_of_mem_commentsFrom {total : Nat} {s : Span} (h : s ∈ commentsFrom total t) :
    s.stop ≤ total := by
  fun_induction commentsFrom total t with
  | case1 => cases h
  | case2 rest after ih | case3 rest after ih =>
    rcases List.mem_cons.1 h with rfl | h
    · exact Nat.sub_le _ _
    · exact ih h
  | case4 c rest hline hblock hquote ih | case5 c rest hline hblock hquote ih => exact ih h

/-- The offset is one between characters of the text. -/
def IsBoundary (t : Text) (offset : Nat) : Prop :=
  ∃ before after, t = before ++ after ∧ (encode before).length = offset

theorem isBoundary_byteOffset (t : Text) (offset : Nat) : IsBoundary t (byteOffset t offset) :=
  ⟨t.take offset, t.drop offset, (List.take_append_drop offset t).symm, rfl⟩

theorem byteOffset_le (t : Text) (offset : Nat) : byteOffset t offset ≤ (encode t).length := by
  obtain ⟨before, after, ht, hoffset⟩ := isBoundary_byteOffset t offset
  rw [← hoffset, ht, Utf8.encode_append, List.length_append]
  omega

/-- Spans in a text lie in its bytes as they do in its characters. -/
theorem AreOrdered.byteSpans {spans : List Span} (h : AreOrdered spans)
    (hle : ∀ s ∈ spans, s.stop ≤ t.length) : AreOrdered (spans.map (byteSpan t)) where
  start_lt := by
    intro s hs
    obtain ⟨s, hmem, rfl⟩ := List.mem_map.1 hs
    have hlt := h.start_lt s hmem
    exact byteOffset_lt_byteOffset (hlt.trans_le (hle s hmem)) hlt
  pairwise := List.pairwise_map.2 (h.pairwise.imp (byteOffset_mono t))

/-- A character lies in a span exactly if its first byte does. -/
theorem contains_byteSpan {s : Span} (hle : s.stop ≤ t.length) (hlt : s.start < s.stop)
    (offset : Nat) : (byteSpan t s).contains (byteOffset t offset) = s.contains offset := by
  have hstart : byteOffset t s.start ≤ byteOffset t offset ↔ s.start ≤ offset := by
    refine ⟨fun h => ?_, byteOffset_mono t⟩
    by_contra hbefore
    have := byteOffset_lt_byteOffset (t := t) (i := offset) (j := s.start) (by omega) (by omega)
    omega
  have hstop : byteOffset t offset < byteOffset t s.stop ↔ offset < s.stop := by
    refine ⟨fun h => ?_, fun h => byteOffset_lt_byteOffset (by omega) h⟩
    by_contra hbehind
    have := byteOffset_mono t (Nat.le_of_not_lt hbehind)
    omega
  rw [Bool.eq_iff_iff, Span.contains_iff, Span.contains_iff]
  exact and_congr hstart hstop

/-- The spans of bytes are the comments of a text. -/
structure IsLexed (t : Text) (spans : List Span) : Prop where
  start_lt : ∀ s ∈ spans, s.start < s.stop
  stop_le : ∀ s ∈ spans, s.stop ≤ (encode t).length
  boundary : ∀ s ∈ spans, IsBoundary t s.start ∧ IsBoundary t s.stop
  /-- One span starts behind the other, and not before it ends. -/
  pairwise : spans.Pairwise fun s s' => s.start < s'.start ∧ s.stop ≤ s'.start
  marked : ∀ offset, (∃ s ∈ spans, s.contains offset = true) ↔ IsMarked (encode t) offset
  found : ∀ offset, lookup spans offset = true ↔ ∃ s ∈ spans, s.contains offset = true

/-- The comments that the scanner collects are those of the automaton, and whether a character lies
in one is what looking it up by halving tells, by characters and by bytes. -/
theorem isLexed (t : Text) : IsLexed t (byteComments t) ∧ ∀ offset,
    (Source.ofText t).isComment offset = lookup (comments t) offset ∧
    (Source.ofText t).isComment offset = lookup (byteComments t) (byteOffset t offset) := by
  have hordered := areOrdered_comments t
  have hstop : ∀ s ∈ comments t, s.stop ≤ t.length := fun s => stop_le_of_mem_commentsFrom
  have hbytes : AreOrdered (byteComments t) := hordered.byteSpans hstop
  constructor
  · constructor
    case start_lt => exact hbytes.start_lt
    case stop_le =>
      intro s hs
      obtain ⟨s, -, rfl⟩ := List.mem_map.1 hs
      exact byteOffset_le t s.stop
    case boundary =>
      intro s hs
      obtain ⟨s, -, rfl⟩ := List.mem_map.1 hs
      exact ⟨isBoundary_byteOffset t _, isBoundary_byteOffset t _⟩
    case pairwise =>
      refine hbytes.pairwise.imp_of_mem fun {s s'} hs _ hle => ⟨?_, hle⟩
      exact (hbytes.start_lt s hs).trans_le hle
    case marked => exact fun offset => (marks_iff t offset).symm
    case found => exact lookup_iff hbytes
  · intro offset
    have hchars : (Source.ofText t).isComment offset = lookup (comments t) offset :=
      (lookup_eq_inComment hordered offset).symm
    refine ⟨hchars, hchars.trans ?_⟩
    rw [Bool.eq_iff_iff, lookup_iff hordered, lookup_iff hbytes, byteComments]
    simp only [List.mem_map, exists_exists_and_eq_and]
    refine exists_congr fun s => and_congr_right fun hs => ?_
    rw [contains_byteSpan (hstop s hs) (hordered.start_lt s hs)]

end Glossator.Java
