import Glossator.Proofs.Java.Forest
import Glossator.Proofs.Java.Region

/-!
# Structure outside comments and literals

The keywords, names and braces that the search takes as structure are looked for without regard to
literals, and except for the names of types without regard to comments. This module says when all
of them are visible, that is outside every comment and literal.

* `Java.structure_visible_iff`: all structure is visible exactly if the characters that begin it
  are, and it is if comments and literals hold no brace and no keyword.
-/

set_option autoImplicit false

namespace Glossator

namespace Java

open Pattern

/-! ### What the search takes as structure -/

/-- The offset lies in a comment or in a literal of the text. -/
def Hidden (t : Text) (i : Nat) : Prop := ∃ r ∈ regions t, r.span.contains i = true

/-- Where the declaration of the package stands in a text, from its keyword to the semicolon. -/
def packageSpan? (t : Text) : Option Span :=
  (packageHeader.find? t).map fun m =>
    ⟨m.start + ((m.span.slice t).takeWhile isBlank).length, m.stop⟩

/-- The blocks that the search of a text delimits, with the stretches that they lie in: those of
types, and the bodies of methods. -/
inductive Delimits (t : Text) : Stretch → Block → Prop where
  | type {chain : List TypeDeclaration} {s : Stretch} {d : TypeDeclaration} :
      Reached (.ofText t) chain s → d ∈ typeDeclarations (.ofText t) s → Delimits t s d.block
  | body {f : Finding} {b : Block} :
      f ∈ findings (.ofText t) → f.method.extent.body = some b → Delimits t f.stretch b

/-- The spans of a text that the search takes as structure: the keyword and the name of each type
header that it accepts, the braces of the blocks that it delimits, and the package. -/
inductive StructureAt (t : Text) : Span → Prop where
  | keyword {chain : List TypeDeclaration} {s : Stretch} {m : Match HeaderPart} {span : Span} :
      Reached (.ofText t) chain s → m ∈ typeHeaders (.ofText t) s → m.span? .kind = some span →
      StructureAt t (span.shift s.start)
  | name {chain : List TypeDeclaration} {s : Stretch} {m : Match HeaderPart} {span : Span} :
      Reached (.ofText t) chain s → m ∈ typeHeaders (.ofText t) s → m.span? .name = some span →
      StructureAt t (span.shift s.start)
  | opening {s : Stretch} {b : Block} :
      Delimits t s b → StructureAt t ⟨s.start + b.opening, s.start + b.opening + 1⟩
  | closing {s : Stretch} {b : Block} :
      Delimits t s b → b.closed = true → StructureAt t ⟨s.start + b.stop - 1, s.start + b.stop⟩
  | package {span : Span} : packageSpan? t = some span → StructureAt t span

/-- The characters that decide whether the structure of a text is visible: the first ones of the
keywords of accepted type headers, the braces, and the first one of the package declaration. -/
inductive Anchor (t : Text) : Nat → Prop where
  | keyword {chain : List TypeDeclaration} {s : Stretch} {m : Match HeaderPart} {span : Span} :
      Reached (.ofText t) chain s → m ∈ typeHeaders (.ofText t) s → m.span? .kind = some span →
      Anchor t (s.start + span.start)
  | opening {s : Stretch} {b : Block} : Delimits t s b → Anchor t (s.start + b.opening)
  | closing {s : Stretch} {b : Block} :
      Delimits t s b → b.closed = true → Anchor t (s.start + b.stop - 1)
  | package {span : Span} : packageSpan? t = some span → Anchor t span.start

/-- All that the search of a text takes as structure is outside comments and literals. -/
def StructureVisible (t : Text) : Prop :=
  ∀ span, StructureAt t span → ∀ i, span.contains i = true → ¬ Hidden t i

/-- The words that make structure. -/
def structureWords : List String := ["class", "interface", "enum", "package"]

/-- A text in which no structure begins: it holds no brace and none of the words. -/
def NoStructure (u : Text) : Prop :=
  '{' ∉ u ∧ '}' ∉ u ∧ ∀ w ∈ structureWords, ¬ w.toList <:+: u

/-! ### Characters of headers -/

theorem not_mem_regionClosers_of_isWord {c : Char} (h : isWord c = true) : c ∉ regionClosers := by
  intro hc
  simp only [regionClosers, List.mem_cons, List.not_mem_nil, or_false] at hc
  rcases hc with rfl | rfl | rfl | rfl <;> exact absurd h (by decide)

theorem not_mem_regionOpeners_of_isWord {c : Char} (h : isWord c = true) : c ∉ regionOpeners := by
  intro hc
  simp only [regionOpeners, List.mem_cons, List.not_mem_nil, or_false] at hc
  rcases hc with rfl | rfl | rfl <;> exact absurd h (by decide)

theorem not_mem_regionOpeners_of_isBlank {c : Char} (h : isBlank c = true) :
    c ∉ regionOpeners := by
  intro hc
  simp only [regionOpeners, List.mem_cons, List.not_mem_nil, or_false] at hc
  rcases hc with rfl | rfl | rfl <;> exact absurd h (by decide)

theorem eq_newline_of_isBlank {c : Char} (h : isBlank c = true) (hc : c ∈ regionClosers) :
    c = '\n' := by
  simp only [regionClosers, List.mem_cons, List.not_mem_nil, or_false] at hc
  rcases hc with rfl | rfl | rfl | rfl
  · exact absurd h (by decide)
  · exact absurd h (by decide)
  · exact absurd h (by decide)
  · rfl

/-- From the keyword of a type to the end of its name there are word characters, and blanks between
the two. -/
theorem TypeHeader.char_at {t : Text} {m : Match HeaderPart} {keyword title : Span}
    (h : TypeHeader t m keyword title) {k : Nat} (hle : keyword.start ≤ k) (hlt : k < title.stop) :
    ∃ c, t[k]? = some c ∧
      (isWord c = true ∨ (keyword.stop ≤ k ∧ k < title.start ∧ isBlank c = true)) := by
  have hstop := h.title_le
  have hlen := h.stop_le
  have hk : k < t.length := by omega
  refine ⟨t[k], List.getElem?_eq_getElem hk, ?_⟩
  have hget := List.getElem?_eq_getElem hk
  by_cases hkeyword : k < keyword.stop
  · left
    refine isWord_of_mem_keyword h.keyword_text (Span.mem_slice ?_ hget)
    exact Span.contains_iff.2 ⟨hle, hkeyword⟩
  by_cases htitle : title.start ≤ k
  · left
    refine h.title_text _ (Span.mem_slice ?_ hget)
    exact Span.contains_iff.2 ⟨htitle, hlt⟩
  · right
    refine ⟨by omega, by omega, h.gap_text _ (Span.mem_slice ?_ hget)⟩
    rw [Span.contains_iff]
    simp only
    omega

/-- What stands behind the keyword of a package declaration. -/
def packageTail : HeaderPattern :=
  someBlanks ++ named .name (someOf fun c => isWord c || c = '.') ++ blanks ++ text ";"

theorem not_mem_regionOpeners_of_packageTail {c : Char} (h : packageTail.mayRead c) :
    c ∉ regionOpeners := by
  simp only [packageTail, append_eq, someBlanks, blanks, someOf, named, text, mayRead,
    Bool.or_eq_true, decide_eq_true_eq, or_self] at h
  rcases h with ((h | h | rfl) | h) | h
  · exact not_mem_regionOpeners_of_isBlank h
  · exact not_mem_regionOpeners_of_isWord h
  · decide
  · exact not_mem_regionOpeners_of_isBlank h
  · obtain rfl : c = ';' := by simpa using h
    decide

/-- The declaration of a package begins with its keyword, and it holds no character that opens a
comment or a literal. -/
theorem of_packageSpan? {t : Text} {span : Span} (h : packageSpan? t = some span) :
    "package".toList <+: t.drop span.start ∧ span.start + 7 ≤ span.stop ∧
      ∀ k, span.start ≤ k → k < span.stop → ∀ c, t[k]? = some c → c ∉ regionOpeners := by
  obtain ⟨m, hm, rfl⟩ := Option.map_eq_some_iff.1 h
  have hfind : (Finder.ofPattern packageHeader t).find? 0 = some m := hm
  obtain ⟨hlen, o, ho, heq⟩ := Finder.exists_of_find? hfind
  have hin : Outcome.IsIn t (⟨.inText t m.start, []⟩ : Outcome HeaderPart) := ⟨rfl, hlen⟩
  simp only [packageHeader, append_eq, mem_outcomes_andThen] at ho
  obtain ⟨o6, ⟨o5, ⟨o4, ⟨o3, ⟨o2, ⟨o1, hline, hblanks⟩, hkeyword⟩, hgap⟩, hname⟩, hblanks'⟩,
    hsemicolon⟩ := ho
  have htail : o ∈ packageTail.outcomes o3 := mem_outcomes_andThen.2
    ⟨o6, mem_outcomes_andThen.2 ⟨o5, mem_outcomes_andThen.2 ⟨o4, hgap, hname⟩, hblanks'⟩,
      hsemicolon⟩
  obtain ⟨rfl, -⟩ := mem_outcomes_lineStart.1 hline
  obtain ⟨hin2, hle2⟩ := hin.of_mem hblanks
  obtain ⟨hin3, -⟩ := hin2.of_mem hkeyword
  rw [text, mem_outcomes_fixed] at hkeyword
  obtain ⟨hinitial, rfl⟩ := hkeyword
  have hinitial' : "package".toList <+: t.drop o2.cursor.offset := by
    rwa [hin2.1, Cursor.inText_rest] at hinitial
  -- the blanks before the keyword are all the blanks that the match begins with
  obtain ⟨piece, hread, hpiece⟩ := (reads_of_mem_outcomes hblanks).reads
  have hoffset : o2.cursor.offset = m.start + piece.length := hread.offset_eq
  have hstop : o2.cursor.offset + 7 ≤ m.stop := by
    have hle := (hin3.of_mem htail).2
    rw [heq]
    exact hle
  have hlead : (m.span.slice t).takeWhile isBlank = piece := by
    have hslice : m.span.slice t =
        piece ++ (t.drop o2.cursor.offset).take (m.stop - o2.cursor.offset) := by
      have hdrop : t.drop m.start = piece ++ o2.cursor.rest := hread.rest_eq
      have hlength : (m.stop - m.start) = piece.length + (m.stop - o2.cursor.offset) := by omega
      rw [Span.slice, Match.span, hdrop, hlength, List.take_length_add_append, hin2.1,
        Cursor.inText_rest, ← hin2.1]
    obtain ⟨rest, hrest⟩ := hinitial'
    obtain ⟨n, hn⟩ : ∃ n, m.stop - o2.cursor.offset = n + 1 := ⟨_, (Nat.succ_pred (by omega)).symm⟩
    have hp : isBlank 'p' = false := by decide
    rw [hslice, List.takeWhile_append_of_pos hpiece, ← hrest, hn]
    simp [hp]
  rw [hlead, ← hoffset]
  refine ⟨hinitial', hstop, ?_⟩
  intro k hle hlt c hc
  simp only at hle hlt
  by_cases hk : k < o2.cursor.offset + 7
  · have hletters : "package".toList.all isAsciiWord = true := by decide
    apply not_mem_regionOpeners_of_isWord ∘ isWord_of_isAsciiWord
    apply List.all_eq_true.1 hletters
    obtain ⟨rest, hrest⟩ := hinitial'
    have hadd : o2.cursor.offset + (k - o2.cursor.offset) = k := by omega
    have hlength : "package".toList.length = 7 := by decide
    rw [← hadd, ← List.getElem?_drop, ← hrest, List.getElem?_append_left (by omega)] at hc
    exact List.mem_of_getElem? hc
  · refine not_mem_regionOpeners_of_packageTail (hin3.mayRead_of_mem htail ?_ ?_ hc)
    · exact Nat.le_of_not_lt hk
    · rw [heq] at hlt
      exact hlt

/-! ### Regions over headers -/

section

variable {t : Text} {chain : List TypeDeclaration} {s : Stretch} {m : Match HeaderPart}
  {keyword title : Span} {r : Region}

/-- A comment or literal that holds a character of the header of a type, from the keyword to the end
of the name, holds the characters from the keyword on that stand before it. -/
theorem contains_of_contains_later (hr : r ∈ regions t) (hs : Reached (.ofText t) chain s)
    (hm : TypeHeader s.text m keyword title) {j k : Nat} (hle : keyword.start ≤ j) (hjk : j ≤ k)
    (hlt : k < title.stop) (hk : r.span.contains (s.start + k) = true) :
    r.span.contains (s.start + j) = true := by
  refine contains_start_of_run (.of_mem hr) (Nat.add_le_add_left hjk _) hk ?_
  intro i hi hik c hc
  obtain ⟨l, rfl⟩ : ∃ l, i = s.start + l := ⟨i - s.start, by omega⟩
  obtain ⟨d, hd, hchar⟩ := hm.char_at (by omega : keyword.start ≤ l) (by omega)
  have hlen := (List.getElem?_eq_some_iff.1 hd).1
  rw [hs.getElem?_eq hlen] at hd
  obtain rfl : d = c := Option.some.inj (hd.symm.trans hc)
  rcases hchar with hword | ⟨-, -, hblank⟩
  · exact not_mem_regionOpeners_of_isWord hword
  · exact not_mem_regionOpeners_of_isBlank hblank

/-- A comment or literal that holds the first character of the keyword of a type holds the whole
keyword, and the first character of the name unless a newline stands between the two. -/
theorem contains_of_contains_keyword (hr : r ∈ regions t) (hs : Reached (.ofText t) chain s)
    (hm : TypeHeader s.text m keyword title)
    (hkeyword : r.span.contains (s.start + keyword.start) = true) {k : Nat}
    (hle : keyword.start ≤ k) (hlt : k ≤ title.start)
    (hline : k < keyword.stop ∨ '\n' ∉ Span.slice ⟨keyword.stop, title.start⟩ s.text) :
    r.span.contains (s.start + k) = true := by
  have htitle := hm.title_lt
  refine contains_of_run (.of_mem hr) (Nat.add_le_add_left hle _) hkeyword ?_
  intro i hi hik
  obtain ⟨j, rfl⟩ : ∃ j, i = s.start + j := ⟨i - s.start, by omega⟩
  obtain ⟨c, hc, hchar⟩ := hm.char_at (by omega : keyword.start ≤ j) (by omega)
  have hlen := (List.getElem?_eq_some_iff.1 hc).1
  refine ⟨c, (hs.getElem?_eq hlen).symm.trans hc, ?_⟩
  rcases hchar with hword | ⟨hstop, hstart, hblank⟩
  · exact not_mem_regionClosers_of_isWord hword
  · intro hcloser
    obtain rfl := eq_newline_of_isBlank hblank hcloser
    rcases hline with hline | hline
    · omega
    · refine hline (Span.mem_slice ?_ hc)
      exact Span.contains_iff.2 ⟨hstop, hstart⟩

end

/-- The whole structure of a text is visible if the characters that begin it are. -/
theorem structureVisible_of_anchors {t : Text} (h : ∀ i, Anchor t i → ¬ Hidden t i) :
    StructureVisible t := by
  -- a span of one character is as visible as that character
  have hsingle {j i : Nat} (hj : Anchor t j) (hi : (⟨j, j + 1⟩ : Span).contains i = true) :
      ¬ Hidden t i := by
    obtain ⟨hle, hlt⟩ := Span.contains_iff.1 hi
    obtain rfl : i = j := by simp only at hle hlt; omega
    exact h i hj
  intro span hspan i hi
  cases hspan with
  | @keyword chain s m keyword hs hm hkind =>
    rintro ⟨r, hr, hri⟩
    obtain ⟨-, keyword', title, hshape, -⟩ := of_mem_typeHeaders hm
    obtain rfl : keyword' = keyword := Option.some.inj (hshape.kind_span.symm.trans hkind)
    obtain ⟨hle, hlt⟩ := Span.contains_iff.1 hi
    simp only [Span.shift] at hle hlt
    have hgap := hshape.gap_lt
    have htitle := hshape.title_lt
    obtain ⟨k, rfl⟩ : ∃ k, i = s.start + k := ⟨i - s.start, by omega⟩
    exact h _ (.keyword hs hm hkind)
      ⟨r, hr, contains_of_contains_later hr hs hshape le_rfl (by omega) (by omega) hri⟩
  | @name chain s m title hs hm hname =>
    rintro ⟨r, hr, hri⟩
    obtain ⟨-, keyword, title', hshape, -⟩ := of_mem_typeHeaders hm
    obtain rfl : title' = title := Option.some.inj (hshape.name_span.symm.trans hname)
    obtain ⟨hle, hlt⟩ := Span.contains_iff.1 hi
    simp only [Span.shift] at hle hlt
    have hkeyword := hshape.keyword_le
    have hgap := hshape.gap_lt
    obtain ⟨k, rfl⟩ : ∃ k, i = s.start + k := ⟨i - s.start, by omega⟩
    exact h _ (.keyword hs hm hshape.kind_span)
      ⟨r, hr, contains_of_contains_later hr hs hshape le_rfl (by omega) (by omega) hri⟩
  | opening hblock => exact hsingle (.opening hblock) hi
  | @closing s b hblock hclosed =>
    refine hsingle (.closing hblock hclosed) ?_
    rw [Span.contains_iff] at hi ⊢
    simp only at hi ⊢
    omega
  | package hpackage =>
    rintro ⟨r, hr, hri⟩
    obtain ⟨-, -, hplain⟩ := of_packageSpan? hpackage
    obtain ⟨hle, hlt⟩ := Span.contains_iff.1 hi
    refine h _ (.package hpackage) ⟨r, hr, contains_start_of_run (.of_mem hr) hle hri ?_⟩
    intro k hk hki
    exact hplain k (by omega) (by omega)

/-- A block that the search delimits lies in a stretch that it comes to. -/
theorem Delimits.exists_blockAt {t : Text} {s : Stretch} {b : Block} (h : Delimits t s b) :
    (∃ chain, Reached (.ofText t) chain s) ∧ ∃ offset, BlockAt s.text offset b := by
  cases h with
  | type hs hd =>
    obtain ⟨m, keyword, title, hdeclared⟩ := exists_declared hd
    exact ⟨⟨_, hs⟩, m.stop, hdeclared.block⟩
  | @body f b hf hb =>
    obtain ⟨chain, hs, -, hm⟩ := exists_reached_of_mem_findings hf
    obtain ⟨title, hfound⟩ := exists_found_of_mem_methods hm
    obtain ⟨hblock, -⟩ := hfound.place.body b hb
    exact ⟨⟨chain, hs⟩, _, .of_block? hblock⟩

/-- The blocks that the search delimits begin with a brace, and end with one if they are closed. -/
theorem Delimits.braces {t : Text} {s : Stretch} {b : Block} (h : Delimits t s b) :
    t[s.start + b.opening]? = some '{' ∧
      (b.closed = true → 0 < b.stop ∧ t[s.start + b.stop - 1]? = some '}') := by
  obtain ⟨⟨chain, hs⟩, offset, hblock⟩ := h.exists_blockAt
  have hlt := hblock.opening_lt
  have hstop := hblock.stop_le
  have hopening := hblock.opening_char
  rw [hs.getElem?_eq (by omega)] at hopening
  refine ⟨hopening, ?_⟩
  intro hclosed
  obtain ⟨-, hclosing⟩ := hblock.closing hclosed
  rw [hs.getElem?_eq (by omega)] at hclosing
  rw [Nat.add_sub_assoc (by omega)]
  exact ⟨by omega, hclosing⟩

theorem TypeHeader.keyword_lt {t : Text} {m : Match HeaderPart} {keyword title : Span}
    (h : TypeHeader t m keyword title) : keyword.start < keyword.stop := by
  have hwords : ["class", "interface", "enum"].all (fun w => 0 < w.toList.length) = true := by
    decide
  obtain ⟨w, hw, heq⟩ := List.mem_map.1 h.keyword_text
  have hpos := List.all_eq_true.1 hwords w hw
  rw [heq, Span.slice, List.length_take, decide_eq_true_eq] at hpos
  omega

/-- A comment or literal that holds a character that begins structure holds a brace or a whole
keyword. -/
theorem Anchor.not_noStructure {t : Text} {i : Nat} (h : Anchor t i) {r : Region}
    (hr : r ∈ regions t) (hi : r.span.contains i = true) : ¬ NoStructure (r.span.slice t) := by
  rintro ⟨hopen, hclose, hwords⟩
  cases h with
  | @keyword chain s m keyword hs hm hkind =>
    obtain ⟨-, keyword', title, hshape, -⟩ := of_mem_typeHeaders hm
    obtain rfl : keyword' = keyword := Option.some.inj (hshape.kind_span.symm.trans hkind)
    have hlt := hshape.keyword_lt
    have hgap := hshape.gap_lt
    have htitle := hshape.title_lt
    have hlast := contains_of_contains_keyword hr hs hshape hi
      (by omega : keyword'.start ≤ keyword'.stop - 1) (by omega) (.inl (by omega))
    rw [Span.contains_iff] at hi hlast
    have hlen : keyword'.stop ≤ s.text.length := by
      have := hshape.title_le
      have := hshape.stop_le
      omega
    have hinfix : (keyword'.shift s.start).slice t <:+: r.span.slice t :=
      Span.slice_isInfix (by simp only [Span.shift]; omega) (by simp only [Span.shift]; omega) t
    have hsame : (keyword'.shift s.start).slice t = keyword'.slice s.text := hs.slice_eq hlen
    rw [hsame] at hinfix
    obtain ⟨w, hw, heq⟩ := List.mem_map.1 hshape.keyword_text
    refine hwords w ?_ (heq ▸ hinfix)
    simp only [structureWords, List.mem_cons, List.not_mem_nil, or_false] at hw ⊢
    tauto
  | opening hblock => exact hopen (Span.mem_slice hi hblock.braces.1)
  | closing hblock hclosed => exact hclose (Span.mem_slice hi (hblock.braces.2 hclosed).2)
  | @package span hpackage =>
    obtain ⟨hinitial, hstop, -⟩ := of_packageSpan? hpackage
    have hlength : "package".toList.length = 7 := by decide
    have hletters : "package".toList.all isAsciiWord = true := by decide
    have hslice : Span.slice ⟨span.start, span.start + 7⟩ t = "package".toList := by
      obtain ⟨rest, hrest⟩ := hinitial
      rw [Span.slice, ← hrest, Nat.add_sub_cancel_left, ← hlength, List.take_left]
    have hlast : r.span.contains (span.start + 6) = true := by
      refine contains_of_run (.of_mem hr) (Nat.le_add_right _ _) hi ?_
      intro k hle hlt
      have hlen := congrArg List.length hslice
      simp only [hlength, Span.slice, List.length_take, List.length_drop] at hlen
      have hc := List.getElem?_eq_getElem (by omega : k < t.length)
      refine ⟨_, hc, not_mem_regionClosers_of_isWord (isWord_of_isAsciiWord ?_)⟩
      apply List.all_eq_true.1 hletters
      rw [← hslice]
      exact Span.mem_slice (Span.contains_iff.2 ⟨hle, by simp only; omega⟩) hc
    rw [Span.contains_iff] at hi hlast
    refine hwords "package" (by simp [structureWords]) ?_
    rw [← hslice]
    refine Span.slice_isInfix ?_ ?_ t
    · exact hi.1
    · simp only
      omega

/-- What the search of a text takes as structure is visible, that is outside every comment and
literal, exactly if the characters are that begin it. It is visible if comments and literals hold
neither braces nor keywords. The names of accepted type headers are outside comments in any case,
and a comment that holds a character of such a header's keyword ends at a newline before the
name. -/
theorem structure_visible_iff (t : Text) :
    (StructureVisible t ↔ ∀ i, Anchor t i → ¬ Hidden t i) ∧
    ((∀ r ∈ regions t, NoStructure (r.span.slice t)) → StructureVisible t) ∧
    ∀ chain s m keyword title, Reached (.ofText t) chain s → m ∈ typeHeaders (.ofText t) s →
      m.span? .kind = some keyword → m.span? .name = some title →
      ∀ r ∈ regions t, r.isComment = true →
        (∀ i, title.contains i = true → r.span.contains (s.start + i) = false) ∧
        ∀ i, keyword.contains i = true → r.span.contains (s.start + i) = true →
          '\n' ∈ Span.slice ⟨keyword.stop, title.start⟩ s.text := by
  have hplain : (∀ r ∈ regions t, NoStructure (r.span.slice t)) → StructureVisible t := by
    intro h
    apply structureVisible_of_anchors
    rintro i hanchor ⟨r, hr, hi⟩
    exact hanchor.not_noStructure hr hi (h r hr)
  refine ⟨⟨?_, structureVisible_of_anchors⟩, hplain, ?_⟩
  · intro h i hanchor
    cases hanchor with
    | @keyword chain s m keyword hs hm hkind =>
      obtain ⟨-, keyword', title, hshape, -⟩ := of_mem_typeHeaders hm
      obtain rfl : keyword' = keyword := Option.some.inj (hshape.kind_span.symm.trans hkind)
      have hlt := hshape.keyword_lt
      refine h _ (.keyword hs hm hkind) _ (Span.contains_iff.2 ?_)
      simp only [Span.shift]
      omega
    | opening hblock =>
      refine h _ (.opening hblock) _ (Span.contains_iff.2 ?_)
      simp only
      omega
    | closing hblock hclosed =>
      obtain ⟨hpos, -⟩ := hblock.braces.2 hclosed
      refine h _ (.closing hblock hclosed) _ (Span.contains_iff.2 ?_)
      simp only
      omega
    | package hpackage =>
      obtain ⟨-, hstop, -⟩ := of_packageSpan? hpackage
      exact h _ (.package hpackage) _ (Span.contains_iff.2 (by omega))
  · intro chain s m keyword title hs hm hkind hname r hr hcomment
    obtain ⟨-, keyword', title', hshape, houtside, -⟩ := of_mem_typeHeaders hm
    obtain rfl : keyword' = keyword := Option.some.inj (hshape.kind_span.symm.trans hkind)
    obtain rfl : title' = title := Option.some.inj (hshape.name_span.symm.trans hname)
    have hstart : r.span.contains (s.start + title'.start) = false := by
      by_contra hcontains
      rw [Bool.not_eq_false] at hcontains
      have hin : (Source.ofText t).isComment (s.start + title'.start) = true :=
        inComment_iff.2 ⟨r, hr, hcomment, hcontains⟩
      exact Bool.false_ne_true (houtside.symm.trans hin)
    have hkeyword := hshape.keyword_lt
    have hgap := hshape.gap_lt
    constructor
    · intro i hi
      rw [Span.contains_iff] at hi
      by_contra hcontains
      rw [Bool.not_eq_false] at hcontains
      have hfirst := contains_of_contains_later hr hs hshape (by omega) hi.1 hi.2 hcontains
      exact Bool.false_ne_true (hstart.symm.trans hfirst)
    · intro i hi hcontains
      rw [Span.contains_iff] at hi
      have htitle := hshape.title_lt
      have hfirst := contains_of_contains_later hr hs hshape le_rfl hi.1 (by omega) hcontains
      by_contra hline
      have hreach := contains_of_contains_keyword hr hs hshape hfirst (by omega) le_rfl (.inr hline)
      exact Bool.false_ne_true (hstart.symm.trans hreach)

end Java

end Glossator
