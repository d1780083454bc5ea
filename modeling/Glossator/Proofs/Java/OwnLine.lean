import Glossator.Proofs.Java.RecordText

/-!
# Methods on lines of their own

The header of a method matches at the start of a line only. So a method that stands behind something
else on its line is passed over: of two methods of a class, the second begins on a later line than
the first ends, and of two that are put on one line, the second is not found any more.

* `Pattern.BeginsLine`: patterns that match at the start of a line only.
* `Java.opens_line`: what stands before a method on its line.
* `Java.own_lines`: methods of one class share no line, and are lost if they are made to.
-/

set_option autoImplicit false

namespace Glossator

/-! ### Patterns at the start of a line -/

namespace Pattern

variable {γ : Type} {p q : Pattern γ}

/-- The pattern matches at the start of a line only. -/
def BeginsLine (p : Pattern γ) : Prop := ∀ o, ∀ o' ∈ p.outcomes o, o.cursor.atLineStart = true

/-- The pattern matches at the start of a line, or it reads nothing. -/
def MayBeginLine (p : Pattern γ) : Prop :=
  ∀ o, ∀ o' ∈ p.outcomes o, o.cursor.atLineStart = true ∨ o'.cursor = o.cursor

namespace BeginsLine

theorem lineStart : BeginsLine (lineStart : Pattern γ) :=
  fun _ _ ho => (mem_outcomes_lineStart.1 ho).2

theorem append (hp : BeginsLine p) (q : Pattern γ) : BeginsLine (p ++ q) := by
  intro o o' ho
  obtain ⟨mid, hmid, -⟩ := mem_outcomes_andThen.1 ho
  exact hp o mid hmid

theorem maybe (hp : BeginsLine p) : MayBeginLine (.maybe p) := by
  intro o o' ho
  rcases mem_outcomes_orElse.1 ho with ho | ho
  · exact .inl (hp o o' ho)
  · exact .inr (by rw [List.mem_singleton.1 ho])

theorem star (hp : BeginsLine p) : MayBeginLine (.star p) := by
  intro o o' ho
  rw [outcomes_star, List.mem_append] at ho
  rcases ho with ho | ho
  · obtain ⟨mid, hmid, -⟩ := List.mem_flatMap.1 ho
    exact .inl (hp o mid hmid)
  · exact .inr (by rw [List.mem_singleton.1 ho])

theorem part (name : γ) (hp : BeginsLine p) : BeginsLine (.part name p) := by
  intro o o' ho
  obtain ⟨mid, hmid, -⟩ := mem_outcomes_part.1 ho
  exact hp o mid hmid

end BeginsLine

namespace MayBeginLine

theorem part (name : γ) (hp : MayBeginLine p) : MayBeginLine (.part name p) := by
  intro o o' ho
  obtain ⟨mid, hmid, rfl⟩ := mem_outcomes_part.1 ho
  exact hp o mid hmid

theorem append (hp : MayBeginLine p) (hq : MayBeginLine q) : MayBeginLine (p ++ q) := by
  intro o o' ho
  obtain ⟨mid, hmid, ho⟩ := mem_outcomes_andThen.1 ho
  rcases hp o mid hmid with h | h
  · exact .inl h
  · rw [← h]
    exact hq mid o' ho

theorem append_beginsLine (hp : MayBeginLine p) (hq : BeginsLine q) : BeginsLine (p ++ q) := by
  intro o o' ho
  obtain ⟨mid, hmid, ho⟩ := mem_outcomes_andThen.1 ho
  rcases hp o mid hmid with h | h
  · exact h
  · rw [← h]
    exact hq mid o' ho

end MayBeginLine

end Pattern

namespace Java

open Pattern Text

theorem beginsLine_methodHeader : BeginsLine methodHeader := by
  have hline (p q r : HeaderPattern) : BeginsLine (Pattern.lineStart ++ p ++ q ++ r) :=
    ((BeginsLine.lineStart.append p).append q).append r
  have hcomments : MayBeginLine methodComments := by
    unfold methodComments plus
    exact (((hline _ _ _).append _).part _).maybe
  have hannotations : MayBeginLine methodAnnotations := by
    unfold methodAnnotations
    exact ((hline _ _ _).append _).star.part _
  unfold methodHeader
  -- twelve patterns follow the start of the line
  iterate 12 apply BeginsLine.append
  exact (hcomments.append hannotations).append_beginsLine .lineStart

/-- At the start of a line, the text begins or a newline stands before the place. -/
theorem newline_of_atLineStart {t : Text} {i : Nat} (hi : i ≤ t.length)
    (h : (Cursor.inText t i).atLineStart = true) : i = 0 ∨ t[i - 1]? = some '\n' := by
  rcases Nat.eq_zero_or_pos i with hzero | hpos
  · exact .inl hzero
  · have hlast : (t.take i).getLast? = some t[i - 1] := by
      rw [List.getLast?_eq_getElem?, List.length_take, Nat.min_eq_left hi,
        List.getElem?_take_of_lt (by omega), List.getElem?_eq_getElem (by omega)]
    simp only [Cursor.atLineStart, Cursor.inText, hlast, Option.all_some, decide_eq_true_eq] at h
    exact .inr (by rw [List.getElem?_eq_getElem (by omega), h])

section

variable {src : Source} {scope : Option Scope} {s : Stretch} {types : List Span} {m : Method}
  {title : Span}

/-- The line of a method starts where a line of its stretch does. -/
theorem Found.newline (h : Found src scope s types m title) :
    m.extent.lineStart = 0 ∨ s.text[m.extent.lineStart - 1]? = some '\n' := by
  obtain ⟨offset, hfind⟩ := h.find
  obtain ⟨hlen, o, ho, -⟩ := Finder.exists_of_find? hfind
  have hheader := newline_of_atLineStart hlen (beginsLine_methodHeader _ o ho)
  obtain ⟨above, since, hlead, -, hlast, hline, hfirst⟩ := lines_of_extent? h.extent
  have hle := h.shape.start_lt_stop
  rcases List.eq_nil_or_concat above with habove | ⟨front, c, habove⟩
  · rw [hline, habove]
    exact hheader
  · rw [List.concat_eq_append] at habove
    have hc : c = '\n' := hlast c (by simp [habove])
    right
    have hindex : m.extent.lineStart - 1 = m.header.start + front.length := by
      rw [hline, habove, List.length_append, List.length_singleton]
      omega
    -- the newline is the last of the blanks above the line
    have hprefix := List.takeWhile_prefix (l := m.header.span.slice s.text) isBlank
    rw [hlead, habove] at hprefix
    have hslice : (m.header.span.slice s.text)[front.length]? = some '\n' := by
      rw [List.prefix_iff_getElem?.1 hprefix front.length (by simp)]
      simp [hc]
    have hin : front.length < m.header.stop - m.header.start := by
      have hlength := hprefix.length_le
      simp only [Span.slice, List.length_append, List.length_take, List.length_singleton]
        at hlength
      change _ ≤ min (m.header.stop - m.header.start) _ at hlength
      omega
    have hplace : (m.header.span.slice s.text)[front.length]? =
        s.text[m.header.span.start + front.length]? := Span.getElem?_slice hin
    rw [hindex, ← hslice, hplace]
    rfl

/-- A body behind which the stretch goes on ends with its closing brace. -/
theorem Found.brace_of_body (h : Found src scope s types m title) {b : Block}
    (hbody : m.extent.body = some b) (hlt : m.extent.stop < s.text.length) :
    s.text[m.extent.stop - 1]? = some '}' := by
  obtain ⟨hblock, -, hstop⟩ := h.place.body b hbody
  have hat := BlockAt.of_block? hblock
  cases hclosed : b.closed with
  | true => exact hstop ▸ (hat.closing hclosed).2
  | false =>
    have := hat.unclosed hclosed
    omega

/-- A method behind which its stretch goes on does not end with a newline. -/
theorem Found.last_ne_newline (h : Found src scope s types m title)
    (hlt : m.extent.stop < s.text.length) : s.text[m.extent.stop - 1]? ≠ some '\n' := by
  cases hbody : m.extent.body with
  | none =>
    obtain ⟨hstop, hterminator⟩ := h.place.bodyless hbody
    rw [h.shape.terminator, List.take_one, List.head?_drop, ← hstop] at hterminator
    intro hnewline
    rw [hnewline] at hterminator
    cases hterminator
  | some b =>
    rw [h.brace_of_body hbody hlt]
    simp

end

/-! ### Lines of the file -/

section

variable {src : Source} {chain : List TypeDeclaration} {s : Stretch}

/-- Before a stretch that the search comes to, a brace stands or nothing. -/
theorem Reached.brace (h : Reached src chain s) :
    s.start = 0 ∨ src.text[s.start - 1]? = some '{' := by
  cases h with
  | whole => exact .inl rfl
  | @body chain s d hs hd =>
    have hmem := mem_of_mem_directTypes hd
    obtain ⟨⟨offset, -, hblock⟩, -⟩ := extent_of_mem hmem
    obtain ⟨-, hopening, hstop⟩ := start_lt_opening hmem
    have hinner := (length_body hmem).2.1
    right
    have hindex : (d.body s).start - 1 = s.start + d.block.opening := by
      rw [start_body, hinner]
      omega
    rw [hindex, ← hs.getElem?_eq (by omega), hblock.opening_char]

/-- From one place to another one of a text, blanks stand on one line, behind the start of the line
or a brace. -/
structure OpensLine (t : Text) (i j : Nat) : Prop where
  le : i ≤ j
  blank : ∀ k, i ≤ k → k < j → ∀ c, t[k]? = some c → isBlank c = true ∧ c ≠ '\n'
  before : i = 0 ∨ t[i - 1]? = some '\n' ∨ t[i - 1]? = some '{'

namespace Finding

/-- Where the line of a found method starts in the file. -/
def lineStart (f : Finding) : Nat := f.stretch.start + f.method.extent.lineStart

/-- Where the first character of a found method that is not blank stands in the file. -/
def start (f : Finding) : Nat := f.stretch.start + f.method.extent.start

/-- Where a found method ends in the file. -/
def stop (f : Finding) : Nat := f.stretch.start + f.method.extent.stop

end Finding

/-- Before a method, only blanks stand on its line, or the brace of the type that it belongs to. -/
theorem opens_line {f : Finding} (h : f ∈ findings src) :
    OpensLine src.text f.lineStart f.start := by
  obtain ⟨chain, hs, -, hm⟩ := exists_reached_of_mem_findings h
  obtain ⟨title, hfound⟩ := exists_found_of_mem_methods hm
  have hline := hfound.place.lineStart_le
  obtain ⟨hlt, -, hblank⟩ := lead_of_extent? hfound.shape hfound.extent
  have hsize := hfound.shape.stop_le
  refine ⟨Nat.add_le_add_left hline _, ?_, ?_⟩
  · intro k hk hk' c hc
    obtain ⟨i, rfl⟩ : ∃ i, k = f.stretch.start + i := ⟨k - f.stretch.start, by
      unfold Finding.lineStart at hk
      omega⟩
    unfold Finding.lineStart at hk
    unfold Finding.start at hk'
    rw [← hs.getElem?_eq (by omega)] at hc
    refine hblank c (Span.mem_slice (Span.contains_iff.2 ⟨?_, ?_⟩) hc) <;> simp only <;> omega
  · unfold Finding.lineStart
    rcases Nat.eq_zero_or_pos f.method.extent.lineStart with hzero | hpos
    · rw [hzero, Nat.add_zero]
      exact hs.brace.imp id .inr
    · have hnewline := hfound.newline.resolve_left hpos.ne'
      have hindex : f.stretch.start + f.method.extent.lineStart - 1 =
          f.stretch.start + (f.method.extent.lineStart - 1) := by omega
      right
      left
      rw [hindex, ← hs.getElem?_eq (by omega), hnewline]

/-- A method does not begin on a line on which the text before it is closed. -/
theorem start_ne_of_brace {f : Finding} (h : f ∈ findings src) {before gap after : Text}
    (hsrc : src.text = before ++ gap ++ after) (hbefore : before.getLast? = some '}')
    (hgap : ∀ c ∈ gap, isBlank c = true ∧ c ≠ '\n') : f.start ≠ (before ++ gap).length := by
  intro hstart
  obtain ⟨hle, hblank, hopens⟩ := opens_line h
  rw [hstart, List.length_append] at hle hblank
  obtain ⟨front, rfl⟩ := List.getLast?_eq_some_iff.1 hbefore
  rw [List.length_append, List.length_singleton] at hle hblank
  have hbrace : src.text[front.length]? = some '}' := by
    rw [hsrc]
    simp
  -- so the line starts behind the brace
  have hbehind : front.length < f.lineStart := by
    by_contra hnot
    have := (hblank front.length (by omega) (by omega) '}' hbrace).1
    exact absurd this (by decide)
  have hline : src.text[f.lineStart - 1]? = some '}' ∨
      ∃ c ∈ gap, src.text[f.lineStart - 1]? = some c := by
    rcases Nat.eq_or_lt_of_le hbehind with heq | hlt
    · exact .inl (by rw [← heq, Nat.succ_eq_add_one, Nat.add_sub_cancel, hbrace])
    · right
      have hindex : f.lineStart - 1 - (front.length + 1) < gap.length := by omega
      refine ⟨gap[f.lineStart - 1 - (front.length + 1)], List.getElem_mem hindex, ?_⟩
      rw [hsrc, List.append_assoc, List.getElem?_append_right (by simp; omega),
        List.getElem?_append_left (by simpa using hindex),
        List.getElem?_eq_getElem (by simpa using hindex)]
      simp
  rcases hopens with hzero | hnewline | hopen
  · omega
  · rcases hline with hline | ⟨c, hc, hline⟩
    · rw [hnewline] at hline
      cases hline
    · rw [hnewline, Option.some_inj] at hline
      exact (hgap c hc).2 hline.symm
  · rcases hline with hline | ⟨c, hc, hline⟩
    · rw [hopen] at hline
      cases hline
    · rw [hopen, Option.some_inj] at hline
      have := (hgap c hc).1
      rw [← hline] at this
      exact absurd this (by decide)

/-- Between two methods of a stretch a line ends. -/
theorem exists_newline_between {scope scope' : Option Scope} {m m' : Method}
    (hm : m ∈ methods src scope s) (hm' : m' ∈ methods src scope' s)
    (hle : m.extent.stop ≤ m'.header.start) :
    ∃ i, m.extent.stop ≤ i ∧ i < m'.extent.start ∧ s.text[i]? = some '\n' := by
  obtain ⟨title, hfound⟩ := exists_found_of_mem_methods hm
  obtain ⟨title', hfound'⟩ := exists_found_of_mem_methods hm'
  have hfirst := hfound'.place.start_le
  have hline := hfound'.place.lineStart_le
  have hlt := (lead_of_extent? hfound'.shape hfound'.extent).1
  have hsize := hfound'.shape.stop_le
  have hpos : 0 < m.extent.stop :=
    (Nat.zero_le _).trans_lt (hfound.shape.start_lt_stop.trans_le hfound.place.header_le)
  have hnewline := hfound'.newline.resolve_left (by omega)
  refine ⟨m'.extent.lineStart - 1, ?_, by omega, hnewline⟩
  -- the newline is not the last character of the first method
  by_contra hnot
  have heq : m'.extent.lineStart - 1 = m.extent.stop - 1 := by omega
  rw [heq] at hnewline
  exact hfound.last_ne_newline (by omega) hnewline

end

/-- Two methods with bodies that are found one after the other in one class, with nothing but blanks
between them in the file. -/
structure AreNeighbours (t : Text) (f g : Finding) (before gap after : Text) : Prop where
  text : t = before ++ gap ++ after
  adjacent : [f, g] <:+: findings (.ofText t)
  scope : f.scope.map Scope.path = g.scope.map Scope.path
  stretch : f.stretch = g.stretch
  bodies : f.method.extent.hasBody = true ∧ g.method.extent.hasBody = true
  stop : before.length = f.stop
  start : (before ++ gap).length = g.start
  blank : ∀ c ∈ gap, isBlank c = true

/-- The methods that are found in one stretch come one behind the other. -/
theorem pairwise_findings (src : Source) : (findings src).Pairwise fun f g =>
    f.stretch = g.stretch → f.method.extent.stop ≤ g.method.header.start := by
  have hstretch (scope : Option Scope) (s : Stretch) :
      (Finding.ofStretch src scope s).Pairwise fun f g =>
        f.stretch = g.stretch → f.method.extent.stop ≤ g.method.header.start := by
    rw [Finding.ofStretch, List.pairwise_map]
    refine (pairwise_methods src scope s).imp ?_
    exact fun hle _ => hle
  rw [findings]
  split
  · exact hstretch none _
  · rw [List.pairwise_flatMap]
    refine ⟨fun o _ => hstretch _ _, ?_⟩
    have hnodup := nodup_start_openTypes src none (.whole src.text)
    rw [List.Nodup, List.pairwise_map] at hnodup
    refine hnodup.imp fun {o o'} hne f hf g hg heq => ?_
    obtain ⟨m, -, rfl⟩ := List.mem_map.1 hf
    obtain ⟨m', -, rfl⟩ := List.mem_map.1 hg
    exact absurd (congrArg Stretch.start heq) hne

/-- Two methods that are found one behind the other in one stretch share no line. -/
theorem endLine_lt_startLine {src : Source} {f g : Finding} (hf : f ∈ findings src)
    (hg : g ∈ findings src) (hstretch : f.stretch = g.stretch)
    (hle : f.method.extent.stop ≤ g.method.header.start) :
    (f.record src).endLine < (g.record src).startLine := by
  obtain ⟨chain, hs, -, hm⟩ := exists_reached_of_mem_findings hf
  obtain ⟨-, -, -, hm'⟩ := exists_reached_of_mem_findings hg
  rw [hstretch] at hs hm
  obtain ⟨i, hstop, hstart, hnewline⟩ := exists_newline_between hm hm' hle
  have hi : i < g.stretch.text.length := (List.getElem?_eq_some_iff.1 hnewline).1
  have hline : src.text[g.stretch.start + i]? = some '\n' := by
    rw [← hs.getElem?_eq hi, hnewline]
  have hlines : lineAt src.text (g.stretch.start + f.method.extent.stop - 1) <
      lineAt src.text (g.stretch.start + g.method.extent.start) :=
    calc lineAt src.text (g.stretch.start + f.method.extent.stop - 1)
        ≤ lineAt src.text (g.stretch.start + i) := lineAt_mono (by omega)
      _ < lineAt src.text (g.stretch.start + i + 1) := lineAt_lt_succ hline
      _ ≤ lineAt src.text (g.stretch.start + g.method.extent.start) := lineAt_mono (by omega)
  have hend : (f.record src).endLine =
      lineAt src.text (g.stretch.start + f.method.extent.stop - 1) := by
    rw [← hstretch]
    rfl
  have hbegin : (g.record src).startLine =
      lineAt src.text (g.stretch.start + g.method.extent.start) := rfl
  rw [hend, hbegin]
  exact_mod_cast hlines

/-- The qualified name and the signature of a found method. -/
def Finding.title (src : Source) (f : Finding) : Option String × String :=
  ((f.record src).qualifiedName, (f.record src).signature)

section

variable {t : Text} {f g : Finding} {before gap after joint : Text}

/-- Neighbours are found one behind the other. -/
theorem AreNeighbours.found (h : AreNeighbours t f g before gap after) :
    f ∈ findings (.ofText t) ∧ g ∈ findings (.ofText t) ∧
      f.method.extent.stop ≤ g.method.header.start := by
  refine ⟨h.adjacent.subset (by simp), h.adjacent.subset (by simp), ?_⟩
  have hpair := (pairwise_findings (.ofText t)).sublist h.adjacent.sublist
  exact List.rel_of_pairwise_cons hpair (List.mem_singleton_self g) h.stretch

/-- The closing brace of the first of two neighbours stands before the gap. -/
theorem AreNeighbours.getLast? (h : AreNeighbours t f g before gap after) :
    before.getLast? = some '}' := by
  obtain ⟨hf, hg, hle⟩ := h.found
  obtain ⟨chain, hs, -, hm⟩ := exists_reached_of_mem_findings hf
  obtain ⟨-, -, -, hm'⟩ := exists_reached_of_mem_findings hg
  obtain ⟨title, hfound⟩ := exists_found_of_mem_methods hm
  obtain ⟨title', hfound'⟩ := exists_found_of_mem_methods hm'
  have hlt := hfound'.shape.start_lt_stop
  have hsize := hfound'.shape.stop_le
  rw [← h.stretch] at hsize
  have hpos := hfound.shape.start_lt_stop.trans_le hfound.place.header_le
  have hlast : f.stretch.text[f.method.extent.stop - 1]? = some '}' := by
    obtain ⟨b, hb⟩ := Option.isSome_iff_exists.1 h.bodies.1
    exact hfound.brace_of_body hb (by omega)
  have hindex : before.length - 1 = f.stretch.start + (f.method.extent.stop - 1) := by
    rw [h.stop, Finding.stop]
    omega
  rw [hs.getElem?_eq (by omega), ← hindex] at hlast
  have htext : (Source.ofText t).text = before ++ (gap ++ after) := by
    rw [← List.append_assoc, ← h.text]
    rfl
  have hne : 0 < before.length := by
    rw [h.stop, Finding.stop]
    omega
  rw [htext, List.getElem?_append_left (by omega)] at hlast
  rw [List.getLast?_eq_getElem?, hlast]

/-- A line ends between neighbours. -/
theorem AreNeighbours.newline_mem (h : AreNeighbours t f g before gap after) : '\n' ∈ gap := by
  by_contra hnot
  refine start_ne_of_brace h.found.2.1 h.text h.getLast? ?_ h.start.symm
  exact fun c hc => ⟨h.blank c hc, fun hc' => hnot (hc' ▸ hc)⟩

/-- Where neighbours are put on one line, no method begins where the second one stands. -/
theorem AreNeighbours.start_ne (h : AreNeighbours t f g before gap after)
    (hjoint : ∀ c ∈ joint, isBlank c = true ∧ c ≠ '\n') {f' : Finding}
    (hf' : f' ∈ findings (.ofText (before ++ joint ++ after))) :
    f'.start ≠ (before ++ joint).length :=
  start_ne_of_brace hf' rfl h.getLast? hjoint

end

/-- Methods of one class share no line: each begins on a later line than the one before it ends. So
a line ends between neighbours; where they are put on one line, the second is not found in its
place, and another method has to stand in for it if the same names and signatures are reported. -/
theorem own_lines (t : Text) :
    (findings (.ofText t)).Pairwise (fun f g => f.stretch = g.stretch →
      (f.record (.ofText t)).endLine < (g.record (.ofText t)).startLine) ∧
    ∀ f g before gap after, AreNeighbours t f g before gap after →
      '\n' ∈ gap ∧ ∀ joint, (∀ c ∈ joint, isBlank c = true ∧ c ≠ '\n') →
        ∀ src, src = Source.ofText (before ++ joint ++ after) →
          (∀ f' ∈ findings src, f'.start ≠ (before ++ joint).length) ∧
          ((findings src).map (Finding.title src) =
              (findings (.ofText t)).map (Finding.title (.ofText t)) →
            ∃ f' ∈ findings src, f'.title src = g.title (.ofText t) ∧
              f'.start ≠ (before ++ joint).length) := by
  refine ⟨?lines, fun f g before gap after h => ⟨h.newline_mem, ?_⟩⟩
  case lines =>
    refine (pairwise_findings (.ofText t)).imp_of_mem fun {f g} hf hg hle hstretch => ?_
    exact endLine_lt_startLine hf hg hstretch (hle hstretch)
  rintro joint hjoint src rfl
  refine ⟨fun f' => h.start_ne hjoint, fun hsame => ?_⟩
  have hmem := List.mem_map_of_mem (f := Finding.title (.ofText t)) h.found.2.1
  rw [← hsame] at hmem
  obtain ⟨f', hf', htitle⟩ := List.mem_map.1 hmem
  exact ⟨f', hf', htitle, h.start_ne hjoint hf'⟩

theorem Stretch.eq_of_start_of_text {s s' : Stretch} (hstart : s.start = s'.start)
    (htext : s.text = s'.text) : s = s' := by
  cases s
  cases s'
  exact congr (congrArg Stretch.mk hstart) htext

/-- A class with two methods, up to the end of the first one and from the second one on. -/
def twoMethods : Text × Text :=
  ("class A \x7b\n  void m() \x7b\x7d".toList, "void n() \x7b\x7d\n\x7d\n".toList)

/-- The two methods with some text between them. -/
def twoMethodsWith (gap : Text) : Text := twoMethods.1 ++ gap ++ twoMethods.2

set_option maxRecDepth 10000 in
/-- On lines of their own both methods are found, on one line only the first. -/
theorem own_lines_twoMethods :
    ∃ f g, AreNeighbours (twoMethodsWith ['\n']) f g twoMethods.1 ['\n'] twoMethods.2 ∧
      (∀ f' ∈ findings (.ofText (twoMethodsWith [' '])),
        f'.start ≠ (twoMethods.1 ++ [' ']).length) ∧
      (extract (twoMethodsWith ['\n'])).map FunctionRecord.qualifiedName =
        [some "A.m", some "A.n"] ∧
      (extract (twoMethodsWith [' '])).map FunctionRecord.qualifiedName = [some "A.m"] := by
  have hread : (findings (.ofText (twoMethodsWith ['\n']))).map (fun f => ((f.start, f.stop),
      (f.stretch.start, f.stretch.text), f.scope.map Scope.path, f.method.extent.hasBody)) =
      [(12, 23), (24, 35)].map (fun place => (place,
        (9, ((twoMethodsWith ['\n']).drop 9).take 27), some ['A'], true)) := by decide +kernel
  have hlength := congrArg List.length hread
  rw [List.length_map, List.length_map] at hlength
  obtain ⟨f, g, hfound⟩ := List.length_eq_two.1 hlength
  rw [hfound] at hread
  simp only [List.map_cons, List.map_nil, List.cons.injEq, Prod.mk.injEq, and_true] at hread
  obtain ⟨⟨⟨-, hstop⟩, ⟨hstretch, htext⟩, hscope, hbody⟩,
    ⟨hstart, -⟩, ⟨hstretch', htext'⟩, hscope', hbody'⟩ := hread
  have hnewline : isBlank '\n' = true := by decide
  have hspace : isBlank ' ' = true ∧ ' ' ≠ '\n' := by decide
  have hneighbours : AreNeighbours (twoMethodsWith ['\n']) f g twoMethods.1 ['\n']
      twoMethods.2 :=
    { text := rfl
      adjacent := hfound ▸ List.infix_rfl
      scope := hscope.trans hscope'.symm
      stretch := Stretch.eq_of_start_of_text (hstretch.trans hstretch'.symm)
        (htext.trans htext'.symm)
      bodies := ⟨hbody, hbody'⟩
      stop := by rw [hstop]; decide
      start := by rw [hstart]; decide
      blank := fun c hc => List.mem_singleton.1 hc ▸ hnewline }
  refine ⟨f, g, hneighbours, ?_, by decide +kernel, by decide +kernel⟩
  refine (((own_lines _).2 f g _ _ _ hneighbours).2 [' '] ?_ _ rfl).1
  exact fun c hc => List.mem_singleton.1 hc ▸ hspace

end Java

end Glossator
