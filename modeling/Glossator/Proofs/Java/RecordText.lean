import Glossator.Proofs.Java.Forest
import Glossator.Proofs.Text.Lines

/-!
# The text of records

A method is found in a stretch of a file, but its record speaks of the file. The places of the
stretch are turned into places of the file, and the lines of the record are counted there.

* `Java.exists_renders_of_mem_extract`: every record renders a slice of the file, with exact lines.
-/

set_option autoImplicit false

namespace Glossator.Java

open Text

/-- The text from a place of a file up to another one is the shortest balanced text that starts
there. -/
def ShortestBalanced (t : Text) (i j : Nat) : Prop :=
  Balanced (Span.slice ⟨i, j⟩ t) ∧ ∀ k, i < k → k < j → ¬ Balanced (Span.slice ⟨i, k⟩ t)

/-- No text that starts at a place of a file and ends before or at another one is balanced. -/
def NeverBalanced (t : Text) (i j : Nat) : Prop :=
  ∀ k, i < k → k ≤ j → ¬ Balanced (Span.slice ⟨i, k⟩ t)

/-- The record renders the text of a file between two places, of which the part from a third one on
is the body or the semicolon. Places are counted in characters from the start of the file; `limit`
is where the body ends of the type that the record belongs to. -/
structure Renders (t : Text) (limit : Nat) (r : FunctionRecord) (start bodyStart stop : Nat) :
    Prop where
  start_le : start ≤ bodyStart
  bodyStart_lt : bodyStart < stop
  stop_le : stop ≤ t.length
  fullText : r.fullText = some (String.ofList (Span.slice ⟨start, stop⟩ t))
  text : r.text = some (String.ofList (Span.slice ⟨bodyStart, stop⟩ t))
  startLine : r.startLine = lineAt t start
  first : ∃ i c, start ≤ i ∧ i < stop ∧ t[i]? = some c ∧ isBlank c = false ∧
    (∀ d ∈ Span.slice ⟨start, i⟩ t, isBlank d = true) ∧ r.startLine = lineAt t i
  endLine : r.endLine = lineAt t (stop - 1)
  lines : 1 ≤ r.startLine ∧ r.startLine ≤ r.endLine ∧ r.endLine ≤ t.countLines
  fullLineCount : r.fullLineCount = r.endLine - r.startLine + 1
  lineCount : r.lineCount = (Span.slice ⟨bodyStart, stop⟩ t).countLines
  bodyless : r.hasBody = false ↔ r.text = some ";"
  body : r.hasBody = true → t[bodyStart]? = some '{' ∧
    (ShortestBalanced t bodyStart stop ∨ stop = limit ∧ NeverBalanced t bodyStart limit)

/-! ### From stretches to the file -/

section

variable {src : Source} {chain : List TypeDeclaration} {s : Stretch}

theorem Reached.slice_add {i j : Nat} (h : Reached src chain s) (hj : j ≤ s.text.length) :
    Span.slice ⟨s.start + i, s.start + j⟩ src.text = Span.slice ⟨i, j⟩ s.text := by
  have hslice : (Span.shift ⟨i, j⟩ s.start).slice src.text = Span.slice ⟨i, j⟩ s.text :=
    h.slice_eq hj
  rwa [Span.shift, Nat.add_comm i, Nat.add_comm j] at hslice

/-- A stretch that the search comes to ends in the file. -/
theorem Reached.stop_le (h : Reached src chain s) :
    s.start + s.text.length ≤ src.text.length := by
  induction h with
  | whole => simp [Stretch.whole]
  | @body chain s d _ hd ih =>
    obtain ⟨hlength, hstart, hle, hstop⟩ := length_body (mem_of_mem_directTypes hd)
    obtain ⟨-, -, hlast⟩ := start_lt_opening (mem_of_mem_directTypes hd)
    rw [start_body]
    omega

/-- A block of a stretch is the shortest balanced text of the file that starts with its opening
brace, or the rest of the stretch if no text there is balanced. -/
theorem Reached.balanced_of_block? (h : Reached src chain s) {offset : Nat} {b : Block}
    (hb : block? s.text offset = some b) :
    ShortestBalanced src.text (s.start + b.opening) (s.start + b.stop) ∨
      s.start + b.stop = s.start + s.text.length ∧
        NeverBalanced src.text (s.start + b.opening) (s.start + s.text.length) := by
  have hat := BlockAt.of_block? hb
  have hstop := hat.stop_le
  obtain ⟨hbalanced, hopen⟩ := braces_of_block? hb
  -- a text between the braces leaves the opening brace open
  have hnot {k : Nat} (hlt : s.start + b.opening < k) (hle : k ≤ s.start + s.text.length)
      (hclosed : b.closed = true → k < s.start + b.stop) :
      ¬ Balanced (Span.slice ⟨s.start + b.opening, k⟩ src.text) := by
    intro hbalanced
    obtain ⟨j, rfl⟩ : ∃ j, k = s.start + j := ⟨k - s.start, by omega⟩
    rw [h.slice_add (by omega)] at hbalanced
    have hleaves : LeavesOpen 0 (Span.slice ⟨b.opening, j⟩ s.text) :=
      hopen (j - b.opening) (by omega) fun hc => by have := hclosed hc; omega
    unfold LeavesOpen at hleaves
    unfold Balanced at hbalanced
    omega
  cases hclosed : b.closed with
  | true =>
    left
    constructor
    · rw [h.slice_add hstop]
      exact hbalanced hclosed
    · intro k hlt hk
      exact hnot hlt (by omega) fun _ => hk
  | false =>
    right
    constructor
    · rw [hat.unclosed hclosed]
    · intro k hlt hk
      exact hnot hlt hk fun hc => by simp [hclosed] at hc

end

/-! ### Records -/

section

variable {src : Source} {scope : Option Scope} {s : Stretch} {types : List Span} {m : Method}
  {title : Span}

/-- The body of a method starts with the last character of its header, and so does the semicolon
in its place. -/
theorem Found.bodyStart_eq (h : Found src scope s types m title) :
    m.extent.bodyStart = m.header.stop - 1 := by
  cases hbody : m.extent.body with
  | none => simp [Extent.bodyStart, hbody, (h.place.bodyless hbody).1]
  | some b => simp [Extent.bodyStart, hbody, (h.place.body b hbody).2.1]

/-- Where a method has no body, a semicolon stands. -/
theorem Found.text_of_bodyless (h : Found src scope s types m title)
    (hbody : m.extent.body = none) :
    Span.slice ⟨m.extent.bodyStart, m.extent.stop⟩ s.text = [';'] := by
  obtain ⟨hstop, hterminator⟩ := h.place.bodyless hbody
  have hlt := h.shape.start_lt_stop
  have hwidth : m.header.stop - (m.header.stop - 1) = 1 := by omega
  rw [h.bodyStart_eq, hstop, Span.slice, hwidth, ← h.shape.terminator, hterminator]

theorem Found.bodyless_iff (h : Found src scope s types m title) :
    (m.record src scope s).hasBody = false ↔ (m.record src scope s).text = some ";" := by
  change m.extent.body.isSome = false ↔
    some (String.ofList (Span.slice ⟨m.extent.bodyStart, m.extent.stop⟩ s.text)) = some ";"
  cases hbody : m.extent.body with
  | none => simp [h.text_of_bodyless hbody]
  | some b =>
    obtain ⟨hblock, hopening, hbstop⟩ := h.place.body b hbody
    have hat := BlockAt.of_block? hblock
    obtain ⟨hlt, hchar⟩ := List.getElem?_eq_some_iff.1 hat.opening_char
    have hwidth : b.stop - b.opening = b.stop - b.opening - 1 + 1 := by
      have := hat.opening_lt
      omega
    rw [h.bodyStart_eq, ← hopening, ← hbstop, Span.slice, List.drop_eq_getElem_cons hlt, hchar,
      hwidth, List.take_succ_cons]
    simp [← String.toList_inj]

/-- The record of a method renders what the method takes up in the file. -/
theorem Found.renders (h : Found src scope s types m title) {chain : List TypeDeclaration}
    (hs : Reached src chain s) :
    Renders src.text (s.start + s.text.length) (m.record src scope s)
      (s.start + m.extent.lineStart) (s.start + m.extent.bodyStart) (s.start + m.extent.stop) := by
  have hlineStart := h.place.lineStart_le
  have hheader := h.place.header_le
  have hstop := h.place.stop_le
  have hlimit := hs.stop_le
  have hbodyStart := h.bodyStart_eq
  obtain ⟨hstart, ⟨c, hc, hblank⟩, hlead⟩ := lead_of_extent? h.shape h.extent
  have hsame : lineAt src.text (s.start + m.extent.start) =
      lineAt src.text (s.start + m.extent.lineStart) := by
    apply lineAt_eq_of_not_mem (by omega)
    intro hmem
    change '\n' ∈ Span.slice ⟨s.start + m.extent.lineStart, s.start + m.extent.start⟩ src.text
      at hmem
    rw [hs.slice_add (by omega)] at hmem
    exact (hlead _ hmem).2 rfl
  have hcount := lineAt_add_countLines_slice (t := src.text)
    (by omega : s.start + m.extent.lineStart < s.start + m.extent.stop) (by omega)
  have hordered : lineAt src.text (s.start + m.extent.lineStart) ≤
      lineAt src.text (s.start + m.extent.stop - 1) := lineAt_mono (by omega)
  have hlast : lineAt src.text (s.start + m.extent.stop - 1) ≤ src.text.countLines :=
    lineAt_le_countLines (by omega)
  have hfull : Span.slice ⟨s.start + m.extent.lineStart, s.start + m.extent.stop⟩ src.text =
      Span.slice ⟨m.extent.lineStart, m.extent.stop⟩ s.text := hs.slice_add hstop
  have hbody : Span.slice ⟨s.start + m.extent.bodyStart, s.start + m.extent.stop⟩ src.text =
      Span.slice ⟨m.extent.bodyStart, m.extent.stop⟩ s.text := hs.slice_add hstop
  have hstartLine : (m.record src scope s).startLine =
      lineAt src.text (s.start + m.extent.lineStart) := by
    rw [← hsame]
    rfl
  have hendLine : (m.record src scope s).endLine =
      lineAt src.text (s.start + m.extent.stop - 1) := rfl
  refine
    { start_le := by omega
      bodyStart_lt := by omega
      stop_le := by omega
      fullText := by rw [hfull]; rfl
      text := by rw [hbody]; rfl
      startLine := hstartLine
      first := ⟨s.start + m.extent.start, c, by omega, by omega, ?_, hblank, ?_, rfl⟩
      endLine := hendLine
      lines := ?_
      fullLineCount := ?_
      lineCount := by rw [hbody]; rfl
      bodyless := h.bodyless_iff
      body := ?_ }
  · rw [← hs.getElem?_eq (by omega), hc]
  · rw [hs.slice_add (by omega)]
    exact fun d hd => (hlead d hd).1
  · rw [hstartLine, hendLine]
    have : 1 ≤ lineAt src.text (s.start + m.extent.lineStart) := Nat.le_add_left 1 _
    omega
  · rw [hfull] at hcount
    rw [hstartLine, hendLine]
    change ((Span.slice ⟨m.extent.lineStart, m.extent.stop⟩ s.text).countLines : Int) = _
    omega
  · intro hhas
    obtain ⟨b, hb⟩ := Option.isSome_iff_exists.1 hhas
    obtain ⟨hblock, hopening, hbstop⟩ := h.place.body b hb
    rw [hbodyStart, ← hopening, ← hbstop]
    constructor
    · rw [← hs.getElem?_eq (by rw [hopening]; omega), (BlockAt.of_block? hblock).opening_char]
    · have hbalanced := hs.balanced_of_block? hblock
      rcases hbalanced with hshortest | ⟨hend, hnever⟩
      · exact .inl hshortest
      · exact .inr ⟨hend, hnever⟩

end

/-- Every record of a file renders a slice of it with exact lines; its body is balanced or reaches
the end of the body of the type that the record belongs to, whose names are the class name. -/
theorem exists_renders_of_mem_extract {t : Text} {r : FunctionRecord} (hr : r ∈ extract t) :
    ∃ chain s start bodyStart stop, Reached (.ofText t) chain s ∧
      r.className = (pathOf? chain).map String.ofList ∧
      s.start ≤ start ∧ stop ≤ s.start + s.text.length ∧
      Renders t (s.start + s.text.length) r start bodyStart stop := by
  obtain ⟨f, hf, rfl⟩ := List.mem_map.1 hr
  obtain ⟨chain, hs, hpath, hm⟩ := exists_reached_of_mem_findings hf
  obtain ⟨title, hfound⟩ := exists_found_of_mem_methods hm
  have hstop := hfound.place.stop_le
  refine ⟨chain, f.stretch, _, _, _, hs, ?_, by omega, by omega, hfound.renders hs⟩
  rw [hpath, Option.map_map]
  rfl

/-- A method behind an empty line, whose body no brace closes. -/
def unclosedMethod : Text := "class A \x7b\n\n  int f() \x7b\n    g();\n".toList

set_option maxRecDepth 10000 in
theorem exists_renders_unclosedMethod : ∃ hlt : 0 < (extract unclosedMethod).length,
    ∃ chain s start bodyStart stop, Reached (.ofText unclosedMethod) chain s ∧
      (extract unclosedMethod)[0].className = (pathOf? chain).map String.ofList ∧
      s.start ≤ start ∧ stop ≤ s.start + s.text.length ∧
      Renders unclosedMethod (s.start + s.text.length) (extract unclosedMethod)[0] start
        bodyStart stop := by
  have hlt : 0 < (extract unclosedMethod).length := by decide +kernel
  exact ⟨hlt, exists_renders_of_mem_extract (List.getElem_mem hlt)⟩

end Glossator.Java
