import Glossator.Proofs.Python.Tree

/-!
# Lines of Python functions

The lines of a function are those from its first to the last that holds code of it. Its record
tells them apart: those before the docstring, those of the docstring, and those behind.

* `Python.lineSpan_eq`: the lines of a node, from the places where it starts and ends.
* `Python.codeEndLine_le_of_mem`: code of a node ends within the lines of the node.
* `Python.exists_accounts`: the lines of a function are those of its head, its docstring and its
  tail.
-/

set_option autoImplicit false

namespace Glossator.Python

open Text (lineAt stretch)

variable {t : Text} {n c : Tree}

/-! ### Lines of nodes -/

/-- The line on which a node ends. A node that ends where a line starts ends on the line before. -/
def endLine (n : Tree) : Nat := if n.stop.column = 0 then n.stop.row else n.stop.row + 1

/-- A node that takes up text ends on the line of its last character. -/
theorem endLine_eq (hstop : t.IsPlace n.stop) (hlt : n.start.offset < n.stop.offset) :
    endLine n = lineAt t (n.stop.offset - 1) := by
  have hpos : 0 < n.stop.offset := by omega
  have hpred := Text.lineAt_pred hpos hstop.offset_le
  have hrow := hstop.row_add_one
  have hcolumn := hstop.column_eq_zero_iff hpos
  unfold endLine
  split
  · next hzero =>
    rw [if_pos (hcolumn.1 hzero)] at hpred
    omega
  · next hne =>
    rw [if_neg fun hnewline => hne (hcolumn.2 hnewline)] at hpred
    omega

/-- The first line of a node is that of its first character, the last one that of its last. -/
theorem lineSpan_eq (hstart : t.IsPlace n.start) (hstop : t.IsPlace n.stop)
    (hlt : n.start.offset < n.stop.offset) :
    lineSpan n = (lineAt t n.start.offset, lineAt t (n.stop.offset - 1)) := by
  have hmono : lineAt t n.start.offset ≤ lineAt t (n.stop.offset - 1) :=
    Text.lineAt_mono (by omega)
  have hfirst := hstart.row_add_one
  have hlast := endLine_eq hstop hlt
  unfold endLine at hlast
  rw [lineSpan, hfirst]
  by_cases hzero : n.stop.column = 0
  · rw [if_pos hzero] at hlast
    have hrow : n.start.row < n.stop.row := by omega
    simp only [hzero, hrow, decide_true, Bool.and_self, if_true, Prod.mk.injEq, true_and]
    omega
  · rw [if_neg hzero] at hlast
    simp only [hzero, decide_false, Bool.false_and, Bool.false_eq_true, if_false,
      Prod.mk.injEq, true_and]
    omega

/-- The code of a node ends where that of its last code child ends. -/
theorem codeEndLine_eq (n : Tree) :
    codeEndLine n = match (codeChildren n.children).getLast? with
      | none => (lineSpan n).2
      | some c => codeEndLine c := by
  cases n with
  | node info children =>
    rw [codeEndLine]
    simp only [Tree.children]
    split <;> simp_all

theorem mem_codeChildren {children : List Tree} :
    c ∈ codeChildren children ↔
      c ∈ children ∧ c.kind ≠ "comment" ∧ c.start.offset < c.stop.offset := by
  simp [codeChildren, Tree.isComment, Tree.isEmpty]

/-- The code of a node ends with a character of the node. -/
theorem exists_codeEndLine_eq (h : n.Every (Tree.Placed t)) (hlt : n.start.offset < n.stop.offset) :
    ∃ last, n.start.offset ≤ last ∧ last < n.stop.offset ∧ codeEndLine n = lineAt t last := by
  induction h with
  | @mk n here below ih =>
    rw [codeEndLine_eq]
    cases hlast : (codeChildren n.children).getLast? with
    | none =>
      refine ⟨n.stop.offset - 1, by omega, by omega, ?_⟩
      simp only [lineSpan_eq here.start here.stop hlt]
    | some c =>
      obtain ⟨hc, -, hclt⟩ := mem_codeChildren.1 (List.mem_of_getLast? hlast)
      obtain ⟨hstart, hstop⟩ := here.inside c hc
      obtain ⟨last, hle, hlt, heq⟩ := ih c hc hclt
      exact ⟨last, by omega, by omega, heq⟩

/-- A function that starts on a line has code on it or behind. -/
theorem lineAt_le_codeEndLine (h : n.Every (Tree.Placed t)) (hlt : n.start.offset < n.stop.offset) :
    lineAt t n.start.offset ≤ codeEndLine n := by
  obtain ⟨last, hle, -, heq⟩ := exists_codeEndLine_eq h hlt
  rw [heq]
  exact Text.lineAt_mono hle

theorem codeEndLine_le_lineAt (h : n.Every (Tree.Placed t)) (hlt : n.start.offset < n.stop.offset) :
    codeEndLine n ≤ lineAt t (n.stop.offset - 1) := by
  obtain ⟨last, -, hlast, heq⟩ := exists_codeEndLine_eq h hlt
  rw [heq]
  exact Text.lineAt_mono (by omega)

/-- The code of a child ends within the lines of the code of the node. -/
theorem codeEndLine_le_of_mem (h : n.Every (Tree.Placed t)) (hc : c ∈ codeChildren n.children) :
    codeEndLine c ≤ codeEndLine n := by
  obtain ⟨front, d, heq⟩ := List.eq_nil_or_concat (codeChildren n.children)
    |>.resolve_left (List.ne_nil_of_mem hc)
  rw [List.concat_eq_append] at heq
  have hend : codeEndLine n = codeEndLine d := by
    rw [codeEndLine_eq n, heq, List.getLast?_concat]
  have hd : d ∈ codeChildren n.children := by simp [heq]
  obtain ⟨hcmem, -, hclt⟩ := mem_codeChildren.1 hc
  obtain ⟨hdmem, -, hdlt⟩ := mem_codeChildren.1 hd
  rw [hend]
  rw [heq, List.mem_append, List.mem_singleton] at hc
  rcases hc with hc | rfl
  · -- a code child before the last one ends before that one starts
    have hordered : (front ++ [d]).Pairwise fun a b => a.stop.offset ≤ b.start.offset := by
      rw [← heq]
      exact h.here.ordered.filter _
    have hle : c.stop.offset ≤ d.start.offset :=
      (List.pairwise_append.1 hordered).2.2 c hc d (List.mem_singleton_self d)
    calc codeEndLine c ≤ lineAt t (c.stop.offset - 1) := codeEndLine_le_lineAt (h.child hcmem) hclt
      _ ≤ lineAt t d.start.offset := Text.lineAt_mono (by omega)
      _ ≤ codeEndLine d := lineAt_le_codeEndLine (h.child hdmem) hdlt
  · exact le_rfl

theorem EndsInCode.lt (hends : EndsInCode n) (h : n.Every (Tree.Placed t)) :
    n.start.offset < n.stop.offset := by
  cases hends with
  | token _ hlt => exact hlt
  | last hlast hstop _ =>
    obtain ⟨hc, -, hclt⟩ := mem_codeChildren.1 (List.mem_of_getLast? hlast)
    have hle := h.here.inside _ hc
    omega

/-- A node that ends in code has its last character on the last line of its code. -/
theorem EndsInCode.codeEndLine_eq (hends : EndsInCode n) (h : n.Every (Tree.Placed t)) :
    codeEndLine n = lineAt t (n.stop.offset - 1) := by
  induction hends with
  | token hnone hlt =>
    rw [Python.codeEndLine_eq, hnone]
    simp only [List.getLast?_nil, lineSpan_eq h.here.start h.here.stop hlt]
  | last hlast hstop _ ih =>
    have hc := (mem_codeChildren.1 (List.mem_of_getLast? hlast)).1
    rw [Python.codeEndLine_eq, hlast, ← hstop]
    exact ih (h.child hc)

/-! ### Docstrings -/

/-- The first statement of a body. -/
def firstStatement? (body : Tree) : Option Tree := body.namedChildren.find? fun c => !c.isComment

/-- The statement that is the docstring of a function. -/
def docstringStatement? (source : Text) (f : Tree) : Option Tree :=
  (f.child? "body").bind fun body =>
    if (docstring? source body).isSome then firstStatement? body else none

theorem docstring?_eq_some {source : Text} {body : Tree} {d : Docstring}
    (h : docstring? source body = some d) :
    ∃ first, firstStatement? body = some first ∧ first.kind = "expression_statement" ∧
      lineSpan first = (d.firstLine, d.lastLine) := by
  unfold docstring? at h
  obtain ⟨first, hfirst, h⟩ := Option.bind_eq_some_iff.1 h
  split at h
  · next hkind =>
    split at h
    · obtain ⟨value, -, h⟩ := Option.bind_eq_some_iff.1 h
      cases h
      exact ⟨first, hfirst, eq_of_beq hkind, rfl⟩
    · cases h
  · cases h

/-- The docstring of a function stands on lines of its code. -/
theorem docstring_lines {f body : Tree} {d : Docstring} (hplaced : f.Every (Tree.Placed t))
    (hpython : f.Every IsPython) (hbody : f.child? "body" = some body)
    (hdoc : docstring? t body = some d) :
    ∃ statement, docstringStatement? t f = some statement ∧
      lineAt t f.start.offset ≤ d.firstLine ∧ d.firstLine ≤ d.lastLine ∧
      d.lastLine ≤ codeEndLine f ∧ d.firstLine = lineAt t statement.start.offset ∧
      d.lastLine = lineAt t (statement.stop.offset - 1) := by
  obtain ⟨statement, hfirst, hkind, hspan⟩ := docstring?_eq_some hdoc
  have hmem : statement ∈ body.children :=
    (List.mem_filter.1 (List.mem_of_find?_eq_some hfirst)).1
  have hbodymem : body ∈ f.children := mem_children_of_child? hbody
  have hbodyplaced := hplaced.child hbodymem
  have hstatementplaced := hbodyplaced.child hmem
  have hends := ((hpython.child hbodymem).child hmem).here.statement hkind
  have hlt := hends.lt hstatementplaced
  have hinbody := hbodyplaced.here.inside statement hmem
  have hinside := hplaced.here.inside body hbodymem
  -- a comment has no statement in it
  have hcode : body ∈ codeChildren f.children := by
    refine mem_codeChildren.2 ⟨hbodymem, ?_, by omega⟩
    intro hcomment
    rw [(hpython.child hbodymem).here.comment hcomment] at hmem
    exact List.not_mem_nil hmem
  have hstatementcode : statement ∈ codeChildren body.children := by
    refine mem_codeChildren.2 ⟨hmem, ?_, hlt⟩
    rw [hkind]
    decide
  rw [lineSpan_eq hstatementplaced.here.start hstatementplaced.here.stop hlt] at hspan
  obtain ⟨hfirstline, hlastline⟩ := Prod.mk.inj hspan
  refine ⟨statement, ?_, ?_, ?_, ?_, hfirstline.symm, hlastline.symm⟩
  · simp [docstringStatement?, hbody, hdoc, hfirst]
  · rw [← hfirstline]
    exact Text.lineAt_mono (by omega)
  · rw [← hfirstline, ← hlastline]
    exact Text.lineAt_mono (by omega)
  · calc d.lastLine = codeEndLine statement := by
          rw [← hlastline, hends.codeEndLine_eq hstatementplaced]
      _ ≤ codeEndLine body := codeEndLine_le_of_mem hbodyplaced hstatementcode
      _ ≤ codeEndLine f := codeEndLine_le_of_mem hplaced hcode

/-! ### Lines of records -/

theorem Source.slice_eq (src : Source) (first last : Nat) :
    src.slice (first + 1) last = (stretch src.lines first last).flatten := by
  unfold slice
  by_cases hlt : last < first + 1
  · have hnil : stretch src.lines first last = [] := by
      rw [stretch, List.drop_eq_nil_iff, List.length_take]
      omega
    simp [hlt, hnil]
  · simp [hlt, stretch]

/-- Where the lines of the docstring start and end among those of the text, counted from 0; at the
end of the function if it has none. -/
def docstringLines (source : Text) (f : Tree) : Nat × Nat :=
  match (f.child? "body").bind (docstring? source) with
  | some d => (d.firstLine - 1, d.lastLine)
  | none => (codeEndLine f, codeEndLine f)

/-- A function takes up whole lines of a text, between those above and those below it. Its docstring
takes up some of them, between those of the head of the function and those of the tail. -/
structure Accounts (t : Text) (f : Tree) (r : FunctionRecord)
    (above head doc tail below : List Text) : Prop where
  lines : t.linesWithEnds = above ++ (head ++ doc ++ tail) ++ below
  startLine : r.startLine = above.length + 1
  endLine : r.endLine = above.length + (head ++ doc ++ tail).length
  starts : r.startLine = f.start.row + 1
  start_le_end : r.startLine ≤ r.endLine
  end_le : r.endLine ≤ t.countLines
  fullText : r.fullText = some (String.ofList (head ++ doc ++ tail).flatten)
  contiguous : (head ++ doc ++ tail).flatten <:+: t
  fullLineCount : (r.fullLineCount : Int) = r.endLine - r.startLine + 1
  counted : r.fullLineCount = Text.countLines (head ++ doc ++ tail).flatten
  text : r.text = some (String.ofList (head ++ tail).flatten)
  lineCount : r.lineCount = Text.countLines (head ++ tail).flatten
  docstringLineCount : r.docstringLineCount = some doc.length
  total : r.lineCount + doc.length = r.fullLineCount
  documented : ∀ statement, docstringStatement? t f = some statement →
    r.docstring.isSome = true ∧ doc ≠ [] ∧
      above.length + head.length + 1 = lineAt t statement.start.offset ∧
      above.length + head.length + doc.length = lineAt t (statement.stop.offset - 1)
  undocumented : docstringStatement? t f = none → r.docstring = none ∧ doc = []

/-- The lines of a docstring are lines of its function. -/
theorem docstringLines_spec {f : Tree} (hplaced : f.Every (Tree.Placed t))
    (hpython : f.Every IsPython) (hkind : f.kind = "function_definition") :
    f.start.row ≤ (docstringLines t f).1 ∧ (docstringLines t f).1 ≤ (docstringLines t f).2 ∧
      (docstringLines t f).2 ≤ codeEndLine f ∧
      (((f.child? "body").bind (docstring? t)).map fun d => d.lastLine - d.firstLine + 1).getD 0 =
        (docstringLines t f).2 - (docstringLines t f).1 := by
  have hfirst := hplaced.here.start.row_add_one
  have hcode := lineAt_le_codeEndLine hplaced (hpython.here.function hkind).1
  unfold docstringLines
  cases hdoc : (f.child? "body").bind (docstring? t) with
  | none =>
    simp only [Option.map_none, Option.getD_none]
    omega
  | some d =>
    obtain ⟨body, hbody, hdoc⟩ := Option.bind_eq_some_iff.1 hdoc
    obtain ⟨-, -, hstart, hle, hend, -⟩ := docstring_lines hplaced hpython hbody hdoc
    simp only [Option.map_some, Option.getD_some]
    omega

theorem docstringLines_of_statement {f statement : Tree} (hplaced : f.Every (Tree.Placed t))
    (hpython : f.Every IsPython) (h : docstringStatement? t f = some statement) :
    ((f.child? "body").bind (docstring? t)).isSome = true ∧
      (docstringLines t f).1 + 1 = lineAt t statement.start.offset ∧
      (docstringLines t f).2 = lineAt t (statement.stop.offset - 1) ∧
      (docstringLines t f).1 < (docstringLines t f).2 := by
  obtain ⟨body, hbody, hstatement⟩ := Option.bind_eq_some_iff.1 h
  obtain ⟨d, hdoc⟩ := Option.isSome_iff_exists.1 (Option.ite_none_right_eq_some.1 hstatement).1
  obtain ⟨statement', hstatement', -, hle, -, hfirst, hlast⟩ :=
    docstring_lines hplaced hpython hbody hdoc
  rw [h] at hstatement'
  cases hstatement'
  have hpos : 0 < d.firstLine := by
    rw [hfirst]
    exact Nat.succ_pos _
  unfold docstringLines
  simp only [hbody, Option.bind_some, hdoc, Option.isSome_some, true_and]
  omega

theorem docstringLines_of_none {f : Tree} (hplaced : f.Every (Tree.Placed t))
    (hpython : f.Every IsPython) (h : docstringStatement? t f = none) :
    (f.child? "body").bind (docstring? t) = none ∧
      (docstringLines t f).1 = (docstringLines t f).2 := by
  have hnone : (f.child? "body").bind (docstring? t) = none := by
    rw [Option.eq_none_iff_forall_ne_some]
    intro d hd
    obtain ⟨body, hbody, hdoc⟩ := Option.bind_eq_some_iff.1 hd
    obtain ⟨statement, hstatement, -⟩ := docstring_lines hplaced hpython hbody hdoc
    rw [h] at hstatement
    cases hstatement
  refine ⟨hnone, ?_⟩
  unfold docstringLines
  rw [hnone]

/-- The text of a record without the lines of the docstring. -/
theorem text_eq_stretches (t : Text) (f : Tree) :
    (match (f.child? "body").bind (docstring? t) with
      | some d => (Source.ofText t).slice (f.start.row + 1) (d.firstLine - 1) ++
          (Source.ofText t).slice (d.lastLine + 1) (codeEndLine f)
      | none => (Source.ofText t).slice (f.start.row + 1) (codeEndLine f)) =
      (stretch t.linesWithEnds f.start.row (docstringLines t f).1 ++
        stretch t.linesWithEnds (docstringLines t f).2 (codeEndLine f)).flatten := by
  unfold docstringLines
  cases hdoc : (f.child? "body").bind (docstring? t) with
  | none =>
    have hnil : stretch t.linesWithEnds (codeEndLine f) (codeEndLine f) = [] := by
      rw [stretch, List.drop_eq_nil_iff]
      exact List.length_take_le _ _
    simp only [Source.slice_eq, hnil, List.append_nil]
    rfl
  | some d =>
    simp only [Source.slice_eq, List.flatten_append]
    rfl

/-- What the record of a function says about lines, by where its docstring starts and ends. -/
structure LineFields (t : Text) (f : Tree) (r : FunctionRecord) : Prop where
  startLine : r.startLine = f.start.row + 1
  endLine : r.endLine = codeEndLine f
  fullText : r.fullText =
    some (String.ofList (stretch t.linesWithEnds f.start.row (codeEndLine f)).flatten)
  fullLineCount : r.fullLineCount = codeEndLine f - (f.start.row + 1) + 1
  text : r.text = some (String.ofList
    (stretch t.linesWithEnds f.start.row (docstringLines t f).1 ++
      stretch t.linesWithEnds (docstringLines t f).2 (codeEndLine f)).flatten)
  lineCount : r.lineCount = Text.countLines
    (stretch t.linesWithEnds f.start.row (docstringLines t f).1 ++
      stretch t.linesWithEnds (docstringLines t f).2 (codeEndLine f)).flatten
  docstring : r.docstring.isSome = ((f.child? "body").bind (docstring? t)).isSome
  docstringLineCount : r.docstringLineCount = some
    ((((f.child? "body").bind (docstring? t)).map fun d => d.lastLine - d.firstLine + 1).getD 0)

theorem lineFields_of_record? {f : Tree} {r : FunctionRecord} {scope : Option ClassScope}
    {decorators : List Text} (hr : record? (.ofText t) scope decorators f = some r) :
    LineFields t f r := by
  obtain ⟨name, -, rfl⟩ := Option.map_eq_some_iff.1 hr
  have hfull := Source.slice_eq (.ofText t) f.start.row (codeEndLine f)
  have htext := text_eq_stretches t f
  refine ⟨rfl, rfl, ?_, rfl, ?_, ?_, Option.isSome_map, rfl⟩
  · exact congrArg (fun text => some (String.ofList text)) hfull
  · exact congrArg (fun text => some (String.ofList text)) htext
  · exact congrArg Text.countLines htext

/-- The record of a function accounts for its lines. -/
theorem exists_accounts {f : Tree} {r : FunctionRecord} (hplaced : f.Every (Tree.Placed t))
    (hpython : f.Every IsPython) (hkind : f.kind = "function_definition") (hr : LineFields t f r) :
    ∃ above head doc tail below, Accounts t f r above head doc tail below := by
  obtain ⟨ha, hab, hb, hdocCount⟩ := docstringLines_spec hplaced hpython hkind
  have hlt := (hpython.here.function hkind).1
  have hrow := hplaced.here.start.row_add_one
  have hcode := lineAt_le_codeEndLine hplaced hlt
  have hcount := Text.length_linesWithEnds t
  have hj : codeEndLine f ≤ t.countLines := by
    obtain ⟨place, -, hplace, hend⟩ := exists_codeEndLine_eq hplaced hlt
    rw [hend]
    exact Text.lineAt_le_countLines (hplace.trans_le hplaced.here.stop.offset_le)
  set lines := t.linesWithEnds with hlines
  set i := f.start.row
  set a := (docstringLines t f).1
  set b := (docstringLines t f).2
  set j := codeEndLine f
  have hfull : stretch lines i a ++ stretch lines a b ++ stretch lines b j = stretch lines i j := by
    rw [Text.stretch_append_stretch ha hab (by omega),
      Text.stretch_append_stretch (ha.trans hab) hb (by omega)]
  have hwhole : lines.take i ++ stretch lines i j ++ lines.drop j = lines :=
    Text.take_append_stretch_append_drop (by omega) (by omega)
  have hareLines : Text.AreLines lines := Text.areLines_linesWithEnds t
  have hfullCount := (hareLines.sublist (Text.stretch_sublist lines i j)).countLines_flatten
  have hcutCount : Text.countLines (stretch lines i a ++ stretch lines b j).flatten =
      (stretch lines i a ++ stretch lines b j).length := by
    apply Text.AreLines.countLines_flatten
    apply (hareLines.sublist (Text.stretch_sublist lines i j)).sublist
    rw [← hfull]
    exact (List.sublist_append_left _ _).append (List.Sublist.refl _)
  have habove : (lines.take i).length = i := by
    rw [List.length_take]
    omega
  have hhead : (stretch lines i a).length = a - i := Text.length_stretch (by omega)
  have hdoc : (stretch lines a b).length = b - a := Text.length_stretch (by omega)
  have htail : (stretch lines b j).length = j - b := Text.length_stretch (by omega)
  have hlength : (stretch lines i j).length = j - i := Text.length_stretch (by omega)
  have hstartLine := hr.startLine
  have hendLine := hr.endLine
  have hfullLineCount := hr.fullLineCount
  refine ⟨lines.take i, stretch lines i a, stretch lines a b, stretch lines b j, lines.drop j,
    { lines := by rw [hfull, hwhole]
      startLine := by rw [habove, hstartLine]
      endLine := by rw [hfull, habove, hlength]; omega
      starts := hstartLine
      start_le_end := by omega
      end_le := by omega
      fullText := by rw [hfull]; exact hr.fullText
      contiguous := ⟨(lines.take i).flatten, (lines.drop j).flatten, ?_⟩
      fullLineCount := by omega
      counted := by rw [hfull, hfullCount, hlength]; omega
      text := hr.text
      lineCount := hr.lineCount
      docstringLineCount := by rw [hr.docstringLineCount, hdocCount, hdoc]
      total := ?_
      documented := ?_
      undocumented := ?_ }⟩
  · rw [hfull, ← List.flatten_append, ← List.flatten_append, hwhole, hlines,
      Text.flatten_linesWithEnds]
  · rw [hr.lineCount, hcutCount, hfullLineCount, List.length_append, hhead, hdoc, htail]
    omega
  · intro statement hstatement
    obtain ⟨hsome, hfirst, hlast, hlt⟩ := docstringLines_of_statement hplaced hpython hstatement
    have hne : stretch lines a b ≠ [] := by
      rw [← List.length_pos_iff, hdoc]
      omega
    rw [hr.docstring, habove, hhead, hdoc]
    exact ⟨hsome, hne, by omega, by omega⟩
  · intro hnone
    obtain ⟨hundocumented, heq⟩ := docstringLines_of_none hplaced hpython hnone
    refine ⟨?_, ?_⟩
    · rw [← Option.not_isSome_iff_eq_none, hr.docstring, hundocumented]
      exact Bool.false_ne_true
    · rw [← List.length_eq_zero_iff, hdoc]
      omega

end Glossator.Python
