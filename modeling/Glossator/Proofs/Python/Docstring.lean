import Glossator.Proofs.Python.Enumeration
import Glossator.Proofs.Python.Shape
import Glossator.Proofs.Text.Cutting

/-!
# Functions without their docstrings

The text of a function is that of its lines without the lines of the docstring. What else stands on
those lines is lost with it: the end of a header, or a statement behind a semicolon.

* `Python.tokens`: the tokens of a function.
* `Python.keepsCode_iff`: when all code beside the docstring remains.
-/

set_option autoImplicit false

namespace Glossator.Python

open Grammar (Shows)
open Text (lineAt OccurInOrder)

variable {t : Text} {n f s : Tree}

/-! ### Tokens -/

/-- The tokens of a tree in order, each string as one; comments are no tokens. -/
def tokens (n : Tree) : List Tree :=
  if n.isComment || n.isEmpty then []
  else if n.children.isEmpty || n.kind == "string" then [n]
  else n.children.attach.flatMap fun ⟨c, h⟩ =>
    have := Tree.sizeOf_lt_of_mem_children h
    tokens c
termination_by sizeOf n

theorem tokens_eq (n : Tree) : tokens n =
    if n.isComment || n.isEmpty then []
    else if n.children.isEmpty || n.kind == "string" then [n]
    else n.children.flatMap tokens := by
  rw [tokens, List.flatMap_subtype (g := tokens) (fun _ _ => rfl), List.unattach_attach]

/-- The token takes up text of the code of the node. -/
structure IsTokenOf (t : Text) (n token : Tree) : Prop where
  placed : Tree.Placed t token
  lt : token.start.offset < token.stop.offset
  start : n.start.offset ≤ token.start.offset
  stop : token.stop.offset ≤ n.stop.offset
  code : lineAt t (token.stop.offset - 1) ≤ codeEndLine n

theorem isTokenOf_of_mem_tokens (hplaced : n.Every (Tree.Placed t))
    (hstrings : n.Every StringEnds) : ∀ token ∈ tokens n, IsTokenOf t n token := by
  induction hplaced with
  | @mk n here below ih =>
    intro token htoken
    rw [tokens_eq] at htoken
    split at htoken
    · cases htoken
    next hcode =>
    simp only [Bool.or_eq_true, not_or, Tree.isEmpty, decide_eq_true_eq, not_le] at hcode
    split at htoken
    case isTrue hleaf =>
      rw [List.mem_singleton.1 htoken]
      -- the parts of a string are not looked at: its last line is that of its closing quote
      have hends : EndsInCode n := by
        rcases Bool.or_eq_true_iff.1 hleaf with hnone | hstring
        · refine .token ?_ hcode.2
          rw [List.isEmpty_iff.1 hnone]
          rfl
        · exact hstrings.here (eq_of_beq hstring)
      exact ⟨here, hcode.2, le_rfl, le_rfl, (hends.codeEndLine_eq (.mk here below)).ge⟩
    case isFalse =>
      obtain ⟨c, hc, htoken⟩ := List.mem_flatMap.1 htoken
      obtain ⟨hplaced, hlt, hstart, hstop, hline⟩ := ih c hc (hstrings.child hc) token htoken
      obtain ⟨hcstart, hcstop⟩ := here.inside c hc
      have hcode : c ∈ codeChildren n.children := by
        refine mem_codeChildren.2 ⟨hc, ?_, by omega⟩
        intro hcomment
        rw [tokens_eq] at htoken
        simp [Tree.isComment, hcomment] at htoken
      exact ⟨hplaced, hlt, by omega, by omega,
        hline.trans (codeEndLine_le_of_mem (.mk here below) hcode)⟩

theorem pairwise_tokens (hplaced : n.Every (Tree.Placed t)) (hstrings : n.Every StringEnds) :
    (tokens n).Pairwise fun a b => a.stop.offset ≤ b.start.offset := by
  induction hplaced with
  | @mk n here below ih =>
    rw [tokens_eq]
    split
    · exact .nil
    split
    · exact List.pairwise_singleton _ _
    · rw [List.pairwise_flatMap]
      refine ⟨fun c hc => ih c hc (hstrings.child hc), here.ordered.imp_of_mem ?_⟩
      intro c d hc hd hle a ha b hb
      have hin := isTokenOf_of_mem_tokens (below c hc) (hstrings.child hc) a ha
      have hin' := isTokenOf_of_mem_tokens (below d hd) (hstrings.child hd) b hb
      exact hin.stop.trans (hle.trans hin'.start)

/-! ### What remains of a function -/

/-- What remains of the lines of a function when those of its docstring are cut out. -/
def withoutDocstring (t : Text) (f : Tree) : Remainder :=
  .aroundLines t f.start.row (docstringLines t f).1 (docstringLines t f).2 (codeEndLine f)

/-- The nodes do not overlap. -/
def Beside (a b : Tree) : Prop := a.stop.offset ≤ b.start.offset ∨ b.stop.offset ≤ a.start.offset

/-- What stands within nodes that are beside each other is so too. -/
theorem Beside.within {a b c d : Tree} (h : Beside c d) (hc : c.Every (Tree.Placed t))
    (hd : d.Every (Tree.Placed t)) (ha : Tree.IsNodeOf a c) (hb : Tree.IsNodeOf b d) :
    Beside a b := by
  have hinside := ha.inside hc
  have hinside' := hb.inside hd
  unfold Beside at *
  omega

/-- Two children of a node are the same or beside each other. -/
theorem eq_or_beside {c d : Tree} (hplaced : Tree.Placed t n) (hc : c ∈ n.children)
    (hd : d ∈ n.children) : c = d ∨ Beside c d := by
  obtain ⟨i, hi, rfl⟩ := List.mem_iff_getElem.1 hc
  obtain ⟨j, hj, rfl⟩ := List.mem_iff_getElem.1 hd
  have hordered := List.pairwise_iff_getElem.1 hplaced.ordered
  rcases lt_trichotomy i j with hlt | rfl | hlt
  · exact .inr (.inl (hordered i j hi hj hlt))
  · exact .inl rfl
  · exact .inr (.inr (hordered j i hj hi hlt))

/-- Two nodes of a tree stand beside each other, or one of them within the other. -/
theorem beside_or_within {a b : Tree} (hplaced : n.Every (Tree.Placed t)) (ha : Tree.IsNodeOf a n)
    (hb : Tree.IsNodeOf b n) : Beside a b ∨ Tree.IsNodeOf a b ∨ Tree.IsNodeOf b a := by
  induction ha with
  | root => exact .inr (.inr hb)
  | child hc ha ih =>
    cases hb with
    | root => exact .inr (.inl (.child hc ha))
    | child hd hb =>
      rcases eq_or_beside hplaced.here hc hd with rfl | hbeside
      · exact ih (hplaced.child hc) hb
      · exact .inl (hbeside.within (hplaced.child hc) (hplaced.child hd) ha hb)

/-- What remains of a function when the lines of the statement that is its docstring are cut out. Of
the code of the function, what is on other lines remains. -/
structure Remains (t : Text) (f s : Tree) (r : FunctionRecord) (rest : Remainder) : Prop where
  statement : docstringStatement? t f = some s
  apart : rest.head.stop ≤ rest.tail.start
  text : r.text = some (String.ofList (rest.text t))
  piece : ∀ piece : Span, f.start.offset ≤ piece.start → piece.start < piece.stop →
    piece.stop ≤ t.length → lineAt t (piece.stop - 1) ≤ codeEndLine f →
      (rest.keeps piece = true ↔
        lineAt t (piece.stop - 1) < (lineSpan s).1 ∨ (lineSpan s).2 < lineAt t piece.start)
  token : ∀ n ∈ tokens f, rest.keeps n.span = true ↔ ¬ShareLine n s
  inOrder : OccurInOrder (((tokens f).filter fun n => rest.keeps n.span).map (Tree.text · t))
    (rest.text t)

theorem lineSpan_eq_docstringLines (h : docstringStatement? t f = some s) :
    lineSpan s = ((docstringLines t f).1 + 1, (docstringLines t f).2) := by
  obtain ⟨body, hbody, hstatement⟩ := Option.bind_eq_some_iff.1 h
  obtain ⟨hsome, hfirst⟩ := Option.ite_none_right_eq_some.1 hstatement
  obtain ⟨d, hdoc⟩ := Option.isSome_iff_exists.1 hsome
  obtain ⟨first, hfirst', -, hspan⟩ := docstring?_eq_some hdoc
  obtain rfl : first = s := Option.some.inj (hfirst'.symm.trans hfirst)
  have hpos : 0 < d.firstLine := by
    have hline : first.start.row + 1 = d.firstLine := congrArg Prod.fst hspan
    omega
  unfold docstringLines
  simp only [hbody, Option.bind_some, hdoc, hspan, Nat.sub_add_cancel hpos]

/-- Two nodes that take up text share no line if one ends on an earlier line than the other
starts. -/
theorem not_shareLine_iff {a b : Tree} (ha : Tree.Placed t a)
    (halt : a.start.offset < a.stop.offset) (hb : (lineSpan b).1 ≤ (lineSpan b).2) :
    ¬ShareLine a b ↔ lineAt t (a.stop.offset - 1) < (lineSpan b).1 ∨
      (lineSpan b).2 < lineAt t a.start.offset := by
  have hmono : lineAt t a.start.offset ≤ lineAt t (a.stop.offset - 1) :=
    Text.lineAt_mono (by omega)
  rw [ShareLine, lineSpan_eq ha.start ha.stop halt]
  constructor
  · intro hnot
    by_contra hor
    refine hnot ⟨max (lineAt t a.start.offset) (lineSpan b).1, ?_⟩
    simp only
    omega
  · rintro hor ⟨line, hline⟩
    simp only at hline
    omega

/-- What a record keeps of a function that has a docstring. -/
theorem remains_withoutDocstring {r : FunctionRecord} (hplaced : f.Every (Tree.Placed t))
    (hpython : f.Every IsPython) (hstrings : f.Every StringEnds)
    (hkind : f.kind = "function_definition") (hr : LineFields t f r)
    (hs : docstringStatement? t f = some s) : Remains t f s r (withoutDocstring t f) := by
  obtain ⟨hfirst, hle, hlast, -⟩ := docstringLines_spec hplaced hpython hkind
  obtain ⟨-, -, -, hlt⟩ := docstringLines_of_statement hplaced hpython hs
  have hspan := lineSpan_eq_docstringLines hs
  have hpiece (piece : Span) (hstart : f.start.offset ≤ piece.start)
      (hlt : piece.start < piece.stop) (hlength : piece.stop ≤ t.length)
      (hcode : lineAt t (piece.stop - 1) ≤ codeEndLine f) :
      (withoutDocstring t f).keeps piece = true ↔
        lineAt t (piece.stop - 1) < (lineSpan s).1 ∨ (lineSpan s).2 < lineAt t piece.start := by
    -- the row of the header counts from zero, the lines from one
    have hrow : f.start.row < lineAt t piece.start := by
      have hmono := Text.lineAt_mono (t := t) hstart
      rw [← hplaced.here.start.row_add_one] at hmono
      omega
    rw [withoutDocstring, Remainder.keeps_aroundLines_iff hlt hlength hrow hcode, hspan,
      Nat.lt_succ_iff]
  have htokens := isTokenOf_of_mem_tokens hplaced hstrings
  refine ⟨hs, Text.lineStart_mono hle, ?_, hpiece, ?_, ?_⟩
  · rw [withoutDocstring, Remainder.text_aroundLines hfirst hlast]
    exact hr.text
  · intro n hn
    obtain ⟨hn, hnlt, hstart, -, hcode⟩ := htokens n hn
    rw [not_shareLine_iff hn hnlt (by rw [hspan]; exact hlt)]
    exact hpiece n.span hstart hnlt hn.stop.offset_le hcode
  · have hpieces : ((tokens f).filter fun n => (withoutDocstring t f).keeps n.span).map
        (Tree.text · t) = (((tokens f).filter fun n => (withoutDocstring t f).keeps n.span).map
          Tree.span).map (Span.slice · t) := by
      rw [List.map_map]
      rfl
    rw [hpieces]
    apply Remainder.occurInOrder
    · exact Text.lineStart_mono hle
    · intro piece hpiece
      obtain ⟨n, hn, rfl⟩ := List.mem_map.1 hpiece
      exact (htokens n (List.mem_of_mem_filter hn)).lt
    · rw [List.pairwise_map]
      exact (pairwise_tokens hplaced hstrings).filter _
    · intro piece hpiece
      obtain ⟨n, hn, rfl⟩ := List.mem_map.1 hpiece
      exact (List.mem_filter.1 hn).2

/-! ### Files -/

/-- The functions of a text; none if it does not parse. -/
def functionsOfText (t : Text) : List Tree.Occurrence := ((parse? t).map functions).getD []

theorem every_of_mem_occurrences {P : Tree → Prop} {above : List Tree} (h : n.Every P)
    {o : Tree.Occurrence} (ho : o ∈ n.occurrences above) : o.node.Every P := by
  induction h generalizing above with
  | @mk n here below ih =>
    rw [Tree.occurrences_eq, List.mem_cons, List.mem_flatMap] at ho
    rcases ho with rfl | ⟨c, hc, ho⟩
    · exact .mk here below
    · exact ih c hc ho

/-- A function of a text, with what is known of its tree and of its record. -/
structure Recorded (t : Text) (o : Tree.Occurrence) (r : FunctionRecord) : Prop where
  kind : o.node.kind = "function_definition"
  placed : o.node.Every (Tree.Placed t)
  python : o.node.Every IsPython
  strings : o.node.Every StringEnds
  describes : Describes t o r
  shows : o.node.Every (Shows grammar (lexicon t))
  made : ∃ scope decorators, record? (.ofText t) scope decorators o.node = some r

/-- Each function of a text has its record, in order. -/
theorem forall₂_extract (t : Text) :
    List.Forall₂ (Recorded t) (functionsOfText t) (extract t) := by
  unfold functionsOfText extract
  cases hparse : parse? t with
  | none => exact .nil
  | some tree =>
    obtain ⟨hkind, hplaced, hpython, hstrings, hshows⟩ := isFile_of_parse? hparse
    have hrecords := forall₂_functionsOfBody_of_record (t := t)
      (R := fun o r => Describes t o r ∧
        ∃ scope decorators, record? (.ofText t) scope decorators o.node = some r)
      (fun _ _ _ _ hscope hr => ⟨describes_of_record? hscope hr, _, _, hr⟩) hpython hkind
    have hmem : ∀ o ∈ functions tree, o.node.kind = "function_definition" ∧
        ∃ c ∈ tree.children, o ∈ c.occurrences [tree] := by
      intro o ho
      rw [functions_eq] at ho
      obtain ⟨c, hc, ho⟩ := List.mem_flatMap.1 ho
      obtain ⟨ho, hboth⟩ := List.mem_filter.1 ho
      exact ⟨eq_of_beq (Bool.and_eq_true_iff.1 hboth).1, c, hc, ho⟩
    refine ((List.forall₂_and_left _ _).2 ⟨hmem, hrecords⟩).imp ?_
    rintro o r ⟨⟨hfunction, c, hc, ho⟩, hdescribes, hmade⟩
    exact ⟨hfunction, every_of_mem_occurrences (hplaced.child hc) ho,
      every_of_mem_occurrences (hpython.child hc) ho,
      every_of_mem_occurrences (hstrings.child hc) ho, hdescribes,
      every_of_mem_occurrences (hshows c hc) ho, hmade⟩

/-- Every token of a function beside its docstring remains in the text of its record, in order, if
and only if none of them shares a line with the docstring. -/
theorem keepsCode_iff (t : Text) :
    List.Forall₂ (fun o r => r.docstring.isSome = true → ∃ s rest, Remains t o.node s r rest ∧
      ((∀ n ∈ tokens o.node, Beside n s → rest.keeps n.span = true) ↔
        ∀ n ∈ tokens o.node, Beside n s → ¬ShareLine n s))
      (functionsOfText t) (extract t) := by
  refine (forall₂_extract t).imp ?_
  rintro o r ⟨hkind, hplaced, hpython, hstrings, hdescribes⟩ hdocstring
  have hlines := hdescribes.lines
  cases hs : docstringStatement? t o.node with
  | none =>
    rw [hlines.docstring, (docstringLines_of_none hplaced hpython hs).1] at hdocstring
    cases hdocstring
  | some s =>
    have hremains := remains_withoutDocstring hplaced hpython hstrings hkind hlines hs
    refine ⟨s, withoutDocstring t o.node, hremains, ?_⟩
    exact forall₂_congr fun n hn => imp_congr_right fun _ => hremains.token n hn

end Glossator.Python
