import Glossator.Proofs.Java.RecordText
import Glossator.Proofs.Java.TypeLineEnds

/-!
# Methods in texts with returns

The search for methods goes from header to header, and each header, with the block behind it, is
the same with the returns. So the same methods are found, at the places where theirs are, and their
records differ only in what is copied from the text.

* `Java.Extent.crlf`, `Java.Finding.crlf`: where methods are.
* `Java.methods_crlf`, `Java.findings_crlf`: the methods are the same.
* `Java.extract_crlf`: so are the records, but for the returns in their texts.
-/

set_option autoImplicit false

namespace Glossator

/-- The record with the returns in what is copied from the text. -/
def FunctionRecord.crlf (r : FunctionRecord) : FunctionRecord :=
  { r with
    fullText := r.fullText.map fun s => String.ofList (Text.crlf s.toList)
    text := r.text.map fun s => String.ofList (Text.crlf s.toList)
    decorators := r.decorators.map fun s => String.ofList (Text.crlf s.toList) }

namespace Java

open Text

variable {t u : Text} {s : Stretch} {m : Match HeaderPart} {title : Span} {scope : Option Scope}
  {types : List Span}

/-! ### Headers -/

/-- What a header reads as the type that is returned is on one line. -/
theorem crlf_returnType {offset : Nat} {type : Text}
    (hm : (Finder.ofPattern methodHeader u).find? offset = some m)
    (htype : m.text? u .returnType = some type) : crlf type = type := by
  have hnot : ¬ methodHeader.mayReadAs .returnType '\n' := by
    have hnewline : isTypeChar '\n' = false := by decide
    simp [methodHeader, methodComments, methodAnnotations, methodDeclaration, modifierWords, named,
      annotationMark, docComment, lineComment, indentation, nested, Pattern.maybe,
      Pattern.maybeLazy, Pattern.plus, Pattern.word, Pattern.someBlanks, Pattern.someOf,
      Pattern.blanks, Pattern.text, Pattern.anyText, methodModifiers, Pattern.mayReadAs,
      Pattern.mayRead, hnewline]
  exact crlf_eq_self fun hmem => hnot (Pattern.mayReadAs_of_find? hm htype _ hmem)

theorem MethodHeader.crlf_name (hm : MethodHeader u m title) :
    crlf (m.text u .name) = m.text u .name := by
  have hnewline : isWord '\n' = false := by decide
  rw [Match.text, Match.text?, hm.name_span]
  exact crlf_eq_self fun hmem =>
    Bool.false_ne_true (hnewline.symm.trans (hm.title_text _ hmem))

/-- Before the end of a header stands the same character. -/
theorem MethodHeader.crlfOffset_stop (hm : MethodHeader u m title) :
    u.crlfOffset (m.stop - 1) = (m.crlf u).stop - 1 := by
  obtain ⟨c, hget, hc⟩ := hm.terminator_char
  have hnewline : c ≠ '\n' := by rcases hc with rfl | rfl <;> decide
  have hstop := crlfOffset_succ hget hnewline
  rw [Nat.sub_add_cancel (Nat.zero_lt_of_lt hm.title_le)] at hstop
  exact (Nat.sub_eq_of_eq_add hstop).symm

/-- Whether a header declares something is the same. -/
theorem isDeclaration_crlf (hname : crlf (m.text u .name) = m.text u .name)
    (htype : ∀ type, m.text? u .returnType = some type → crlf type = type) :
    isDeclaration scope (crlf u) (m.crlf u) = isDeclaration scope u m := by
  simp only [isDeclaration, Match.text_crlf, Match.text?_crlf, words_crlf, hname]
  cases hreturn : m.text? u .returnType with
  | none => rfl
  | some type => rw [Option.map_some, htype type hreturn]

/-- The same headers are those of methods of the scope itself. -/
theorem isOwnMethod_crlf (ht : Portable t) (hs : s.IsPartOf t)
    (htypes : ∀ span ∈ types, span.start ≤ s.text.length ∧ span.stop ≤ s.text.length)
    {offset : Nat} (hfind : (Finder.ofPattern methodHeader s.text).find? offset = some m)
    (hm : MethodHeader s.text m title) :
    isOwnMethod (.ofText (crlf t)) scope (s.crlf t) (types.map (Span.crlf s.text))
      (m.crlf s.text) = isOwnMethod (.ofText t) scope s types m := by
  obtain ⟨c, hget, hc⟩ :=
    exists_of_isWord hm.title_lt (hm.title_le.le.trans hm.stop_le) hm.title_text
  have hcomment := isComment_crlf ht hs hget hc
  have houtside : (types.map (Span.crlf s.text)).any (·.contains (m.crlf s.text).start) =
      types.any (·.contains m.start) := by
    rw [List.any_map, Bool.eq_iff_iff, List.any_eq_true, List.any_eq_true]
    refine exists_congr fun span => and_congr_right fun hspan => ?_
    obtain ⟨hstart, hstop⟩ := htypes span hspan
    rw [Function.comp_apply, Match.crlf, Span.contains_crlf hstart hstop]
  have hdeclares : isDeclaration scope (s.crlf t).text (m.crlf s.text) =
      isDeclaration scope s.text m :=
    isDeclaration_crlf hm.crlf_name fun _ => crlf_returnType hfind
  rw [isOwnMethod, isOwnMethod, houtside, hdeclares, Match.span?_crlf, hm.name_span]
  simp only [Option.map_some, Option.any_some, Span.crlf, hcomment]

/-! ### Extents -/

/-- Where a method is in the text with the returns. -/
def Extent.crlf (u : Text) (e : Extent) : Extent :=
  ⟨u.crlfOffset e.lineStart, u.crlfOffset e.start, e.body.map (Block.crlf u), u.crlfOffset e.stop⟩

/-- The blanks that a match starts with. -/
theorem lead_isPrefix (m : Match HeaderPart) (u : Text) :
    (m.span.slice u).takeWhile isBlank <+: u.drop m.start :=
  (List.takeWhile_prefix _).trans (List.take_prefix _ _)

/-- A method with the same header takes up the same. -/
theorem extent?_crlf (hm : MethodHeader u m title) :
    extent? (crlf u) (m.crlf u) = (extent? u m).map (Extent.crlf u) := by
  have hlead : ((m.crlf u).span.slice (crlf u)).takeWhile isBlank =
      crlf ((m.span.slice u).takeWhile isBlank) := by
    rw [← takeWhile_crlf (by decide)]
    exact congrArg _ (m.span.slice_crlf u)
  have hstart := crlfOffset_add_length (lead_isPrefix m u)
  have hprefix := lead_isPrefix m u
  have hblock : block? (crlf u) ((m.crlf u).stop - 1) =
      (block? u (m.stop - 1)).map (Block.crlf u) := by
    rw [← hm.crlfOffset_stop, block?_crlf]
  have hterminator :
      (m.crlf u).text (crlf u) .terminator = [';'] ↔ m.text u .terminator = [';'] := by
    obtain ⟨c, hget, hc⟩ := hm.terminator_char
    have hpart : m.text u .terminator = [c] := by
      rw [hm.terminator, List.take_one, List.head?_drop, hget]
      rfl
    rw [Match.text_crlf, hpart, crlf_eq_self]
    rcases hc with rfl | rfl <;> decide
  simp only [extent?, hlead, takeWhile_reverse_crlf, hblock, hterminator]
  generalize (m.span.slice u).takeWhile isBlank = lead at hstart hprefix ⊢
  -- the line starts where the blanks do that stand behind the last newline
  obtain ⟨above, since, hlines, hnewline, hsince⟩ : ∃ above since, lead = above ++ since ∧
      '\n' ∉ since ∧ (lead.reverse.takeWhile (· ≠ '\n')).length = since.length := by
    refine ⟨(lead.reverse.dropWhile (· ≠ '\n')).reverse,
      (lead.reverse.takeWhile (· ≠ '\n')).reverse, ?_, ?_, (List.length_reverse).symm⟩
    · rw [← List.reverse_append, List.takeWhile_append_dropWhile, List.reverse_reverse]
    · intro hmem
      simpa using List.mem_takeWhile_imp (List.mem_reverse.1 hmem)
  have hline := crlfOffset_sub_length (hlines ▸ hprefix) hnewline
  rw [← hlines, hstart] at hline
  have hplace : m.start + lead.length - since.length = m.start + above.length := by
    rw [hlines, List.length_append]
    omega
  simp only [hsince, hplace]
  split
  · rw [Option.map_some, Extent.crlf, hline, hstart]
    rfl
  · rw [Option.map_map, Option.map_map]
    refine congrArg (Option.map · (block? u (m.stop - 1))) (funext fun b => ?_)
    rw [Function.comp_apply, Function.comp_apply, Extent.crlf, hline, hstart]
    rfl

/-! ### Methods of a stretch -/

/-- Where a method is in the text with the returns. -/
def Method.crlf (u : Text) (m : Method) : Method := ⟨m.header.crlf u, m.extent.crlf u⟩

/-- The methods found from a place on are the same. -/
theorem methodsAfter_crlf (ht : Portable t) (hs : s.IsPartOf t)
    (htypes : ∀ span ∈ types, span.start ≤ s.text.length ∧ span.stop ≤ s.text.length)
    {offset : Nat} (hoffset : offset ≤ s.text.length) :
    methodsAfter (.ofText (crlf t)) scope (s.crlf t) (types.map (Span.crlf s.text))
        (s.text.crlfOffset offset) =
      (methodsAfter (.ofText t) scope s types offset).map (Method.crlf s.text) := by
  have hportable := ht.of_infix hs.isInfix
  have hcarries := carries_methodHeader hportable.noReturn hportable.throws
  have hearlier := (staysOut_methodHeader hportable.noReturn).matchesEarlier
  induction hn : s.text.length - offset using Nat.strong_induction_on generalizing offset with
  | _ n ih =>
    have hfind' : (Finder.ofPattern methodHeader (s.crlf t).text).find? (s.text.crlfOffset offset) =
        ((Finder.ofPattern methodHeader s.text).find? offset).map (Match.crlf s.text) :=
      Finder.find?_crlf hcarries hearlier hoffset
    cases hfind : (Finder.ofPattern methodHeader s.text).find? offset with
    | none =>
      rw [hfind, Option.map_none] at hfind'
      rw [methodsAfter_eq_nil (Finder.find?_eq_none_iff.1 hfind),
        methodsAfter_eq_nil (Finder.find?_eq_none_iff.1 hfind'), List.map_nil]
    | some m =>
      obtain ⟨title, hshape⟩ := MethodHeader.of_find? hfind
      have hown : isOwnMethod (.ofText (crlf t)) scope (s.crlf t) (types.map (Span.crlf s.text))
          (m.crlf s.text) = isOwnMethod (.ofText t) scope s types m :=
        isOwnMethod_crlf ht hs htypes hfind hshape
      have hle := Finder.start_le_of_find? hfind
      have hlt := hshape.start_lt_stop
      have hstop := hshape.stop_le
      rw [hfind, Option.map_some] at hfind'
      cases hcase : isOwnMethod (.ofText t) scope s types m with
      | false =>
        rw [methodsAfter_of_not_own hfind hcase, methodsAfter_of_not_own hfind' (hown.trans hcase)]
        exact ih _ (by omega) hstop rfl
      | true =>
        obtain ⟨e, he⟩ := hshape.exists_extent?
        have hplace := ExtentOf.of_extent? hshape he
        have hheader := hplace.header_le
        have he' : extent? (s.crlf t).text (m.crlf s.text) = some (e.crlf s.text) := by
          rw [Stretch.crlf, extent?_crlf hshape, he, Option.map_some]
        rw [methodsAfter_of_own hfind hcase he,
          methodsAfter_of_own hfind' (hown.trans hcase) he', List.map_cons]
        exact congrArg _ (ih _ (by omega) hplace.stop_le rfl)

/-- The methods of a stretch are the same. -/
theorem methods_crlf (ht : Portable t) (hs : s.IsPartOf t) :
    methods (.ofText (crlf t)) scope (s.crlf t) =
      (methods (.ofText t) scope s).map (Method.crlf s.text) := by
  have htypes : (typeDeclarations (.ofText (crlf t)) (s.crlf t)).map TypeDeclaration.extent =
      ((typeDeclarations (.ofText t) s).map TypeDeclaration.extent).map (Span.crlf s.text) := by
    rw [typeDeclarations_crlf ht hs, List.map_map, List.map_map]
    rfl
  rw [methods_eq_methodsAfter, methods_eq_methodsAfter, htypes, ← crlfOffset_zero s.text]
  refine methodsAfter_crlf ht hs ?_ (Nat.zero_le _)
  simp only [List.forall_mem_map]
  exact fun d hd => extent_le hd

/-! ### Records -/

/-- The annotations of a header, with the returns. -/
theorem decorators_crlf (hu : '\r' ∉ u) :
    decorators (crlf u) (m.crlf u) = (decorators u m).map crlf := by
  have hreturn : '\r' ∉ m.text u .annotations := by
    intro hmem
    rw [Match.text, Match.text?] at hmem
    cases hspan : m.span? .annotations with
    | none => simp [hspan] at hmem
    | some span =>
      rw [hspan] at hmem
      exact hu (List.mem_of_mem_drop (List.mem_of_mem_take hmem))
  have hlines : ((m.text u .annotations).lines.map trim).map crlf =
      (m.text u .annotations).lines.map trim := by
    refine (List.map_congr_left fun line hline => ?_).trans (List.map_id _)
    obtain ⟨bare, hbare, rfl⟩ := List.mem_map.1 hline
    exact crlf_eq_self fun hmem => newline_notMem_of_mem_lines hreturn hbare (mem_of_mem_trim hmem)
  have hempty : (fun d : Text => !(crlf d).isEmpty) = fun d => !d.isEmpty := by
    funext d
    cases d with
    | nil => rfl
    | cons c d => by_cases hc : c = '\n' <;> simp [hc, crlf_cons]
  simp only [decorators, Match.text_crlf, lines_crlf hreturn, trim_crlf]
  rw [← hlines, ← List.map_singleton (f := crlf), ← List.map_append, List.filter_map]
  simp only [Function.comp_def, hempty, hlines]

/-- The body, or the semicolon in its place, starts where it does in the text. -/
theorem ExtentOf.crlf_bodyStart {e : Extent} (he : ExtentOf u m e) (hm : MethodHeader u m title) :
    (e.crlf u).bodyStart = u.crlfOffset e.bodyStart := by
  cases hbody : e.body with
  | none =>
    have hend := (he.bodyless hbody).1
    simp only [Extent.bodyStart, Extent.crlf, hbody, Option.map_none, Option.getD_none, hend]
    exact hm.crlfOffset_stop.symm
  | some b =>
    simp only [Extent.bodyStart, Extent.crlf, hbody, Option.map_some, Option.getD_some, Block.crlf]

/-- A place of a stretch is on the same line of the file. -/
theorem lineOf_crlf (hs : s.IsPartOf t) {i : Nat} (hi : i ≤ s.text.length) :
    (Source.ofText (crlf t)).lineOf ((s.crlf t).start + s.text.crlfOffset i) =
      (Source.ofText t).lineOf (s.start + i) := by
  rw [← hs.crlfOffset_add hi]
  exact lineAt_crlf t _

/-- The character before a place of a stretch is on the same line of the file. -/
theorem lineOf_crlf_sub_one (hs : s.IsPartOf t) (hstart : s.start ≤ t.length) {i : Nat}
    (hpos : 0 < i) (hi : i ≤ s.text.length) :
    (Source.ofText (crlf t)).lineOf ((s.crlf t).start + s.text.crlfOffset i - 1) =
      (Source.ofText t).lineOf (s.start + i - 1) := by
  rw [← hs.crlfOffset_add hi]
  exact lineAt_crlf_sub_one (by omega) (hs.add_le hi hstart)

/-- The record of a method is the same but for the returns. -/
theorem record_crlf (ht : Portable t) (hs : s.IsPartOf t) (hstart : s.start ≤ t.length)
    {method : Method} (hm : Found (.ofText t) scope s types method title) :
    (method.crlf s.text).record (.ofText (crlf t)) scope (s.crlf t) =
      (method.record (.ofText t) scope s).crlf := by
  obtain ⟨header, e⟩ := method
  obtain ⟨offset, hfind⟩ := hm.find
  have hshape := hm.shape
  have hextent := hm.extent
  have hplace := hm.place
  simp only at hfind hshape hextent hplace
  have hreturn := (ht.of_infix hs.isInfix).noReturn
  have hlead := (lead_of_extent? hshape hextent).1
  have hheader := hplace.header_le
  have hstop := hplace.stop_le
  have htype : (header.text? s.text .returnType).map crlf = header.text? s.text .returnType := by
    cases htype : header.text? s.text .returnType with
    | none => rfl
    | some type => rw [Option.map_some, crlf_returnType hfind htype]
  have hcomment := cleanComment?_part_crlf hreturn header .comments
  rw [Match.text?_crlf] at hcomment
  have hfull : Span.slice ⟨s.text.crlfOffset e.lineStart, s.text.crlfOffset e.stop⟩ (crlf s.text) =
      crlf (Span.slice ⟨e.lineStart, e.stop⟩ s.text) := Span.slice_crlf s.text ⟨_, _⟩
  have hbody : Span.slice ⟨s.text.crlfOffset e.bodyStart, s.text.crlfOffset e.stop⟩ (crlf s.text) =
      crlf (Span.slice ⟨e.bodyStart, e.stop⟩ s.text) := Span.slice_crlf s.text ⟨_, _⟩
  have hhas : (e.crlf s.text).hasBody = e.hasBody := Option.isSome_map
  have hends : (e.crlf s.text).lineStart = s.text.crlfOffset e.lineStart ∧
      (e.crlf s.text).start = s.text.crlfOffset e.start ∧
        (e.crlf s.text).stop = s.text.crlfOffset e.stop := ⟨rfl, rfl, rfl⟩
  have htext : (s.crlf t).text = crlf s.text := rfl
  simp only [Method.record, FunctionRecord.crlf, Method.crlf, htext, hends,
    hplace.crlf_bodyStart hshape, hfull, hbody, hhas,
    lineOf_crlf hs (by omega : e.start ≤ s.text.length),
    lineOf_crlf_sub_one hs hstart (by omega) hstop, Match.text_crlf, hshape.crlf_name, htype,
    Match.text?_crlf, hcomment, words_crlf, splitParameters_crlf, countLines_crlf, package_crlf,
    decorators_crlf hreturn, Option.map_some, String.toList_ofList, List.map_map,
    Function.comp_def]

/-! ### The methods of a file -/

/-- A stretch that the search comes to is a part of the file. -/
theorem Reached.isPartOf {src : Source} {chain : List TypeDeclaration} (h : Reached src chain s) :
    s.IsPartOf src.text := by
  induction h with
  | whole => exact Stretch.isPartOf_whole src.text
  | @body chain s d _ _ ih => exact ih.within d.block.inner

/-- Where a found method is in the text with the returns. -/
def Finding.crlf (t : Text) (f : Finding) : Finding :=
  ⟨f.scope, f.stretch.crlf t, f.method.crlf f.stretch.text⟩

theorem ofStretch_crlf (ht : Portable t) (hs : s.IsPartOf t) :
    Finding.ofStretch (.ofText (crlf t)) scope (s.crlf t) =
      (Finding.ofStretch (.ofText t) scope s).map (Finding.crlf t) := by
  rw [Finding.ofStretch, Finding.ofStretch, methods_crlf ht hs, List.map_map, List.map_map]
  rfl

/-- The methods of a file are the same. -/
theorem findings_crlf (ht : Portable t) :
    findings (.ofText (crlf t)) = (findings (.ofText t)).map (Finding.crlf t) := by
  have hwhole := Stretch.isPartOf_whole t
  have hheaders : (typeHeaders (.ofText (crlf t)) (.whole (crlf t))).isEmpty =
      (typeHeaders (.ofText t) (.whole t)).isEmpty := by
    rw [← Stretch.crlf_whole, typeHeaders_crlf ht hwhole, List.isEmpty_map]
  have htext (u : Text) : (Source.ofText u).text = u := rfl
  simp only [findings, htext, hheaders]
  split
  · exact ofStretch_crlf ht hwhole
  · rw [← Stretch.crlf_whole, openTypes_crlf ht hwhole, List.flatMap_map, List.map_flatMap]
    refine List.flatMap_congr fun o ho => ?_
    obtain ⟨chain, hs, hd, -⟩ := mem_openTypes_iff.1 ho
    have hbody : (o.crlf t).body = o.body.crlf t :=
      body_crlf hs.isPartOf (mem_of_mem_directTypes hd)
    rw [hbody]
    exact ofStretch_crlf ht (hs.isPartOf.within o.declaration.block.inner)

/-- The records of a file are the same but for the returns. -/
theorem extract_crlf (ht : Portable t) :
    extract (crlf t) = (extract t).map FunctionRecord.crlf := by
  rw [extract, extract, findings_crlf ht, List.map_map, List.map_map]
  refine List.map_congr_left fun f hf => ?_
  obtain ⟨chain, hs, -, hm⟩ := exists_reached_of_mem_findings hf
  obtain ⟨title, hfound⟩ := exists_found_of_mem_methods hm
  have hstop := hs.stop_le
  exact record_crlf ht hs.isPartOf ((Nat.le_add_right _ _).trans hstop) hfound

end Java

end Glossator
