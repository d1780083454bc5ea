import Glossator.Proofs.Java.HeaderLineEnds
import Glossator.Proofs.Java.ReaderLineEnds
import Glossator.Proofs.Java.Forest

/-!
# Types in texts with returns

Stretches, headers and blocks move with the places of the text, and whether a header counts is the
same with the returns. So the types that are opened are the same, at the places where theirs are.

* `Java.Portable`: what a text must not have for this.
* `Java.Stretch.crlf`, `Java.TypeDeclaration.crlf`: where stretches and types are.
* `Java.typeDeclarations_crlf`, `Java.openTypes_crlf`: the types are the same.
-/

set_option autoImplicit false

namespace Glossator.Java

open Text

/-- A text without returns in which nothing tells a newline from a return and a newline: none is
protected by a backslash, and none stands in for the names behind `throws`. -/
structure Portable (t : Text) : Prop where
  noReturn : '\r' ∉ t
  noSplice : NoSplice t
  throws : ¬ ThrowsNothing t

theorem Portable.of_infix {t u : Text} (h : Portable t) (hu : u <:+: t) : Portable u where
  noReturn hmem := h.noReturn (hu.mem hmem)
  noSplice hsplice := h.noSplice (hsplice.trans hu)
  throws := fun ⟨c, hc, hthrows⟩ => h.throws ⟨c, hc, hthrows.trans hu⟩

/-! ### Stretches -/

namespace Stretch

/-- Where a stretch is in the text with the returns. -/
def crlf (t : Text) (s : Stretch) : Stretch := ⟨t.crlfOffset s.start, Text.crlf s.text⟩

/-- The stretch is a part of a text. -/
def IsPartOf (s : Stretch) (t : Text) : Prop := s.text <+: t.drop s.start

variable {t : Text} {s : Stretch} {i : Nat} {c : Char}

theorem isPartOf_whole (t : Text) : (whole t).IsPartOf t := List.prefix_refl t

theorem crlf_whole (t : Text) : (whole t).crlf t = whole (Text.crlf t) := rfl

namespace IsPartOf

variable (hs : s.IsPartOf t)

include hs

theorem isInfix : s.text <:+: t :=
  (List.IsPrefix.isInfix hs).trans (List.drop_suffix _ _).isInfix

theorem within (span : Span) : (s.within span).IsPartOf t := by
  rw [IsPartOf, Stretch.within, ← List.drop_drop]
  exact (List.take_prefix _ _).trans (List.IsPrefix.drop hs _)

theorem add_le (hi : i ≤ s.text.length) (hstart : s.start ≤ t.length) :
    s.start + i ≤ t.length := by
  have := List.IsPrefix.length_le hs
  rw [List.length_drop] at this
  omega

theorem getElem?_add (hc : s.text[i]? = some c) : t[s.start + i]? = some c := by
  obtain ⟨rest, hrest⟩ := hs
  rw [← List.getElem?_drop, ← hrest,
    List.getElem?_append_left (List.getElem?_eq_some_iff.1 hc).1, hc]

/-- A place of a stretch, counted from the start of the text. -/
theorem crlfOffset_add (hi : i ≤ s.text.length) :
    t.crlfOffset (s.start + i) = (s.crlf t).start + s.text.crlfOffset i := by
  obtain ⟨rest, hrest⟩ := hs
  rw [Text.crlfOffset_add, ← hrest, crlfOffset_eq (s.text ++ rest),
    List.take_append_of_le_length hi]
  rfl

theorem crlf_within {span : Span} (hspan : span.start ≤ s.text.length) :
    (s.crlf t).within (span.crlf s.text) = (s.within span).crlf t := by
  have hstart := hs.crlfOffset_add hspan
  have htext := span.slice_crlf s.text
  simp only [Stretch.within, crlf, Span.crlf] at hstart htext ⊢
  rw [hstart, htext]

end IsPartOf

end Stretch

variable {t : Text} {s : Stretch} {m : Match HeaderPart} {d : TypeDeclaration}

/-! ### Sources -/

/-- The same characters of a stretch are in comments. -/
theorem isComment_crlf (ht : Portable t) (hs : s.IsPartOf t) {i : Nat} {c : Char}
    (hi : s.text[i]? = some c) (hc : c ≠ '\n') :
    (Source.ofText (crlf t)).isComment ((s.crlf t).start + s.text.crlfOffset i) =
      (Source.ofText t).isComment (s.start + i) := by
  rw [← hs.crlfOffset_add (List.getElem?_eq_some_iff.1 hi).1.le]
  exact inComment_crlf ht.noSplice (hs.getElem?_add hi) hc

/-- What a header reads as the name of a package is on one line. -/
theorem crlf_packageName {offset : Nat} {name : Text}
    (hm : (Finder.ofPattern packageHeader t).find? offset = some m)
    (hname : m.text? t .name = some name) : crlf name = name := by
  have hnot : ¬ packageHeader.mayReadAs .name '\n' := by
    have hnewline : isWord '\n' = false := by decide
    simp [packageHeader, named, Pattern.someBlanks, Pattern.someOf, Pattern.blanks, Pattern.text,
      Pattern.mayReadAs, Pattern.mayRead, hnewline]
  exact crlf_eq_self fun hmem => hnot (Pattern.mayReadAs_of_find? hm hname _ hmem)

theorem package_crlf (t : Text) : (Source.ofText (crlf t)).package = (Source.ofText t).package := by
  have hfind := Finder.find?_crlf keeps_packageHeader.carries staysOut_packageHeader.matchesEarlier
    (Nat.zero_le t.length)
  rw [crlfOffset_zero] at hfind
  rw [Source.ofText, Source.ofText, Pattern.find?, hfind, Option.map_map]
  change _ = ((Finder.ofPattern packageHeader t).find? 0).map _
  cases hm : (Finder.ofPattern packageHeader t).find? 0 with
  | none => rfl
  | some m =>
    simp only [Option.map_some, Function.comp_apply, Match.text_crlf, Option.some.injEq]
    rw [Match.text]
    cases hname : m.text? t .name with
    | none => rfl
    | some name => exact crlf_packageName hm hname

/-! ### Headers of types -/

theorem afterTypeParameters?_crlf (depth : Nat) (u : Text) :
    afterTypeParameters? depth (crlf u) = (afterTypeParameters? depth u).map crlf := by
  fun_induction afterTypeParameters? depth u with
  | case1 => rfl
  | case2 depth rest ih => rw [crlf_cons (by decide), afterTypeParameters?, if_pos rfl, ih]
  | case3 depth rest hdepth hopen =>
    rw [crlf_cons (by decide), afterTypeParameters?, if_neg hopen, if_pos rfl, if_pos hdepth]
    rfl
  | case4 depth rest hdepth hopen ih =>
    rw [crlf_cons (by decide), afterTypeParameters?, if_neg hopen, if_pos rfl, if_neg hdepth, ih]
  | case5 depth c rest hopen hclose ih =>
    by_cases hc : c = '\n'
    · subst hc
      rw [crlf_newline, afterTypeParameters?, if_neg (by decide), if_neg (by decide),
        afterTypeParameters?, if_neg (by decide), if_neg (by decide), ih]
    · rw [crlf_cons hc, afterTypeParameters?, if_neg hopen, if_neg hclose, ih]

theorem startsWithClause_crlf (u : Text) : startsWithClause (crlf u) = startsWithClause u := by
  have hwords : ∀ word ∈ ["extends", "implements", "permits"], OnOneLine word.toList := by
    simp [OnOneLine]
  rw [startsWithClause, startsWithClause, Bool.eq_iff_iff, List.any_eq_true, List.any_eq_true]
  refine exists_congr fun word => and_congr_right fun hword => ?_
  rw [after?_crlf (hwords word hword)]
  cases after? word.toList u with
  | none => rfl
  | some rest =>
    cases rest with
    | nil => rfl
    | cons c rest =>
      by_cases hc : c = '\n'
      · subst hc
        exact iff_of_eq (congrArg (· = true) (isBlank_return.trans isBlank_newline.symm))
      · rw [Option.map_some, crlf_cons hc]

/-- What continues a header is the same. -/
theorem continuesTypeHeader_crlf (u : Text) :
    continuesTypeHeader (crlf u) = continuesTypeHeader u := by
  have hopens (v : Text) : ((crlf v).head? == some '{' || startsWithClause (crlf v)) =
      (v.head? == some '{' || startsWithClause v) := by
    rw [head?_crlf, startsWithClause_crlf]
    congr 1
    cases v with
    | nil => rfl
    | cons c v => by_cases hc : c = '\n' <;> simp [hc]
  rw [continuesTypeHeader, continuesTypeHeader, trimStart_crlf]
  generalize trimStart u = v
  rcases v with _ | ⟨c, v⟩
  · exact hopens []
  by_cases hc : c = '<'
  · subst hc
    rw [crlf_cons (by decide)]
    simp only [afterTypeParameters?_crlf, Option.any_map, trimStart_crlf, hopens]
  · have hfirst (rest : Text) : crlf (c :: v) ≠ '<' :: rest := by
      intro heq
      by_cases hnewline : c = '\n'
      · subst hnewline
        exact absurd (List.cons.inj heq).1 (by decide)
      · rw [crlf_cons hnewline] at heq
        exact hc (List.cons.inj heq).1
    split
    · next rest heq => exact absurd heq (hfirst rest)
    · split
      · next heq => exact absurd (List.cons.inj heq).1 hc
      · exact hopens (c :: v)

/-- The first character of a name is no newline. -/
theorem exists_of_isWord {u : Text} {title : Span} (hlt : title.start < title.stop)
    (hle : title.stop ≤ u.length) (h : ∀ c ∈ title.slice u, isWord c = true) :
    ∃ c, u[title.start]? = some c ∧ c ≠ '\n' := by
  have hget := List.getElem?_eq_getElem (hlt.trans_le hle)
  refine ⟨_, hget, ?_⟩
  have hmem := Span.mem_slice (Span.contains_iff.2 ⟨le_rfl, hlt⟩) hget
  intro hnewline
  exact Bool.false_ne_true ((show isWord '\n' = false by decide).symm.trans (hnewline ▸ h _ hmem))

theorem isTypeHeader_crlf (ht : Portable t) (hs : s.IsPartOf t) {keyword title : Span}
    (hm : TypeHeader s.text m keyword title) :
    isTypeHeader (.ofText (crlf t)) (s.crlf t) (m.crlf s.text) =
      isTypeHeader (.ofText t) s m := by
  obtain ⟨c, hget, hc⟩ :=
    exists_of_isWord hm.title_lt (hm.title_le.trans hm.stop_le) hm.title_text
  rw [isTypeHeader, isTypeHeader, Match.span?_crlf, hm.name_span]
  simp only [Option.map_some, Option.any_some]
  change (!(Source.ofText (crlf t)).isComment ((s.crlf t).start + s.text.crlfOffset title.start) &&
    continuesTypeHeader ((crlf s.text).drop (s.text.crlfOffset title.stop))) = _
  rw [isComment_crlf ht hs hget hc, ← crlf_drop, continuesTypeHeader_crlf]

/-- The headers of types are the same. -/
theorem typeHeaders_crlf (ht : Portable t) (hs : s.IsPartOf t) :
    typeHeaders (.ofText (crlf t)) (s.crlf t) =
      (typeHeaders (.ofText t) s).map (Match.crlf s.text) := by
  have hall : typeHeader.findAll (crlf s.text) =
      (typeHeader.findAll s.text).map (Match.crlf s.text) :=
    Finder.matchesFrom_crlf keeps_typeHeader.carries matchesEarlier_typeHeader (Nat.zero_le _)
  rw [typeHeaders, typeHeaders]
  change (typeHeader.findAll (crlf s.text)).filter _ = _
  rw [hall, List.filter_map]
  congr 1
  refine List.filter_congr fun m hm => ?_
  obtain ⟨offset, -, hfind⟩ := Finder.find?_of_mem_allFrom hm
  obtain ⟨keyword, title, hshape⟩ := TypeHeader.of_find? hfind
  exact isTypeHeader_crlf ht hs hshape

/-! ### Declarations of types -/

/-- Where a type is in the text with the returns. -/
def TypeDeclaration.crlf (t : Text) (d : TypeDeclaration) : TypeDeclaration :=
  { d with extent := d.extent.crlf t, block := d.block.crlf t }

/-- A part that is a comment reads the same. -/
theorem cleanComment?_part_crlf {u : Text} (hu : '\r' ∉ u) (m : Match HeaderPart)
    (label : HeaderPart) :
    ((m.crlf u).text? (crlf u) label).bind cleanComment? =
      (m.text? u label).bind cleanComment? := by
  rw [Match.text?_crlf]
  cases hpart : m.text? u label with
  | none => rfl
  | some comment =>
    refine cleanComment?_crlf fun hmem => hu ?_
    obtain ⟨span, -, rfl⟩ := Option.map_eq_some_iff.1 hpart
    exact List.mem_of_mem_drop (List.mem_of_mem_take hmem)

theorem typeDeclaration?_crlf (hs : '\r' ∉ s.text) {keyword title : Span}
    (hm : TypeHeader s.text m keyword title) :
    typeDeclaration? (s.crlf t) (m.crlf s.text) =
      (typeDeclaration? s m).map (TypeDeclaration.crlf s.text) := by
  have hname : m.text s.text .name = title.slice s.text := by
    rw [Match.text, Match.text?, hm.name_span]
    rfl
  have hkind : m.text s.text .kind = keyword.slice s.text := by
    rw [Match.text, Match.text?, hm.kind_span]
    rfl
  have hnewline : isWord '\n' = false := by decide
  have hname' : Text.crlf (title.slice s.text) = title.slice s.text :=
    crlf_eq_self fun hmem => Bool.false_ne_true (hnewline.symm.trans (hm.title_text _ hmem))
  have hkind' : Text.crlf (keyword.slice s.text) = keyword.slice s.text :=
    crlf_eq_self fun hmem =>
      Bool.false_ne_true (hnewline.symm.trans (isWord_of_mem_keyword hm.keyword_text hmem))
  have hblock : block? (crlf s.text) (m.crlf s.text).stop =
      (block? s.text m.stop).map (Block.crlf s.text) := block?_crlf s.text m.stop
  rw [typeDeclaration?, typeDeclaration?]
  change (block? (crlf s.text) (m.crlf s.text).stop).map _ = _
  rw [hblock, Option.map_map, Option.map_map]
  refine congrArg (Option.map · (block? s.text m.stop)) (funext fun block => ?_)
  simp only [Function.comp_apply, Stretch.crlf, Match.text_crlf, cleanComment?_part_crlf hs,
    hname, hkind, hname', hkind', TypeDeclaration.crlf]
  rfl

theorem typeDeclarations_crlf (ht : Portable t) (hs : s.IsPartOf t) :
    typeDeclarations (.ofText (crlf t)) (s.crlf t) =
      (typeDeclarations (.ofText t) s).map (TypeDeclaration.crlf s.text) := by
  rw [typeDeclarations, typeDeclarations, typeHeaders_crlf ht hs, List.filterMap_map,
    List.map_filterMap]
  refine List.filterMap_congr fun m hm => ?_
  obtain ⟨-, keyword, title, hshape, -⟩ := of_mem_typeHeaders hm
  exact typeDeclaration?_crlf (ht.of_infix hs.isInfix).noReturn hshape

/-- The extent of a type lies in its stretch. -/
theorem extent_le {src : Source} (hd : d ∈ typeDeclarations src s) :
    d.extent.start ≤ s.text.length ∧ d.extent.stop ≤ s.text.length := by
  obtain ⟨hstart, hopening, hstop⟩ := start_lt_opening hd
  obtain ⟨-, hextent⟩ := extent_of_mem hd
  omega

/-- The same types start outside what is covered. -/
theorem outermost_crlf {u : Text} {covered : List Span} {ds : List TypeDeclaration}
    (hcovered : ∀ c ∈ covered, c.start ≤ u.length ∧ c.stop ≤ u.length)
    (hds : ∀ d ∈ ds, d.extent.start ≤ u.length ∧ d.extent.stop ≤ u.length) :
    outermost (covered.map (Span.crlf u)) (ds.map (TypeDeclaration.crlf u)) =
      (outermost covered ds).map (TypeDeclaration.crlf u) := by
  induction ds generalizing covered with
  | nil => rfl
  | cons d ds ih =>
    have hmore := fun d' (hd' : d' ∈ ds) => hds d' (List.mem_cons_of_mem d hd')
    have hany : (covered.map (Span.crlf u)).any
        (·.contains (TypeDeclaration.crlf u d).extent.start) =
          covered.any (·.contains d.extent.start) := by
      rw [List.any_map, Bool.eq_iff_iff, List.any_eq_true, List.any_eq_true]
      refine exists_congr fun c => and_congr_right fun hc => ?_
      exact iff_of_eq (congrArg (· = true) (Span.contains_crlf (hcovered c hc).1 (hcovered c hc).2))
    rw [List.map_cons, outermost, outermost, hany]
    split
    · exact ih hcovered hmore
    · rw [List.map_cons, ← @ih (d.extent :: covered) ?_ hmore]
      · rfl
      · intro c hc
        rcases List.mem_cons.1 hc with rfl | hc
        · exact hds d List.mem_cons_self
        · exact hcovered c hc

theorem directTypes_crlf (ht : Portable t) (hs : s.IsPartOf t) :
    directTypes (.ofText (crlf t)) (s.crlf t) =
      (directTypes (.ofText t) s).map (TypeDeclaration.crlf s.text) := by
  rw [directTypes, directTypes, typeDeclarations_crlf ht hs]
  exact outermost_crlf (List.forall_mem_nil _) fun d hd => extent_le hd

/-- The body of a type. -/
theorem body_crlf {src : Source} (hs : s.IsPartOf t) (hd : d ∈ typeDeclarations src s) :
    (d.crlf s.text).body (s.crlf t) = (d.body s).crlf t := by
  obtain ⟨⟨offset, -, hblock⟩, -⟩ := extent_of_mem hd
  obtain ⟨-, -, hstop⟩ := start_lt_opening hd
  obtain ⟨-, -, hle, hle'⟩ := length_body hd
  have hinner := inner_crlf hblock
  rw [TypeDeclaration.body, TypeDeclaration.body, ← hs.crlf_within (by omega), ← hinner]
  rfl

/-! ### Opened types -/

/-- Where an opened type is in the text with the returns. -/
def OpenType.crlf (t : Text) (o : OpenType) : OpenType :=
  ⟨o.scope, o.outer.crlf t, o.declaration.crlf o.outer.text⟩

/-- The types that are opened are the same. -/
theorem openTypes_crlf (ht : Portable t) (hs : s.IsPartOf t) (outer : Option Text) :
    openTypes (.ofText (crlf t)) outer (s.crlf t) =
      (openTypes (.ofText t) outer s).map (OpenType.crlf t) := by
  induction hn : s.text.length using Nat.strong_induction_on generalizing s outer with
  | _ n ih =>
    rw [openTypes_eq, openTypes_eq, directTypes_crlf ht hs, List.flatMap_map, List.map_flatMap]
    refine List.flatMap_congr fun d hd => ?_
    have hd' := mem_of_mem_directTypes hd
    have hbelow := ih _ (hn ▸ length_body_lt hd') (hs.within d.block.inner)
      (some (Scope.ofDeclaration outer d).path) rfl
    rw [List.map_cons]
    refine congrArg₂ _ rfl ?_
    rw [body_crlf hs hd']
    exact hbelow

end Glossator.Java
