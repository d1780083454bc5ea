import Glossator.Proofs.Java.Block
import Glossator.Proofs.Java.Header
import Glossator.Java.TypeDeclaration

/-!
# Where types lie

The types of a stretch come in the order of their headers. Those declared directly in it lie one
behind the other, and the types of a body lie within that body.

* `Java.pairwise_directTypes`: the types declared directly in a stretch do not overlap.
* `Java.block_within_body`: the block of a type declared in the body of another one lies between
  the braces of that other one.
-/

set_option autoImplicit false

namespace Glossator.Java

variable {src : Source} {s : Stretch} {d : TypeDeclaration}

/-- An accepted header is one that a search finds, and its name is outside comments. -/
theorem of_mem_typeHeaders {m : Match HeaderPart} (h : m ∈ typeHeaders src s) :
    (∃ offset, (Finder.ofPattern typeHeader s.text).find? offset = some m) ∧
      ∃ keyword title, TypeHeader s.text m keyword title ∧
        src.isComment (s.start + title.start) = false ∧
        continuesTypeHeader (s.text.drop title.stop) = true := by
  rw [typeHeaders, List.mem_filter] at h
  obtain ⟨hmem, haccepted⟩ := h
  obtain ⟨offset, -, hfind⟩ := Finder.find?_of_mem_allFrom hmem
  obtain ⟨keyword, title, hshape⟩ := TypeHeader.of_find? hfind
  rw [isTypeHeader, hshape.name_span] at haccepted
  refine ⟨⟨offset, hfind⟩, keyword, title, hshape, ?_⟩
  simpa using haccepted

/-- Headers are accepted in order, each behind the end of the ones before it. -/
theorem pairwise_typeHeaders (src : Source) (s : Stretch) :
    (typeHeaders src s).Pairwise fun m m' => m.stop ≤ m'.start :=
  (Finder.pairwise_allFrom _ _).sublist List.filter_sublist

/-- How a declared type lies in its stretch: behind its header comes its block. -/
structure Declared (src : Source) (s : Stretch) (d : TypeDeclaration) (m : Match HeaderPart)
    (keyword title : Span) : Prop where
  header : m ∈ typeHeaders src s
  shape : TypeHeader s.text m keyword title
  block : BlockAt s.text m.stop d.block
  extent : d.extent = ⟨m.start, d.block.stop⟩
  name : d.name = title.slice s.text
  kind : d.kind = .ofKeyword (keyword.slice s.text)

theorem exists_declared (h : d ∈ typeDeclarations src s) :
    ∃ m keyword title, Declared src s d m keyword title := by
  obtain ⟨m, hm, hd⟩ := List.mem_filterMap.1 h
  obtain ⟨-, keyword, title, hshape, -⟩ := of_mem_typeHeaders hm
  simp only [typeDeclaration?, Option.map_eq_some_iff] at hd
  obtain ⟨block, hblock, rfl⟩ := hd
  refine ⟨m, keyword, title, hm, hshape, .of_block? hblock, rfl, ?_, ?_⟩
  · simp only [Match.text, Match.text?, hshape.name_span, Option.map_some, Option.getD_some]
  · simp only [Match.text, Match.text?, hshape.kind_span, Option.map_some, Option.getD_some]

/-- The header of a type starts before its block, and the type ends where the block ends. -/
theorem extent_of_mem (h : d ∈ typeDeclarations src s) :
    (∃ offset, d.extent.start < offset ∧ BlockAt s.text offset d.block) ∧
      d.extent.stop = d.block.stop := by
  obtain ⟨m, keyword, title, hdeclared⟩ := exists_declared h
  have hshape := hdeclared.shape
  have := hshape.start_le
  have := hshape.keyword_le
  have := hshape.gap_lt
  have := hshape.title_lt
  have := hshape.title_le
  rw [hdeclared.extent]
  exact ⟨⟨m.stop, by simp only; omega, hdeclared.block⟩, rfl⟩

/-- The header of a type starts before its block, which is not empty and ends in the stretch. -/
theorem start_lt_opening (h : d ∈ typeDeclarations src s) :
    d.extent.start < d.block.opening ∧ d.block.opening < d.block.stop ∧
      d.block.stop ≤ s.text.length := by
  obtain ⟨⟨offset, hlt, hblock⟩, -⟩ := extent_of_mem h
  exact ⟨hlt.trans_le hblock.offset_le, hblock.opening_lt, hblock.stop_le⟩

/-- The types of a stretch come in the order of their headers. -/
theorem pairwise_typeDeclarations (src : Source) (s : Stretch) :
    (typeDeclarations src s).Pairwise fun d e => d.extent.start < e.extent.start := by
  refine List.Pairwise.filterMap _ ?_ ((pairwise_typeHeaders src s).imp_of_mem ?_)
    (R := fun m m' => m.start < m'.start)
  · intro m m' hlt d hd e he
    simp only [typeDeclaration?, Option.map_eq_some_iff] at hd he
    obtain ⟨_, -, rfl⟩ := hd
    obtain ⟨_, -, rfl⟩ := he
    exact hlt
  · intro m m' hm _ hle
    obtain ⟨-, keyword, title, hshape, -⟩ := of_mem_typeHeaders hm
    have := hshape.start_le
    have := hshape.keyword_le
    have := hshape.gap_lt
    have := hshape.title_lt
    have := hshape.title_le
    omega

/-! ### Types declared directly -/

/-- A kept type starts outside what was covered before. -/
theorem not_contains_of_mem_outermost {covered : List Span} {ds : List TypeDeclaration}
    (h : d ∈ outermost covered ds) {c : Span} (hc : c ∈ covered) :
    c.contains d.extent.start = false := by
  induction ds generalizing covered with
  | nil => cases h
  | cons e ds ih =>
    rw [outermost] at h
    split at h
    · exact ih h hc
    · next hany =>
      rcases List.mem_cons.1 h with rfl | h
      · simp only [Bool.not_eq_true, List.any_eq_false] at hany
        simpa using hany c hc
      · exact ih h (List.mem_cons_of_mem _ hc)

/-- Of types in the order of their headers, the kept ones lie one behind the other. -/
theorem pairwise_outermost {covered : List Span} {ds : List TypeDeclaration}
    (h : ds.Pairwise fun d e => d.extent.start < e.extent.start) :
    (outermost covered ds).Pairwise fun d e => d.extent.stop ≤ e.extent.start := by
  induction ds generalizing covered with
  | nil => exact .nil
  | cons d ds ih =>
    obtain ⟨hfirst, hrest⟩ := List.pairwise_cons.1 h
    rw [outermost]
    split
    · exact ih hrest
    · refine .cons ?_ (ih hrest)
      intro e he
      have houtside := not_contains_of_mem_outermost he List.mem_cons_self
      have hlt := hfirst e (mem_of_mem_outermost he)
      simp only [Span.contains, Bool.and_eq_false_iff, decide_eq_false_iff_not] at houtside
      omega

theorem mem_of_mem_directTypes (h : d ∈ directTypes src s) : d ∈ typeDeclarations src s :=
  mem_of_mem_outermost h

/-- The types declared directly in a stretch lie one behind the other, and so do their blocks. -/
theorem pairwise_directTypes (src : Source) (s : Stretch) : (directTypes src s).Pairwise
    fun d e => d.extent.stop ≤ e.extent.start ∧ d.block.stop ≤ e.block.opening := by
  refine (pairwise_outermost (pairwise_typeDeclarations src s)).imp_of_mem ?_
  intro d e hd he hle
  obtain ⟨-, hstop⟩ := extent_of_mem (mem_of_mem_directTypes hd)
  obtain ⟨hstart, -⟩ := start_lt_opening (mem_of_mem_directTypes he)
  exact ⟨hle, by omega⟩

/-! ### Bodies -/

/-- The body of a type is the part of the stretch between the braces. -/
theorem length_body (h : d ∈ typeDeclarations src s) :
    (d.body s).text.length = d.block.inner.stop - d.block.inner.start ∧
      d.block.inner.start = d.block.opening + 1 ∧
      d.block.inner.start ≤ d.block.inner.stop ∧ d.block.inner.stop ≤ d.block.stop := by
  obtain ⟨⟨offset, -, hblock⟩, -⟩ := extent_of_mem h
  exact ⟨hblock.length_inner, hblock.inner_le⟩

@[simp] theorem start_body (d : TypeDeclaration) (s : Stretch) :
    (d.body s).start = s.start + d.block.inner.start := rfl

/-- The block of a type that is declared in the body of another one lies between the braces of that
other one. -/
theorem block_within_body (h : d ∈ typeDeclarations src s) {e : TypeDeclaration}
    (he : e ∈ typeDeclarations src (d.body s)) :
    s.start + d.block.inner.start ≤ (d.body s).start + e.block.opening ∧
      (d.body s).start + e.block.stop ≤ s.start + d.block.inner.stop := by
  obtain ⟨-, -, hstop⟩ := start_lt_opening he
  obtain ⟨hlength, -, hle, -⟩ := length_body h
  rw [start_body]
  omega

end Glossator.Java
