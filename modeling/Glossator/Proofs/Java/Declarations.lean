import Glossator.Proofs.Java.Forest

/-!
# Declarations that are reported twice

A method is kept for a type if its header does not start within a type declared in the same body.
A header starts with the comments and annotations before the declaration, so it can start before
such a type and still declare a name inside of it. This is the one way in which a declaration is
reported twice.

* `Java.nodup_nameStart_iff`: the names of the methods found stand at different places exactly if
  no method reaches over the opening brace of a type in which it is found again.
-/

set_option autoImplicit false

namespace Glossator.Java

variable {src : Source}

/-- Where the name of a found method stands in the file. -/
def Finding.nameStart (f : Finding) : Nat :=
  f.stretch.start + ((f.method.header.span? .name).map Span.start).getD 0

/-- The header of a found method starts before the header of a type, and the opening brace of that
type stands in the comments or annotations of the method. -/
def Finding.ReachesOver (f : Finding) (d : TypeDeclaration) : Prop :=
  f.method.header.start < d.extent.start ∧ ∃ part ∈ frontParts, ∃ span,
    f.method.header.span? part = some span ∧ span.contains d.block.opening = true

/-- A method was found between the braces of a type that is declared in a stretch. -/
def Finding.LiesWithin (g : Finding) (s : Stretch) (d : TypeDeclaration) : Prop :=
  s.start + d.block.opening < g.stretch.start ∧
    g.stretch.start + g.stretch.text.length ≤ s.start + d.block.stop

/-- Where the name of a method of a stretch stands: behind the start of its header and before the
end of the method. -/
theorem nameStart_of_mem_methods {scope : Option Scope} {s : Stretch} {m : Method}
    (h : m ∈ methods src scope s) (scope' : Option Scope) : ∃ title, Found src scope s
      ((typeDeclarations src s).map TypeDeclaration.extent) m title ∧
      (⟨scope', s, m⟩ : Finding).nameStart = s.start + title.start ∧
      m.header.start ≤ title.start ∧ title.start < m.extent.stop ∧
      m.extent.stop ≤ s.text.length := by
  obtain ⟨title, hfound⟩ := exists_found_of_mem_methods h
  have hshape := hfound.shape
  have hname := hshape.name_span
  have hlt := hshape.title_lt
  have hle := hshape.title_le
  have hheader := hfound.place.header_le
  refine ⟨title, hfound, ?_, hshape.start_le, by omega, hfound.place.stop_le⟩
  rw [Finding.nameStart, hname]
  rfl

/-- The methods found in one stretch have names at different places. -/
theorem nodup_nameStart_ofStretch (scope : Option Scope) (s : Stretch) :
    ((Finding.ofStretch src scope s).map Finding.nameStart).Nodup := by
  rw [Finding.ofStretch, List.map_map, List.Nodup, List.pairwise_map]
  refine (pairwise_methods src scope s).imp_of_mem ?_
  intro m m' hm hm' hle
  obtain ⟨title, -, hname, -, hlt, -⟩ := nameStart_of_mem_methods hm scope
  obtain ⟨title', -, hname', hle', -⟩ := nameStart_of_mem_methods hm' scope
  simp only [Function.comp_apply, hname, hname']
  omega

/-- A method whose name stands in the block of a type declared in the same stretch reaches over the
opening brace of that type. -/
theorem reachesOver_of_mem_methods {scope : Option Scope} {s : Stretch} {m : Method}
    (h : m ∈ methods src scope s) {d : TypeDeclaration} (hd : d ∈ typeDeclarations src s)
    (hlt : s.start + d.block.opening < (⟨scope, s, m⟩ : Finding).nameStart)
    (hlt' : (⟨scope, s, m⟩ : Finding).nameStart < s.start + d.block.stop) :
    (⟨scope, s, m⟩ : Finding).ReachesOver d := by
  obtain ⟨title, hfound, hname, hstart, -, -⟩ := nameStart_of_mem_methods h scope
  obtain ⟨header, keyword, title', hdeclared⟩ := exists_declared hd
  have hopening := hdeclared.block.opening_char
  obtain ⟨hbefore, -, -⟩ := start_lt_opening hd
  have hextent := hdeclared.extent
  have hown := hfound.own
  simp only [isOwnMethod, Bool.and_eq_true, Bool.not_eq_true', List.any_eq_false,
    List.mem_map] at hown
  obtain ⟨⟨-, houtside⟩, -⟩ := hown
  have hnot := houtside _ ⟨d, hd, rfl⟩
  have hstop : d.extent.stop = d.block.stop := by rw [hextent]
  simp only [Span.contains, Bool.and_eq_true, decide_eq_true_eq, not_and] at hnot
  have hless : m.header.start < d.extent.start := by omega
  exact ⟨hless, hfound.shape.front _ (by omega) (by omega) hopening⟩

/-- Where the names stand of the methods that are found for opened types. -/
theorem nameStart_within {o : OpenType} {f : Finding}
    (h : f ∈ Finding.ofStretch src (some o.scope) o.body) :
    f.stretch = o.body ∧ o.body.start ≤ f.nameStart ∧
      f.nameStart < o.body.start + o.body.text.length := by
  obtain ⟨m, hm, rfl⟩ := List.mem_map.1 h
  obtain ⟨title, -, hname, hle, hlt, hlen⟩ :=
    nameStart_of_mem_methods hm (some o.scope)
  refine ⟨rfl, ?_, ?_⟩ <;> omega

/-- The methods found for the types of a stretch. -/
def typeFindings (src : Source) (outer : Option Text) (s : Stretch) : List Finding :=
  (openTypes src outer s).flatMap fun o => Finding.ofStretch src (some o.scope) o.body

/-- The methods found for the types of a stretch: those of each type declared directly in it, each
before the methods of the types below it. -/
theorem typeFindings_eq (src : Source) (outer : Option Text) (s : Stretch) :
    typeFindings src outer s = (directTypes src s).flatMap fun d =>
      Finding.ofStretch src (some (Scope.ofDeclaration outer d)) (d.body s) ++
        typeFindings src (some (Scope.ofDeclaration outer d).path) (d.body s) := by
  rw [typeFindings, openTypes_eq, List.flatMap_assoc]
  rfl

/-- A method found for a type, or below it, lies between its braces, and so does its name. -/
theorem liesWithin_of_mem {outer : Option Text} {s : Stretch} {d : TypeDeclaration}
    (hd : d ∈ directTypes src s) {f : Finding}
    (h : f ∈ Finding.ofStretch src (some (Scope.ofDeclaration outer d)) (d.body s) ++
      typeFindings src (some (Scope.ofDeclaration outer d).path) (d.body s)) :
    f.LiesWithin s d ∧ s.start + d.block.opening < f.nameStart ∧
      f.nameStart < s.start + d.block.stop := by
  obtain ⟨o, ho, hf⟩ : ∃ o ∈ (⟨.ofDeclaration outer d, s, d⟩ : OpenType) ::
      openTypes src (some (Scope.ofDeclaration outer d).path) (d.body s),
      f ∈ Finding.ofStretch src (some o.scope) o.body := by
    rcases List.mem_append.1 h with h | h
    · exact ⟨_, List.mem_cons_self, h⟩
    · obtain ⟨o, ho, hf⟩ := List.mem_flatMap.1 h
      exact ⟨o, List.mem_cons_of_mem _ ho, hf⟩
  have hblock := body_within_block hd ho
  obtain ⟨hstretch, hle, hlt⟩ := nameStart_within hf
  rw [Finding.LiesWithin, hstretch]
  exact ⟨hblock, by omega, by omega⟩

/-- If no method of a type reaches over a type in which its name is found again, the methods found
for the types of a stretch have names at different places. -/
theorem nodup_nameStart_typeFindings (src : Source) (outer : Option Text) (s : Stretch)
    (h : ∀ f ∈ typeFindings src outer s, ∀ d ∈ directTypes src f.stretch, f.ReachesOver d →
      ∀ g ∈ typeFindings src outer s, g.LiesWithin f.stretch d → g.nameStart ≠ f.nameStart) :
    ((typeFindings src outer s).map Finding.nameStart).Nodup := by
  induction hn : s.text.length using Nat.strong_induction_on generalizing outer s with
  | _ n ih =>
    rw [typeFindings_eq, List.map_flatMap, List.nodup_flatMap]
    constructor
    · intro d hd
      have hlt := length_body_lt (mem_of_mem_directTypes hd)
      have hsub {f : Finding}
          (hf : f ∈ Finding.ofStretch src (some (Scope.ofDeclaration outer d)) (d.body s) ++
            typeFindings src (some (Scope.ofDeclaration outer d).path) (d.body s)) :
          f ∈ typeFindings src outer s := by
        rw [typeFindings_eq]
        exact List.mem_flatMap.2 ⟨d, hd, hf⟩
      rw [List.map_append, List.nodup_append]
      refine ⟨nodup_nameStart_ofStretch _ _, ih _ (hn ▸ hlt) _ _ ?_ rfl, ?_⟩
      · intro f hf e he hreach g hg hwithin
        exact h f (hsub (List.mem_append_right _ hf)) e he hreach g
          (hsub (List.mem_append_right _ hg)) hwithin
      · -- a method of the type itself, and one of a type declared in its body
        intro i hi j hj heq
        obtain ⟨f, hf, rfl⟩ := List.mem_map.1 hi
        obtain ⟨g, hg, rfl⟩ := List.mem_map.1 hj
        have hgall := hsub (List.mem_append_right _ hg)
        have hfall := hsub (List.mem_append_left _ hf)
        obtain ⟨m, hm, rfl⟩ := List.mem_map.1 hf
        rw [typeFindings_eq] at hg
        obtain ⟨e, he, hg⟩ := List.mem_flatMap.1 hg
        obtain ⟨hwithin, hbehind, hbefore⟩ := liesWithin_of_mem he hg
        have hreach := reachesOver_of_mem_methods hm (mem_of_mem_directTypes he)
          (heq ▸ hbehind) (heq ▸ hbefore)
        exact h _ hfall e he hreach g hgall hwithin heq.symm
    · refine (pairwise_directTypes src s).imp_of_mem ?_
      intro d e hd he hle
      rw [Function.onFun, List.disjoint_left]
      intro i hi hi'
      obtain ⟨f, hf, rfl⟩ := List.mem_map.1 hi
      obtain ⟨g, hg, heq⟩ := List.mem_map.1 hi'
      obtain ⟨-, -, hbefore⟩ := liesWithin_of_mem hd hf
      obtain ⟨-, hbehind, -⟩ := liesWithin_of_mem he hg
      omega

/-- The names of the methods found in a text stand at different places exactly if no method reaches
over the opening brace of a type declared in the same body, to a name that is found again between
the braces of that type. -/
theorem nodup_nameStart_iff (t : Text) :
    ((findings (.ofText t)).map Finding.nameStart).Nodup ↔
      ∀ f ∈ findings (.ofText t), ∀ d ∈ directTypes (.ofText t) f.stretch, f.ReachesOver d →
        ∀ g ∈ findings (.ofText t), g.LiesWithin f.stretch d → g.nameStart ≠ f.nameStart := by
  constructor
  · intro hnodup f hf d _ _ g hg hwithin heq
    obtain rfl := List.inj_on_of_nodup_map hnodup hg hf heq
    have := hwithin.1
    omega
  · intro h
    rw [findings] at h ⊢
    split at h
    · next hnone =>
      rw [if_pos hnone]
      exact nodup_nameStart_ofStretch _ _
    · next hsome =>
      rw [if_neg hsome]
      exact nodup_nameStart_typeFindings _ _ _ h

end Glossator.Java
