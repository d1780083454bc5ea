import Glossator.Proofs.Java.Method
import Glossator.Proofs.Java.TypeDeclaration
import Glossator.Java.Extraction

/-!
# The forest of types

The search descends from the whole text into the bodies of the types declared directly in it, and
from there into the bodies of the types declared directly in those. This module says that the
types it meets form a forest, each searched once, and that every method is found in the innermost
type around it.

* `Java.types_form_forest`: the types of a text nest properly, and methods belong to the innermost.
-/

set_option autoImplicit false

namespace Glossator.Java

variable {src : Source}

/-- The stretches that the search of a file comes to: the whole text, and the body of each type
declared directly in such a stretch. The types that lead to a stretch are listed with the outermost
one first. -/
inductive Reached (src : Source) : List TypeDeclaration → Stretch → Prop where
  | whole : Reached src [] (.whole src.text)
  | body {chain : List TypeDeclaration} {s : Stretch} {d : TypeDeclaration} :
      Reached src chain s → d ∈ directTypes src s → Reached src (chain ++ [d]) (d.body s)

/-- The names of nested types, joined by dots. -/
def dottedNames (chain : List TypeDeclaration) : Text :=
  Text.join ['.'] (chain.map TypeDeclaration.name)

/-- The path that leads to a stretch: none for the whole text. -/
def pathOf? (chain : List TypeDeclaration) : Option Text :=
  if chain.isEmpty then none else some (dottedNames chain)

theorem intersperse_concat {α : Type} (separator : α) {l : List α} (hl : l ≠ []) (x : α) :
    (l ++ [x]).intersperse separator = l.intersperse separator ++ [separator, x] := by
  induction l with
  | nil => exact absurd rfl hl
  | cons a l ih =>
    cases l with
    | nil => rfl
    | cons b l =>
      have htail := ih (List.cons_ne_nil b l)
      simp only [List.cons_append] at htail ⊢
      rw [List.intersperse_cons_cons, htail, List.intersperse_cons_cons]
      rfl

theorem path_ofDeclaration (chain : List TypeDeclaration) (d : TypeDeclaration) :
    (Scope.ofDeclaration (pathOf? chain) d).path = dottedNames (chain ++ [d]) := by
  cases chain with
  | nil => simp [Scope.ofDeclaration, pathOf?, dottedNames, Text.join]
  | cons e chain =>
    rw [dottedNames, Text.join, List.map_append, List.map_singleton,
      intersperse_concat _ (by simp)]
    simp [Scope.ofDeclaration, pathOf?, dottedNames, Text.join]

theorem pathOf?_concat (chain : List TypeDeclaration) (d : TypeDeclaration) :
    pathOf? (chain ++ [d]) = some (Scope.ofDeclaration (pathOf? chain) d).path := by
  rw [path_ofDeclaration, pathOf?, if_neg (by simp)]

/-! ### The types that are opened -/

/-- The types of a stretch: those declared directly in it, each before the types of its body. -/
theorem openTypes_eq (src : Source) (outer : Option Text) (s : Stretch) : openTypes src outer s =
    (directTypes src s).flatMap fun d => ⟨Scope.ofDeclaration outer d, s, d⟩ ::
      openTypes src (some (Scope.ofDeclaration outer d).path) (d.body s) := by
  rw [openTypes]
  simp only [List.flatMap_subtype, List.unattach_attach]

/-- An induction over the types that are opened in a stretch: it goes from a stretch to the bodies
of the types declared directly in it. -/
theorem openTypes_induction {motive : Option Text → Stretch → OpenType → Prop}
    (here : ∀ outer s d, d ∈ directTypes src s → motive outer s ⟨.ofDeclaration outer d, s, d⟩)
    (below : ∀ outer s d o, d ∈ directTypes src s →
      o ∈ openTypes src (some (Scope.ofDeclaration outer d).path) (d.body s) →
      motive (some (Scope.ofDeclaration outer d).path) (d.body s) o → motive outer s o)
    {outer : Option Text} {s : Stretch} {o : OpenType} (h : o ∈ openTypes src outer s) :
    motive outer s o := by
  induction hn : s.text.length using Nat.strong_induction_on generalizing outer s with
  | _ n ih =>
    have hmem := h
    rw [openTypes_eq, List.mem_flatMap] at hmem
    obtain ⟨d, hd, hmem⟩ := hmem
    rcases List.mem_cons.1 hmem with rfl | hmem
    · exact here outer s d hd
    · have hlt := length_body_lt (mem_of_mem_directTypes hd)
      exact below outer s d o hd hmem (ih _ (hn ▸ hlt) hmem rfl)

/-- An opened type is declared directly in a stretch that the search comes to, and its path is made
of the names that lead to it. -/
theorem exists_reached_of_mem_openTypes {chain : List TypeDeclaration} {s : Stretch} {o : OpenType}
    (hs : Reached src chain s) (h : o ∈ openTypes src (pathOf? chain) s) :
    ∃ chain', Reached src chain' o.outer ∧ o.declaration ∈ directTypes src o.outer ∧
      o.scope = .ofDeclaration (pathOf? chain') o.declaration := by
  refine openTypes_induction (motive := fun outer s o => ∀ chain, outer = pathOf? chain →
    Reached src chain s → ∃ chain', Reached src chain' o.outer ∧
      o.declaration ∈ directTypes src o.outer ∧
      o.scope = .ofDeclaration (pathOf? chain') o.declaration) ?_ ?_ h chain rfl hs
  · rintro _ s d hd chain rfl hs
    exact ⟨chain, hs, hd, rfl⟩
  · rintro _ s d o hd - ih chain rfl hs
    exact ih (chain ++ [d]) (pathOf?_concat chain d).symm (.body hs hd)

/-- The body of an opened type lies in the stretch, behind its start. -/
theorem body_within_of_mem_openTypes {outer : Option Text} {s : Stretch} {o : OpenType}
    (h : o ∈ openTypes src outer s) : s.start < o.body.start ∧
      o.body.start + o.body.text.length ≤ s.start + s.text.length := by
  refine openTypes_induction (motive := fun _ s o => s.start < o.body.start ∧
    o.body.start + o.body.text.length ≤ s.start + s.text.length) ?_ ?_ h
  · intro outer s d hd
    obtain ⟨hlength, hstart, hle, hstop⟩ := length_body (mem_of_mem_directTypes hd)
    obtain ⟨-, -, hlast⟩ := start_lt_opening (mem_of_mem_directTypes hd)
    simp only [OpenType.body, start_body]
    omega
  · intro outer s d o hd ho ih
    obtain ⟨hlength, hstart, hle, hstop⟩ := length_body (mem_of_mem_directTypes hd)
    obtain ⟨-, -, hlast⟩ := start_lt_opening (mem_of_mem_directTypes hd)
    rw [start_body] at ih
    omega

/-- The bodies of a type and of the types below it lie between its braces. -/
theorem body_within_block {outer : Option Text} {s : Stretch} {d : TypeDeclaration} {o : OpenType}
    (hd : d ∈ directTypes src s) (h : o ∈ (⟨.ofDeclaration outer d, s, d⟩ : OpenType) ::
      openTypes src (some (Scope.ofDeclaration outer d).path) (d.body s)) :
    s.start + d.block.opening < o.body.start ∧
      o.body.start + o.body.text.length ≤ s.start + d.block.stop := by
  obtain ⟨hlength, hstart, hle, hstop⟩ := length_body (mem_of_mem_directTypes hd)
  rcases List.mem_cons.1 h with rfl | h
  · simp only [OpenType.body, start_body]
    omega
  · have := body_within_of_mem_openTypes h
    rw [start_body] at this
    omega

/-- No body is searched twice: the bodies of the opened types start at different places. -/
theorem nodup_start_openTypes (src : Source) (outer : Option Text) (s : Stretch) :
    ((openTypes src outer s).map fun o => o.body.start).Nodup := by
  induction hn : s.text.length using Nat.strong_induction_on generalizing outer s with
  | _ n ih =>
    rw [openTypes_eq, List.map_flatMap, List.nodup_flatMap]
    constructor
    · intro d hd
      have hlt := length_body_lt (mem_of_mem_directTypes hd)
      rw [List.map_cons, List.nodup_cons]
      refine ⟨?_, ih _ (hn ▸ hlt) _ _ rfl⟩
      intro hmem
      obtain ⟨o, ho, heq⟩ := List.mem_map.1 hmem
      have hinside := (body_within_of_mem_openTypes ho).1
      simp only [OpenType.body] at heq hinside
      omega
    · refine (pairwise_directTypes src s).imp_of_mem ?_
      intro d e hd he hle
      rw [Function.onFun, List.disjoint_left]
      intro i hi hi'
      obtain ⟨o, ho, rfl⟩ := List.mem_map.1 hi
      obtain ⟨o', ho', heq⟩ := List.mem_map.1 hi'
      have hblock := body_within_block hd ho
      have hblock' := body_within_block he ho'
      omega

theorem openTypes_body_subset {outer : Option Text} {s : Stretch} {o : OpenType}
    (h : o ∈ openTypes src outer s) :
    openTypes src (some o.scope.path) o.body ⊆ openTypes src outer s := by
  refine openTypes_induction (motive := fun outer s o =>
    openTypes src (some o.scope.path) o.body ⊆ openTypes src outer s) ?_ ?_ h
  · intro outer s d hd o' ho'
    rw [openTypes_eq src outer s, List.mem_flatMap]
    exact ⟨d, hd, List.mem_cons_of_mem _ ho'⟩
  · intro outer s d o hd ho ih o' ho'
    rw [openTypes_eq src outer s, List.mem_flatMap]
    exact ⟨d, hd, List.mem_cons_of_mem _ (ih ho')⟩

/-- The types declared directly in a stretch that the search comes to are opened. -/
theorem mem_openTypes_of_reached {chain : List TypeDeclaration} {s : Stretch}
    (hs : Reached src chain s) {d : TypeDeclaration} (hd : d ∈ directTypes src s) :
    (⟨.ofDeclaration (pathOf? chain) d, s, d⟩ : OpenType) ∈
      openTypes src none (.whole src.text) := by
  induction hs generalizing d with
  | whole =>
    rw [openTypes_eq, List.mem_flatMap]
    exact ⟨d, hd, List.mem_cons_self⟩
  | @body chain s e _ he ih =>
    apply openTypes_body_subset (ih he)
    rw [openTypes_eq, List.mem_flatMap, pathOf?_concat]
    exact ⟨d, hd, List.mem_cons_self⟩

/-- A type is opened exactly if it is declared directly in a stretch that the search comes to; its
path is made of the names that lead to it. -/
theorem mem_openTypes_iff {o : OpenType} : o ∈ openTypes src none (.whole src.text) ↔
    ∃ chain, Reached src chain o.outer ∧ o.declaration ∈ directTypes src o.outer ∧
      o.scope = .ofDeclaration (pathOf? chain) o.declaration := by
  constructor
  · exact exists_reached_of_mem_openTypes .whole
  · rintro ⟨chain, hs, hd, hscope⟩
    have hmem := mem_openTypes_of_reached hs hd
    rwa [← hscope] at hmem

/-! ### The methods of types -/

/-- A method that is found for a type is one of the methods of an opened type's body. -/
theorem exists_openType_of_mem_findings {f : Finding} (h : f ∈ findings src) {scope : Scope}
    (hscope : f.scope = some scope) : ∃ o ∈ openTypes src none (.whole src.text),
      f.stretch = o.body ∧ scope = o.scope ∧ f.method ∈ methods src (some o.scope) o.body := by
  rw [findings] at h
  split at h
  · obtain ⟨m, -, rfl⟩ := List.mem_map.1 h
    cases hscope
  · obtain ⟨o, ho, hf⟩ := List.mem_flatMap.1 h
    obtain ⟨m, hm, rfl⟩ := List.mem_map.1 hf
    cases hscope
    exact ⟨o, ho, rfl, rfl, hm⟩

/-- A method of a stretch does not start within a type that is declared there. -/
theorem outside_types_of_mem_methods {scope : Option Scope} {s : Stretch} {m : Method}
    (h : m ∈ methods src scope s) {header : Match HeaderPart} (hheader : header ∈ typeHeaders src s)
    {block : Block} (hblock : block? s.text header.stop = some block) :
    ¬ (header.start ≤ m.header.start ∧ m.header.start < block.stop) := by
  obtain ⟨title, hfound⟩ := exists_found_of_mem_methods h
  have hown := hfound.own
  simp only [isOwnMethod, Bool.and_eq_true, Bool.not_eq_true', List.any_eq_false,
    List.mem_map] at hown
  obtain ⟨⟨-, houtside⟩, -⟩ := hown
  have hd : typeDeclaration? s header = some ⟨header.text s.text .name,
      .ofKeyword (header.text s.text .kind), (header.text? s.text .comments).bind cleanComment?,
      ⟨header.start, block.stop⟩, block⟩ := by
    rw [typeDeclaration?, hblock]
    rfl
  have hnot := houtside _ ⟨_, List.mem_filterMap.2 ⟨header, hheader, hd⟩, rfl⟩
  simpa [Span.contains] using hnot

/-! ### Places of a stretch in the file -/

/-- A stretch that the search comes to is a part of the file. -/
theorem Reached.getElem?_eq {src : Source} {chain : List TypeDeclaration} {s : Stretch}
    (h : Reached src chain s) {i : Nat} (hi : i < s.text.length) :
    s.text[i]? = src.text[s.start + i]? := by
  induction h generalizing i with
  | whole => simp [Stretch.whole]
  | @body chain s d hs hd ih =>
    obtain ⟨hlength, -, hle, hstop⟩ := length_body (mem_of_mem_directTypes hd)
    obtain ⟨-, -, hlast⟩ := start_lt_opening (mem_of_mem_directTypes hd)
    rw [hlength] at hi
    have hbody : (d.body s).text[i]? = s.text[d.block.inner.start + i]? := by
      change (d.block.inner.slice s.text)[i]? = _
      rw [Span.slice, List.getElem?_take, if_pos hi, List.getElem?_drop]
    rw [hbody, ih (by omega), start_body, Nat.add_assoc]

/-- A span of a stretch that the search comes to covers the same text in the file. -/
theorem Reached.slice_eq {src : Source} {chain : List TypeDeclaration} {s : Stretch}
    (h : Reached src chain s) {span : Span} (hstop : span.stop ≤ s.text.length) :
    (span.shift s.start).slice src.text = span.slice s.text := by
  apply List.ext_getElem?
  intro i
  have hlength : span.stop + s.start - (span.start + s.start) = span.stop - span.start := by omega
  simp only [Span.slice, Span.shift, List.getElem?_take, hlength]
  split
  · have hadd : span.start + s.start + i = s.start + (span.start + i) := by omega
    rw [List.getElem?_drop, List.getElem?_drop, h.getElem?_eq (by omega), hadd]
  · rfl

/-- A found method is one of a stretch that the search comes to, and the names that lead there are
those of its scope. -/
theorem exists_reached_of_mem_findings {src : Source} {f : Finding} (h : f ∈ findings src) :
    ∃ chain, Reached src chain f.stretch ∧ pathOf? chain = f.scope.map Scope.path ∧
      f.method ∈ methods src f.scope f.stretch := by
  rw [findings] at h
  split at h
  · obtain ⟨m, hm, rfl⟩ := List.mem_map.1 h
    exact ⟨[], .whole, rfl, hm⟩
  · obtain ⟨o, ho, hf⟩ := List.mem_flatMap.1 h
    obtain ⟨m, hm, rfl⟩ := List.mem_map.1 hf
    obtain ⟨chain, hs, hd, hscope⟩ := mem_openTypes_iff.1 ho
    refine ⟨chain ++ [o.declaration], .body hs hd, ?_, hm⟩
    rw [pathOf?_concat, ← hscope]
    rfl

/-- The types that the search of a text descends into form a proper forest: each body is shorter
than the stretch around it, the blocks of types that are declared side by side are disjoint, and the
block of a type declared in the body of another one lies between its braces. The types so reached
are those that are opened, and no body is searched twice. A record that is made for a type is one
of a method that lies between the braces of that type and does not start within a type declared in
its body, and its class name is made of the names that lead to the type. -/
theorem types_form_forest (t : Text) :
    (∀ chain s, Reached (.ofText t) chain s →
      (∀ d ∈ directTypes (.ofText t) s, (d.body s).text.length < s.text.length) ∧
      (directTypes (.ofText t) s).Pairwise (fun d e => d.block.stop ≤ e.block.opening) ∧
      ∀ d ∈ directTypes (.ofText t) s, ∀ e ∈ directTypes (.ofText t) (d.body s),
        s.start + d.block.inner.start ≤ (d.body s).start + e.block.opening ∧
          (d.body s).start + e.block.stop ≤ s.start + d.block.inner.stop) ∧
    (∀ o : OpenType, o ∈ openTypes (.ofText t) none (.whole t) ↔
      ∃ chain, Reached (.ofText t) chain o.outer ∧
        o.declaration ∈ directTypes (.ofText t) o.outer ∧
        o.scope = .ofDeclaration (pathOf? chain) o.declaration) ∧
    ((openTypes (.ofText t) none (.whole t)).map fun o => o.body.start).Nodup ∧
    ∀ r ∈ extract t, r.isMethod = true → ∃ f ∈ findings (.ofText t), ∃ chain s d,
      r = f.record (.ofText t) ∧ Reached (.ofText t) chain s ∧
      d ∈ directTypes (.ofText t) s ∧ f.stretch = d.body s ∧
      r.className = some (String.ofList (dottedNames (chain ++ [d]))) ∧
      s.start + d.block.inner.start ≤ f.stretch.start + f.method.extent.lineStart ∧
      f.stretch.start + f.method.extent.stop ≤ s.start + d.block.inner.stop ∧
      ∀ header ∈ typeHeaders (.ofText t) f.stretch, ∀ block,
        block? f.stretch.text header.stop = some block →
          ¬ (header.start ≤ f.method.header.start ∧ f.method.header.start < block.stop) := by
  refine ⟨?_, ?_, nodup_start_openTypes _ _ _, ?_⟩
  · intro chain s _
    refine ⟨?_, ?_, ?_⟩
    · intro d hd
      exact length_body_lt (mem_of_mem_directTypes hd)
    · exact (pairwise_directTypes _ s).imp And.right
    · intro d hd e he
      exact block_within_body (mem_of_mem_directTypes hd) (mem_of_mem_directTypes he)
  · intro o
    exact mem_openTypes_iff
  · intro r hr hmethod
    obtain ⟨f, hf, rfl⟩ := List.mem_map.1 hr
    obtain ⟨scope, hscope⟩ := Option.isSome_iff_exists.1 hmethod
    obtain ⟨o, ho, hstretch, rfl, hm⟩ := exists_openType_of_mem_findings hf hscope
    obtain ⟨chain, hs, hd, hpath⟩ := mem_openTypes_iff.1 ho
    obtain ⟨title, hfound⟩ := exists_found_of_mem_methods hm
    have hplace := hfound.place.stop_le
    have hbody : o.body.text.length = _ := (length_body (mem_of_mem_directTypes hd)).1
    have hinner := (length_body (mem_of_mem_directTypes hd)).2.2.1
    have hstart : o.body.start = o.outer.start + o.declaration.block.inner.start := rfl
    refine ⟨f, hf, chain, o.outer, o.declaration, rfl, hs, hd, hstretch, ?_, ?_, ?_, ?_⟩
    · rw [← path_ofDeclaration, ← hpath]
      simp only [Finding.record, Method.record, hscope, Option.map_some]
    · rw [hstretch]
      omega
    · rw [hstretch]
      omega
    · rw [hstretch]
      intro header hheader block hblock
      exact outside_types_of_mem_methods hm hheader hblock

end Glossator.Java
