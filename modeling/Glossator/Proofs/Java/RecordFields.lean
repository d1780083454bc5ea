import Glossator.Proofs.Java.Brackets
import Glossator.Proofs.Java.DeclaredType
import Glossator.Proofs.Java.Forest

/-!
# The fields of records

A header is accepted only if it declares something, and its record is made of what its parts hold.
This module says what follows for the fields of every record, whatever the text.

* `Java.records_wellFormed`: the fields of every record agree with each other.
-/

set_option autoImplicit false

namespace Glossator.Java

/-- The fields of a record with a name agree with each other; `ofInterface` says that the record is
one of an interface. -/
structure WellFormed (ofInterface : Bool) (name : String) (r : FunctionRecord) : Prop where
  name_eq : r.name = some name
  isMethod : r.isMethod = r.className.isSome
  qualifiedName : r.qualifiedName = some (match r.className with
    | some path => path ++ "." ++ name
    | none => name)
  isConstructor : r.isConstructor = true ↔ ∃ path, r.className = some path ∧
    (Text.splitAt (· = '.') path.toList).getLast? = some name.toList
  returnType_none : r.returnType = none → r.isMethod = true ∧ r.isConstructor = true
  name_free : name.toList ∉ reservedNames
  returnType_free : ∀ type ∈ r.returnType, ∀ w ∈ returnTypeWords type.toList,
    w ∉ statementStarts ∧ w ∉ reservedNames
  modifiers_nodup : r.modifiers.Nodup
  modifiers_mem : ∀ w ∈ r.modifiers, w ∈ methodModifiers
  visibility : r.visibility =
    some ((["public", "private", "protected"].find? r.modifiers.contains).getD "package-private")
  bodyless : ofInterface = true → r.hasBody = false →
    ∃ w ∈ ["abstract", "default", "static"], w ∈ r.modifiers

/-! ### Types -/

/-- No blank is alphanumeric. -/
theorem isAlphanumeric_eq_false_of_isBlank {c : Char} (h : isBlank c = true) :
    isAlphanumeric c = false :=
  eq_false_of_isBlank (by decide +kernel) h

/-- The words of a piece of a type are words of the type. -/
theorem returnTypeWords_subset {depth : Int} {t type : Text}
    (h : type ∈ typeBrackets.split depth t) : returnTypeWords type ⊆ returnTypeWords t := by
  induction hn : t.length using Nat.strong_induction_on generalizing depth t with
  | _ n ih =>
    rcases typeBrackets.split_cases depth t with hone | ⟨w, c, rest, rfl, -, hc, hmore⟩
    · rw [hone, List.mem_singleton] at h
      rw [h]
      exact List.Subset.refl _
    · have hblank : isBlank c = true := by
        simp only [typeBrackets, Bool.and_eq_true] at hc
        exact hc.1
      have hsplit :
          returnTypeWords (w ++ c :: rest) = returnTypeWords w ++ returnTypeWords rest := by
        apply Text.splitAt_append_cons
        have hunderscore : c ≠ '_' := by
          rintro rfl
          exact absurd hblank (by decide)
        simp [isAlphanumeric_eq_false_of_isBlank hblank, hunderscore]
      rw [hsplit]
      rw [hmore] at h
      rcases List.mem_cons.1 h with rfl | h
      · exact List.subset_append_left _ _
      · have hlt : rest.length < n := by
          rw [← hn]
          simp
          omega
        exact List.Subset.trans (ih rest.length hlt h rfl) (List.subset_append_right _ _)

/-- A type without words is made of blanks. -/
theorem isBlank_of_typeWords_eq_nil {t : Text} (h : typeWords t = []) :
    ∀ c ∈ t, isBlank c = true := by
  have hempty (depth : Int) (t : Text) (h : ∀ piece ∈ typeBrackets.split depth t, piece = []) :
      ∀ c ∈ t, isBlank c = true := by
    induction hn : t.length using Nat.strong_induction_on generalizing depth t with
    | _ n ih =>
      rcases typeBrackets.split_cases depth t with hone | ⟨w, c, rest, rfl, -, hc, hmore⟩
      · rw [h t (by simp [hone])]
        simp
      · rw [hmore] at h
        have hw := h w List.mem_cons_self
        have hrest := ih rest.length (by rw [← hn]; simp; omega) _ rest
          (fun piece hpiece => h piece (List.mem_cons_of_mem _ hpiece)) rfl
        have hblank : isBlank c = true := by
          simp only [typeBrackets, Bool.and_eq_true] at hc
          exact hc.1
        intro d hd
        rw [hw, List.nil_append, List.mem_cons] at hd
        rcases hd with rfl | hd
        · exact hblank
        · exact hrest d hd
  apply hempty 0
  intro piece hpiece
  by_contra hne
  have hmem : piece ∈ typeWords t := List.mem_filter.2 ⟨hpiece, by simpa using hne⟩
  rw [h] at hmem
  exact List.not_mem_nil hmem

/-! ### Modifiers -/

/-- Repetitions are left out, and nothing else is. -/
theorem distinct_induction (words : List Text) :
    (distinct words).Nodup ∧ ∀ w ∈ distinct words, w ∈ words := by
  have hfold (seen words : List Text) (hseen : seen.Nodup) :
      (words.foldl (fun seen w => if seen.contains w then seen else seen ++ [w]) seen).Nodup ∧
        ∀ w ∈ words.foldl (fun seen w => if seen.contains w then seen else seen ++ [w]) seen,
          w ∈ seen ∨ w ∈ words := by
    induction words generalizing seen with
    | nil => exact ⟨hseen, fun w hw => .inl hw⟩
    | cons w words ih =>
      rw [List.foldl_cons]
      by_cases hw : seen.contains w = true
      · rw [if_pos hw]
        obtain ⟨hnodup, hmem⟩ := ih seen hseen
        refine ⟨hnodup, fun v hv => (hmem v hv).imp_right ?_⟩
        exact List.mem_cons_of_mem w
      · rw [if_neg hw]
        have hnew : (seen ++ [w]).Nodup := by
          rw [List.nodup_append]
          refine ⟨hseen, List.nodup_singleton w, ?_⟩
          rintro v hv _ hw' rfl
          rw [List.mem_singleton.1 hw'] at hv
          exact hw (List.contains_iff_mem.2 hv)
        obtain ⟨hnodup, hmem⟩ := ih (seen ++ [w]) hnew
        refine ⟨hnodup, fun v hv => ?_⟩
        rcases hmem v hv with hv | hv
        · rcases List.mem_append.1 hv with hv | hv
          · exact .inl hv
          · rw [List.mem_singleton.1 hv]
            exact .inr List.mem_cons_self
        · exact .inr (List.mem_cons_of_mem w hv)
  obtain ⟨hnodup, hmem⟩ := hfold [] words List.nodup_nil
  exact ⟨hnodup, fun w hw => (hmem w hw).resolve_left List.not_mem_nil⟩

/-- The modifiers understood in an interface are added without repetition. -/
theorem effectiveModifiers_cases (scope : Option Scope) (hasBody : Bool) {written : List String}
    (hnodup : written.Nodup) (hmem : ∀ w ∈ written, w ∈ methodModifiers) :
    (effectiveModifiers scope hasBody written).Nodup ∧
      (∀ w ∈ effectiveModifiers scope hasBody written, w ∈ methodModifiers) ∧
      (scope.any (·.kind == .interface) = true → hasBody = false →
        ∃ w ∈ ["abstract", "default", "static"],
          w ∈ effectiveModifiers scope hasBody written) := by
  obtain ⟨stated, hstated, hstatedNodup, hstatedMem⟩ : ∃ stated,
      (if written.isEmpty then ["public", "abstract"] else written) = stated ∧ stated.Nodup ∧
        ∀ w ∈ stated, w ∈ methodModifiers := by
    refine ⟨_, rfl, ?_⟩
    split
    · exact ⟨by decide, by decide⟩
    · exact ⟨hnodup, hmem⟩
  unfold effectiveModifiers
  rw [hstated]
  split
  · next hinterface =>
    by_cases hany : ["default", "static", "abstract"].any stated.contains = true
    · simp only [hany, Bool.not_true, Bool.and_false, Bool.false_eq_true, if_false]
      refine ⟨hstatedNodup, hstatedMem, fun _ _ => ?_⟩
      obtain ⟨w, hw, hcontains⟩ := List.any_eq_true.1 hany
      refine ⟨w, ?_, List.contains_iff_mem.1 hcontains⟩
      simp only [List.mem_cons, List.not_mem_nil, or_false] at hw ⊢
      tauto
    · cases hasBody with
      | true =>
        simp only [Bool.not_true, Bool.false_and, Bool.false_eq_true, if_false]
        exact ⟨hstatedNodup, hstatedMem, fun _ h => by cases h⟩
      | false =>
        simp only [hany, Bool.not_false, Bool.and_self, if_true]
        have hnew : "abstract" ∉ stated := by
          intro habstract
          apply hany
          rw [List.any_eq_true]
          exact ⟨"abstract", by simp, List.contains_iff_mem.2 habstract⟩
        refine ⟨?_, ?_, fun _ _ => ⟨"abstract", by simp, by simp⟩⟩
        · rw [List.nodup_append]
          refine ⟨hstatedNodup, List.nodup_singleton _, ?_⟩
          rintro v hv _ hw rfl
          exact hnew (List.mem_singleton.1 hw ▸ hv)
        · intro w hw
          rcases List.mem_append.1 hw with hw | hw
          · exact hstatedMem w hw
          · rw [List.mem_singleton.1 hw]
            decide
  · next hinterface =>
    exact ⟨hnodup, hmem, fun h => absurd h hinterface⟩

/-! ### Names -/

/-- The last component of the path of a type is its name. -/
theorem getLast?_splitAt_path {src : Source} {f : Finding} (h : f ∈ findings src) {scope : Scope}
    (hscope : f.scope = some scope) :
    (Text.splitAt (· = '.') scope.path).getLast? = some scope.name := by
  obtain ⟨o, ho, -, rfl, -⟩ := exists_openType_of_mem_findings h hscope
  obtain ⟨chain, -, hd, heq⟩ := mem_openTypes_iff.1 ho
  obtain ⟨m, keyword, title, hdeclared⟩ := exists_declared (mem_of_mem_directTypes hd)
  -- a name is a word, so there is no dot in it
  have hname : Text.splitAt (· = '.') o.declaration.name = [o.declaration.name] := by
    apply Text.splitAt_eq_singleton
    intro c hc
    rw [hdeclared.name] at hc
    have hword := hdeclared.shape.title_text c hc
    rw [decide_eq_false_iff_not]
    rintro rfl
    exact absurd hword (by decide)
  rw [heq]
  cases pathOf? chain with
  | none => simp [Scope.ofDeclaration, hname]
  | some path =>
    simp only [Scope.ofDeclaration]
    rw [Text.splitAt_append_cons (by decide), hname, List.getLast?_append_cons]
    rfl

/-- A file with types has only methods that belong to one, a file without has none. -/
theorem scope_of_mem_findings (src : Source) :
    (∀ f ∈ findings src, f.scope.isSome = true) ∨ ∀ f ∈ findings src, f.scope = none := by
  unfold findings
  by_cases htypes : (typeHeaders src (.whole src.text)).isEmpty = true
  · right
    intro f hf
    simp only [htypes, if_true] at hf
    obtain ⟨m, -, rfl⟩ := List.mem_map.1 hf
    rfl
  · left
    intro f hf
    simp only [htypes, Bool.false_eq_true, if_false] at hf
    obtain ⟨o, -, hf⟩ := List.mem_flatMap.1 hf
    obtain ⟨m, -, rfl⟩ := List.mem_map.1 hf
    rfl

/-! ### Records -/

section

variable {src : Source} {scope : Option Scope} {s : Stretch} {types : List Span} {m : Method}
  {title : Span}

theorem Found.matchAt? (h : Found src scope s types m title) : m.header.start ≤ s.text.length ∧
    methodHeader.matchAt? s.text m.header.start = some m.header := by
  obtain ⟨offset, hfind⟩ := h.find
  obtain ⟨-, hlen, hmatch, -⟩ := Finder.find?_eq_some_iff.1 hfind
  exact ⟨hlen, hmatch⟩

/-- What it means that the header of a method declares something. -/
theorem Found.declares (h : Found src scope s types m title) :
    m.header.text s.text .name ∉ reservedNames ∧
      (∀ type, m.header.text? s.text .returnType = some type →
        ∀ w ∈ returnTypeWords type, w ∉ statementStarts ∧ w ∉ reservedNames) ∧
      (m.header.text? s.text .returnType = none →
        scope.any (·.name == m.header.text s.text .name) = true) := by
  have hown := h.own
  simp only [isOwnMethod, isDeclaration, Bool.and_eq_true, Bool.not_eq_true'] at hown
  obtain ⟨-, ⟨hname, -⟩, htype⟩ := hown
  refine ⟨by simpa using hname, ?_, ?_⟩
  · intro type heq w hw
    rw [heq] at htype
    simp only [Bool.not_eq_true', List.any_eq_false, Bool.or_eq_true, List.contains_iff_mem,
      not_or] at htype
    exact htype w hw
  · intro heq
    rwa [heq] at htype

theorem Found.wellFormed (h : Found src scope s types m title)
    (hpath : ∀ sc, scope = some sc →
      (Text.splitAt (· = '.') sc.path).getLast? = some sc.name) :
    WellFormed (scope.any (·.kind == .interface)) (String.ofList (m.header.text s.text .name))
      (m.record src scope s) := by
  obtain ⟨hlen, hmatch⟩ := h.matchAt?
  obtain ⟨hname, htype, hconstructor⟩ := h.declares
  have hwritten : ((distinct (Text.words (m.header.text s.text .modifiers))).map
      String.ofList).Nodup := by
    refine (distinct_induction _).1.map ?_
    intro v w heq
    exact String.ofList_injective heq
  have hmodifiers : ∀ w ∈ (distinct (Text.words (m.header.text s.text .modifiers))).map
      String.ofList, w ∈ methodModifiers := by
    intro w hw
    obtain ⟨v, hv, rfl⟩ := List.mem_map.1 hw
    obtain ⟨u, hu, rfl⟩ :=
      List.mem_map.1 (words_modifiers_subset hlen hmatch v ((distinct_induction _).2 v hv))
    rwa [String.ofList_toList]
  obtain ⟨hnodup, hmem, hbodyless⟩ :=
    effectiveModifiers_cases scope m.extent.hasBody hwritten hmodifiers
  refine
    { name_eq := rfl
      isMethod := by simp [Method.record]
      qualifiedName := ?qualifiedName
      isConstructor := ?isConstructor
      returnType_none := ?returnType_none
      name_free := by simpa using hname
      returnType_free := ?returnType_free
      modifiers_nodup := hnodup
      modifiers_mem := hmem
      visibility := rfl
      bodyless := hbodyless }
  case qualifiedName =>
    cases scope with
    | none => rfl
    | some scope =>
      simp [Method.record, ← String.toList_inj]
  case isConstructor =>
    cases scope with
    | none => simp [Method.record]
    | some scope =>
      have hlast := hpath scope rfl
      simp only [Method.record, Option.any_some, beq_iff_eq, Option.map_some, Option.some.injEq]
      constructor
      · intro heq
        exact ⟨_, rfl, by rw [String.toList_ofList, hlast, String.toList_ofList, heq]⟩
      · rintro ⟨_, rfl, heq⟩
        rw [String.toList_ofList, hlast, String.toList_ofList] at heq
        exact Option.some.inj heq
  case returnType_none =>
    intro hnone
    simp only [Method.record, Option.map_eq_none_iff, Option.bind_eq_none_iff] at hnone
    cases hread : m.header.text? s.text .returnType with
    | none =>
      have hname := hconstructor hread
      refine ⟨?_, hname⟩
      cases scope with
      | none => simp at hname
      | some scope => rfl
    | some type =>
      -- a type without words would be blank
      have hnil := List.getLast?_eq_none_iff.1 (hnone type hread)
      obtain ⟨c, hc, hblank⟩ := exists_not_blank_of_returnType hlen hmatch hread
      exact absurd ((isBlank_of_typeWords_eq_nil hnil c hc).symm.trans hblank) (by decide)
  case returnType_free =>
    intro type htypeMem w hw
    simp only [Method.record, Option.mem_def, Option.map_eq_some_iff, Option.bind_eq_some_iff]
      at htypeMem
    obtain ⟨last, ⟨whole, hread, hlast⟩, rfl⟩ := htypeMem
    have hpiece := (List.mem_filter.1 (List.mem_of_getLast? hlast)).1
    rw [String.toList_ofList] at hw
    exact htype whole hread w (returnTypeWords_subset hpiece hw)

end

/-- The fields of every record agree with each other, and either all methods of a file belong to a
type or none does. -/
theorem records_wellFormed (t : Text) :
    extract t = (findings (.ofText t)).map (Finding.record (.ofText t)) ∧
      ((∀ r ∈ extract t, r.isMethod = true ∧ r.className.isSome = true) ∨
        ∀ r ∈ extract t, r.isMethod = false ∧ r.className = none) ∧
      ∀ f ∈ findings (.ofText t), ∃ name,
        WellFormed (f.scope.any (·.kind == .interface)) name (f.record (.ofText t)) := by
  refine ⟨rfl, ?_, ?_⟩
  · rcases scope_of_mem_findings (.ofText t) with hall | hnone
    · left
      intro r hr
      obtain ⟨f, hf, rfl⟩ := List.mem_map.1 hr
      have hscope := hall f hf
      exact ⟨hscope, by simpa [Finding.record, Method.record] using hscope⟩
    · right
      intro r hr
      obtain ⟨f, hf, rfl⟩ := List.mem_map.1 hr
      have hscope := hnone f hf
      simp [Finding.record, Method.record, hscope]
  · intro f hf
    obtain ⟨chain, -, -, hm⟩ := exists_reached_of_mem_findings hf
    obtain ⟨title, hfound⟩ := exists_found_of_mem_methods hm
    exact ⟨_, hfound.wellFormed fun sc hsc => getLast?_splitAt_path hf hsc⟩

end Glossator.Java
