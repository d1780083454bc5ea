import Glossator.Proofs.Java.RecordFields

/-!
# Return types as they are written

In a declaration, a return type may stand behind type parameters, and the declaration of a
constructor has no return type. The last word of what is read as a type is the return type of the
record, and a piece in angle brackets is such a word. So where no type follows them, the type
parameters themselves are taken for the return type, unless they hold a blank that no type can hold.

* `Java.Written`: type parameters and a return type behind the modifiers of a declaration.
* `Java.takenType?_eq_iff`: when what is taken for the return type is the type that is written.
* `Java.declaredType?_of_written`: what is taken for the return type of such a declaration.
* `Java.declared_of_mem_findings`: the return type and the signature of every record.
-/

set_option autoImplicit false

namespace Glossator.Java

variable {d x u v g w more : Text} {group type : Option Text} {c : Char}

/-! ### The words of a type -/

theorem separates_typeBrackets {depth : Int} : typeBrackets.separates depth c = true ↔
    isBlank c = true ∧ depth ≤ 0 := by
  simp [typeBrackets]

/-- A blank is no bracket. -/
theorem step_of_separates (depth : Int) (c : Char) (h : typeBrackets.separates depth c = true) :
    typeBrackets.step depth c = depth := by
  obtain ⟨hblank, -⟩ := separates_typeBrackets.1 h
  have hne (e : Char) (he : isBlank e = false) : c ≠ e := by
    rintro rfl
    exact Bool.false_ne_true (he.symm.trans hblank)
  have hopen : c ≠ '<' := hne _ (by decide)
  have hclose : c ≠ '>' := hne _ (by decide)
  exact Brackets.step_eq_self (by simpa [typeBrackets] using hopen)
    (by simpa [typeBrackets] using hclose)

/-- Where no bracket is open, a type is split at a blank. -/
theorem typeWords_append_cons (hu : typeBrackets.run 0 u = 0) (hc : isBlank c = true) (v : Text) :
    typeWords (u ++ c :: v) = typeWords u ++ typeWords v := by
  have hsep : typeBrackets.separates (typeBrackets.run 0 u) c = true :=
    separates_typeBrackets.2 ⟨hc, hu.le⟩
  rw [typeWords, Brackets.split_append_cons_of_separates step_of_separates hsep, List.filter_append,
    hu, typeWords, typeWords]

theorem typeWords_blanks_append (hmore : ∀ c ∈ more, isBlank c = true) (v : Text) :
    typeWords (more ++ v) = typeWords v := by
  induction more with
  | nil => rfl
  | cons c more ih =>
    have hcons := typeWords_append_cons (u := []) rfl (hmore c List.mem_cons_self) (more ++ v)
    rw [List.nil_append] at hcons
    rw [List.cons_append, hcons, ih fun d hd => hmore d (List.mem_cons_of_mem c hd)]
    rfl

/-- Blanks behind a type add no word to it. -/
theorem typeWords_append_blanks (hu : typeBrackets.run 0 u = 0)
    (hmore : ∀ c ∈ more, isBlank c = true) : typeWords (u ++ more) = typeWords u := by
  cases more with
  | nil => rw [List.append_nil]
  | cons c more =>
    have hblanks := typeWords_blanks_append (fun d hd => hmore d (List.mem_cons_of_mem c hd)) []
    rw [List.append_nil] at hblanks
    rw [typeWords_append_cons hu (hmore c List.mem_cons_self), hblanks]
    exact List.append_nil _

/-- The last word of a type. -/
def lastTypeWord? (w : Text) : Option Text := (typeWords w).getLast?

/-- A piece in angle brackets: its first character opens a bracket that its last one closes. -/
structure IsGroup (g : Text) : Prop where
  opens : g.head? = some '<'
  inside : ∀ n < g.length, 0 < n → 0 < typeBrackets.run 0 (g.take n)
  closes : typeBrackets.run 0 g = 0

/-- A return type, one word of which may be in angle brackets but not the first. -/
structure IsType (w : Text) : Prop where
  head : ∃ c ∈ w.head?, isBlank c = false ∧ c ≠ '<'
  last : ∀ c ∈ w.getLast?, isBlank c = false
  closed : typeBrackets.run 0 w = 0

theorem IsGroup.ne_nil (h : IsGroup g) : g ≠ [] := by
  rintro rfl
  cases h.opens

/-- The bracket is open wherever such a piece is cut. -/
theorem IsGroup.run_pos (h : IsGroup (u ++ v)) (hu : u ≠ []) (hv : v ≠ []) :
    0 < typeBrackets.run 0 u := by
  have hpos := List.length_pos_iff.2 hv
  have hcut := h.inside u.length (by rw [List.length_append]; omega) (List.length_pos_iff.2 hu)
  rwa [List.take_left] at hcut

/-- A piece in angle brackets is one word. -/
theorem IsGroup.typeWords_eq (h : IsGroup g) : typeWords g = [g] := by
  have hwhole : typeBrackets.Whole 0 g := by
    refine Brackets.whole_iff.2 fun u c v hg => ?_
    rw [hg] at h
    rw [← Bool.not_eq_true, separates_typeBrackets]
    rintro ⟨hblank, hdepth⟩
    cases u with
    | nil =>
      obtain rfl := Option.some.inj h.opens
      exact absurd hblank (by decide)
    | cons d u =>
      have := h.run_pos (List.cons_ne_nil d u) (List.cons_ne_nil c v)
      omega
  rw [typeWords, hwhole]
  simp [h.ne_nil]

/-- No blank stands at the end of a piece in angle brackets. -/
theorem IsGroup.last (h : IsGroup g) : ∀ c ∈ g.getLast?, isBlank c = false := by
  intro c hc
  obtain ⟨u, rfl⟩ := List.getLast?_eq_some_iff.1 hc
  by_contra hblank
  have hstep := h.closes
  cases u with
  | nil =>
    obtain rfl := Option.some.inj h.opens
    exact hblank (by decide)
  | cons d u =>
    have hpos := h.run_pos (List.cons_ne_nil d u) (List.cons_ne_nil c [])
    have hsame : typeBrackets.step (typeBrackets.run 0 (d :: u)) c =
        typeBrackets.run 0 (d :: u) := by
      refine Brackets.step_eq_self ?_ ?_
      · have hopen : c ≠ '<' := by
          rintro rfl
          exact hblank (by decide)
        simpa [typeBrackets] using hopen
      · have hclose : c ≠ '>' := by
          rintro rfl
          exact hblank (by decide)
        simpa [typeBrackets] using hclose
    rw [Brackets.run_append] at hstep
    change typeBrackets.step (typeBrackets.run 0 (d :: u)) c = 0 at hstep
    omega

theorem IsType.ne_nil (h : IsType w) : w ≠ [] := by
  obtain ⟨c, hc, -⟩ := h.head
  rintro rfl
  cases hc

/-- A type has a last word. -/
theorem IsType.exists_lastTypeWord (h : IsType w) : ∃ last, lastTypeWord? w = some last := by
  obtain ⟨c, hc, hblank, -⟩ := h.head
  cases hlast : lastTypeWord? w with
  | some last => exact ⟨last, rfl⟩
  | none =>
    have hnil := List.getLast?_eq_none_iff.1 hlast
    have hall := isBlank_of_typeWords_eq_nil hnil c (List.mem_of_mem_head? hc)
    exact absurd (hblank.symm.trans hall) Bool.false_ne_true

/-! ### Declarations as they are written -/

/-- Type parameters and a return type, each with blanks behind it and each perhaps left out. -/
structure Written (group type : Option Text) (x : Text) : Prop where
  text : ∃ between gap, (∀ c ∈ between, isBlank c = true) ∧ (∀ c ∈ gap, isBlank c = true) ∧
    (type.isSome → between ≠ []) ∧
    x = group.elim [] (· ++ between) ++ type.elim [] (· ++ gap)
  group : ∀ g ∈ group, IsGroup g
  type : ∀ w ∈ type, IsType w

/-- The blanks of a piece are all spaces. -/
def OnlySpaces (g : Text) : Bool := g.all fun c => !isBlank c || c = ' '

/-- What is taken for the return type of a declaration: the last word of its type, and without a
type the type parameters if the blanks in them are all spaces. -/
def takenType? : Option Text → Option Text → Option Text
  | _, some w => lastTypeWord? w
  | some g, none => if OnlySpaces g then some g else none
  | none, none => none

/-- Type parameters that cannot be taken for a type, and a type that is one word. -/
structure KeptApart (group type : Option Text) : Prop where
  group : type = none → ∀ g ∈ group, OnlySpaces g = false
  type : ∀ w ∈ type, typeBrackets.Whole 0 w

theorem lastTypeWord?_eq_iff (hw : w ≠ []) :
    lastTypeWord? w = some w ↔ typeBrackets.Whole 0 w := by
  constructor
  · intro h
    exact Brackets.whole_of_mem_split (List.mem_filter.1 (List.mem_of_getLast? h)).1
  · intro h
    rw [lastTypeWord?, typeWords, h]
    simp [hw]

/-- The type that is written is taken for the return type exactly if type parameters are not taken
for it and no word of it is left out. -/
theorem takenType?_eq_iff (htype : ∀ w ∈ type, w ≠ []) :
    takenType? group type = type ↔ KeptApart group type := by
  cases type with
  | some w =>
    have hlast := lastTypeWord?_eq_iff (htype w rfl)
    have hapart : KeptApart group (some w) ↔ typeBrackets.Whole 0 w :=
      ⟨fun h => h.type w rfl, fun h => ⟨nofun, fun v hv => Option.some.inj hv ▸ h⟩⟩
    exact hlast.trans hapart.symm
  | none =>
    have hapart : KeptApart group none ↔ ∀ g ∈ group, OnlySpaces g = false :=
      ⟨fun h => h.group rfl, fun h => ⟨fun _ => h, nofun⟩⟩
    rw [hapart]
    cases group with
    | none => simp [takenType?]
    | some g => simp [takenType?]

theorem isTypeChar_blank (h : isTypeChar c = true) (hblank : isBlank c = true) : c = ' ' := by
  have hne (e : Char) (he : isBlank e = false) : c ≠ e := by
    rintro rfl
    exact Bool.false_ne_true (he.symm.trans hblank)
  have hword : isWord c = false := by
    by_contra hword
    have := isBlank_eq_false_of_isWord (c := c) (by simpa using hword)
    simp [hblank] at this
  have h1 : c ≠ '<' := hne _ (by decide)
  have h2 : c ≠ '>' := hne _ (by decide)
  have h3 : c ≠ '[' := hne _ (by decide)
  have h4 : c ≠ ']' := hne _ (by decide)
  have h5 : c ≠ ',' := hne _ (by decide)
  have h6 : c ≠ '?' := hne _ (by decide)
  simpa [isTypeChar, hword, h1, h2, h3, h4, h5, h6] using h

/-- If a type with blanks behind it can be read, what is read is the type and some of the blanks. -/
theorem exists_typeText_append {gap : Text} (hall : (behindType (u ++ gap)).all isBlank = true)
    (hlast : ∀ c ∈ u.getLast?, isBlank c = false) (hgap : ∀ c ∈ gap, isBlank c = true) :
    ∃ more, typeText (u ++ gap) = u ++ more ∧ ∀ c ∈ more, isBlank c = true := by
  rcases List.append_eq_append_iff.1 (typeText_append_behindType (u ++ gap)) with
    ⟨more, hu, hbehind⟩ | ⟨more, htext, hgap'⟩
  · cases hmore : more.getLast? with
    | none =>
      rw [List.getLast?_eq_none_iff.1 hmore, List.append_nil] at hu
      exact ⟨[], by rw [List.append_nil, ← hu], List.forall_mem_nil _⟩
    | some c =>
      have hmem : c ∈ behindType (u ++ gap) := by
        rw [hbehind]
        exact List.mem_append_left gap (List.mem_of_getLast? hmore)
      have hc := hlast c (by
        conv_lhs => rw [hu]
        rw [List.getLast?_append, hmore]
        rfl)
      exact absurd (hc.symm.trans (List.all_eq_true.1 hall c hmem)) Bool.false_ne_true
  · exact ⟨more, htext, fun c hc => hgap c (hgap' ▸ List.mem_append_left _ hc)⟩

/-- Behind a type that is read the blanks do not matter. -/
theorem lastTypeWord?_typeText {gap : Text} (hw : IsType w) (hgap : ∀ c ∈ gap, isBlank c = true)
    (hall : (behindType (w ++ gap)).all isBlank = true) :
    lastTypeWord? (typeText (w ++ gap)) = lastTypeWord? w := by
  obtain ⟨more, htext, hmore⟩ := exists_typeText_append hall hw.last hgap
  rw [htext, lastTypeWord?, typeWords_append_blanks hw.closed hmore, lastTypeWord?]

/-- A text that starts with a piece in angle brackets, and in which type parameters are read, starts
with these. -/
theorem ReadsParameters.group_eq {inner gap rest y : Text}
    (h : ReadsParameters (g ++ y) inner gap rest) (hg : IsGroup g) :
    g = '<' :: (inner ++ ['>']) ∧ y = gap ++ rest := by
  have hplain : typeBrackets.Plain 1 inner := by
    intro c hc
    have hchar := h.inner_chars c hc
    have hne (e : Char) (he : isParameterChar e = false) : c ≠ e := by
      rintro rfl
      exact Bool.false_ne_true (he.symm.trans hchar)
    have hopen : c ≠ '<' := hne _ (by decide)
    have hclose : c ≠ '>' := hne _ (by decide)
    simp [typeBrackets, hopen, hclose]
  have hopened (v : Text) (hv : v <+: inner) : typeBrackets.run 0 ('<' :: v) = 1 :=
    Brackets.run_eq_self fun c hc => hplain c (hv.mem hc)
  have hclosed : typeBrackets.run 0 ('<' :: (inner ++ ['>'])) = 0 := by
    have hrun := Brackets.run_append (b := typeBrackets) 0 ('<' :: inner) ['>']
    rw [hopened inner (List.prefix_refl inner)] at hrun
    exact hrun
  have htext : g ++ y = '<' :: (inner ++ ['>']) ++ (gap ++ rest) := by
    rw [h.text]
    simp
  rcases List.append_eq_append_iff.1 htext with ⟨more, hlong, hy⟩ | ⟨more, hlong, hy⟩
  · cases more with
    | nil =>
      rw [List.append_nil] at hlong
      exact ⟨hlong.symm, hy⟩
    | cons e more =>
      -- the piece would end before the bracket that closes it
      obtain ⟨v, hv⟩ := List.head?_eq_some_iff.1 hg.opens
      rw [hv, List.cons_append, List.cons.injEq] at hlong
      obtain ⟨front, last, hfront⟩ : ∃ front last, e :: more = front ++ [last] :=
        ⟨_, _, (List.dropLast_append_getLast (List.cons_ne_nil e more)).symm⟩
      rw [hfront, ← List.append_assoc] at hlong
      have hinner := (List.append_inj' hlong.2 rfl).1
      have hzero := hg.closes
      rw [hv, hopened v ⟨front, hinner.symm⟩] at hzero
      exact absurd hzero (by decide)
  · cases more with
    | nil =>
      rw [List.append_nil] at hlong
      exact ⟨hlong, hy.symm⟩
    | cons e more =>
      rw [hlong] at hg
      have hpos := hg.run_pos (by simp) (List.cons_ne_nil e more)
      rw [hclosed] at hpos
      exact absurd hpos (lt_irrefl 0)

/-- What follows type parameters and blanks starts behind all of these. -/
theorem rest_eq_of_blanks {between gap rest y : Text} (h : between ++ y = gap ++ rest)
    (hbetween : ∀ c ∈ between, isBlank c = true) (hgap : ∀ c ∈ gap, isBlank c = true)
    (hy : ∀ c ∈ y.head?, isBlank c = false) (hrest : ∀ c ∈ rest.head?, isBlank c = false) :
    y = rest := by
  have hself {z : Text} (hz : ∀ c ∈ z.head?, isBlank c = false) : Text.trimStart z = z := by
    cases z with
    | nil => rfl
    | cons c z => exact List.dropWhile_cons_of_neg (by simp [hz c rfl])
  have htrim := congrArg Text.trimStart h
  rwa [Text.trimStart_blanks_append hbetween, Text.trimStart_blanks_append hgap, hself hy,
    hself hrest] at htrim

theorem IsType.isBlank_head? (h : IsType w) (y : Text) :
    ∀ c ∈ (w ++ y).head?, isBlank c = false := by
  obtain ⟨c, hc, hblank, -⟩ := h.head
  intro d hd
  rw [List.head?_append_of_ne_nil _ h.ne_nil, Option.mem_def.1 hc] at hd
  rwa [← Option.some.inj hd]

/-- A readable text that starts with a piece in angle brackets is read as a type as a whole, or the
piece is read as type parameters. -/
theorem IsGroup.typePart_cases {y : Text} (hg : IsGroup g) (hread : IsReadable (g ++ y)) :
    (behindType (g ++ y)).all isBlank = true ∧ typePart (g ++ y) = g ++ y ∨
      (behindType (g ++ y)).all isBlank ≠ true ∧ ∃ inner gap,
        ReadsParameters (g ++ y) inner gap (typePart (g ++ y)) := by
  by_cases hall : (behindType (g ++ y)).all isBlank = true
  · exact .inl ⟨hall, by rw [typePart, if_pos hall]⟩
  · rcases hread with hnil | ⟨type, gap, hread⟩ | ⟨inner, gap, rest, hread⟩
    · exact absurd (List.append_eq_nil_iff.1 hnil).1 hg.ne_nil
    · exact absurd hread.all hall
    · refine .inr ⟨hall, inner, gap, ?_⟩
      rwa [typePart, if_neg hall, hread.behindTypeParameters]

/-- The characters of type parameters belong to a type unless they are blanks other than spaces. -/
theorem isTypeChar_of_parameters {inner : Text} (hinner : ∀ c ∈ inner, isParameterChar c = true)
    (hspaces : OnlySpaces ('<' :: (inner ++ ['>'])) = true) :
    ∀ c ∈ '<' :: (inner ++ ['>']), isTypeChar c = true := by
  intro c hc
  have hblank := List.all_eq_true.1 hspaces c hc
  simp only [List.mem_cons, List.mem_append, List.not_mem_nil, or_false] at hc
  rcases hc with rfl | hc | rfl
  · decide
  · have hchar := hinner c hc
    simp only [isParameterChar, isTypeChar, Bool.or_eq_true, Bool.not_eq_true',
      decide_eq_true_eq] at hchar hblank ⊢
    rcases hblank with hblank | hspace
    · simp only [hblank, Bool.false_eq_true] at hchar
      tauto
    · tauto
  · decide

/-- Type parameters without a type are taken for the type, unless they hold another blank than a
space. -/
theorem declaredText?_of_group {between : Text} (hg : IsGroup g)
    (hbetween : ∀ c ∈ between, isBlank c = true) (hread : IsReadable (g ++ between)) :
    (typeText? (typePart (g ++ between))).bind lastTypeWord? = takenType? (some g) none := by
  rcases hg.typePart_cases hread with ⟨hall, hpart⟩ | ⟨hall, inner, gap, hread⟩
  · obtain ⟨more, htext, hmore⟩ := exists_typeText_append hall hg.last hbetween
    have hspaces : OnlySpaces g = true := by
      refine List.all_eq_true.2 fun c hc => ?_
      have hmem : c ∈ typeText (g ++ between) := by
        rw [htext]
        exact List.mem_append_left more hc
      have htype : isTypeChar c = true := List.mem_takeWhile_imp hmem
      cases hblank : isBlank c with
      | false => rfl
      | true => simp [isTypeChar_blank htype hblank]
    rw [hpart, typeText?, if_neg (by simp [hg.ne_nil]), htext, Option.bind_some, lastTypeWord?,
      typeWords_append_blanks hg.closes hmore, hg.typeWords_eq, takenType?, if_pos hspaces]
    rfl
  · obtain ⟨hinner, hgap⟩ := hread.group_eq hg
    have hrest : typePart (g ++ between) = [] := by
      refine (rest_eq_of_blanks (y := []) ?_ hbetween hread.gap_blank (by simp)
        hread.rest_head).symm
      rwa [List.append_nil]
    have hspaces : OnlySpaces g = false := by
      by_contra hspaces
      rw [Bool.not_eq_false, hinner] at hspaces
      have htype := isTypeChar_of_parameters hread.inner_chars hspaces
      rw [← hinner] at htype
      have hne : between ≠ [] := by
        rw [hgap]
        simp [hread.gap_ne]
      exact hall (ReadsType.all ⟨rfl, hg.ne_nil, htype, hne, hbetween⟩)
    rw [hrest, takenType?, hspaces]
    rfl

/-- Behind type parameters the last word of the type is taken. -/
theorem declaredText?_of_group_of_type {between gap : Text} (hg : IsGroup g) (hw : IsType w)
    (hbetween : ∀ c ∈ between, isBlank c = true) (hne : between ≠ [])
    (hgap : ∀ c ∈ gap, isBlank c = true) (hread : IsReadable (g ++ (between ++ (w ++ gap)))) :
    (typeText? (typePart (g ++ (between ++ (w ++ gap))))).bind lastTypeWord? =
      lastTypeWord? w := by
  obtain ⟨last, hlast⟩ := hw.exists_lastTypeWord
  rcases hg.typePart_cases hread with ⟨hall, hpart⟩ | ⟨-, inner, gap', hread⟩
  · have hlist : g ++ (between ++ (w ++ gap)) = g ++ between ++ w ++ gap := by simp
    rw [hlist] at hall hpart ⊢
    have hlastChar : ∀ c ∈ (g ++ between ++ w).getLast?, isBlank c = false := by
      rw [List.getLast?_append_of_ne_nil _ hw.ne_nil]
      exact hw.last
    obtain ⟨more, htext, hmore⟩ := exists_typeText_append hall hlastChar hgap
    obtain ⟨c, between, rfl⟩ := List.exists_cons_of_ne_nil hne
    obtain ⟨hc, hblanks⟩ := List.forall_mem_cons.1 hbetween
    have hwords : typeWords (g ++ (c :: between) ++ w ++ more) = typeWords g ++ typeWords w := by
      have hsplit : g ++ (c :: between) ++ w ++ more = g ++ c :: (between ++ (w ++ more)) := by simp
      rw [hsplit, typeWords_append_cons hg.closes hc, typeWords_blanks_append hblanks,
        typeWords_append_blanks hw.closed hmore]
    rw [hpart, typeText?, if_neg (by simp [hg.ne_nil]), htext, Option.bind_some, lastTypeWord?,
      hwords, List.getLast?_append]
    change (lastTypeWord? w).or _ = _
    rw [hlast, Option.some_or]
  · obtain ⟨-, hsplit⟩ := hread.group_eq hg
    have hrest : w ++ gap = typePart (g ++ (between ++ (w ++ gap))) :=
      rest_eq_of_blanks hsplit hbetween hread.gap_blank (hw.isBlank_head? gap) hread.rest_head
    have hall : (behindType (w ++ gap)).all isBlank = true := by
      rcases hread.rest_read with hnil | ⟨_, _, htype⟩
      · rw [← hrest] at hnil
        exact absurd (List.append_eq_nil_iff.1 hnil).1 hw.ne_nil
      · rw [← hrest] at htype
        exact htype.all
    rw [← hrest, typeText?, if_neg (by simp [hw.ne_nil]), Option.bind_some]
    exact lastTypeWord?_typeText hw hgap hall

/-- A type that stands alone is taken for the type. -/
theorem declaredText?_of_type {gap : Text} (hw : IsType w) (hgap : ∀ c ∈ gap, isBlank c = true)
    (hread : IsReadable (w ++ gap)) :
    (typeText? (typePart (w ++ gap))).bind lastTypeWord? = lastTypeWord? w := by
  have hne : w ++ gap ≠ [] := by simp [hw.ne_nil]
  have hall : (behindType (w ++ gap)).all isBlank = true := by
    rcases hread with hnil | ⟨_, _, hread⟩ | ⟨_, _, _, hread⟩
    · exact absurd hnil hne
    · exact hread.all
    · obtain ⟨c, hc, -, hopen⟩ := hw.head
      have hhead := congrArg List.head? hread.text
      rw [List.head?_append_of_ne_nil _ hw.ne_nil, Option.mem_def.1 hc] at hhead
      exact absurd (Option.some.inj hhead) hopen
  rw [typePart, if_pos hall, typeText?, if_neg hne, Option.bind_some]
  exact lastTypeWord?_typeText hw hgap hall

/-- In a declaration the last word of the type is taken for the return type, and without a type the
type parameters if the blanks in them are all spaces. -/
theorem declaredType?_of_written (h : Written group type (behindModifiers d))
    (hread : IsReadable (behindModifiers d)) : declaredType? d = takenType? group type := by
  obtain ⟨between, gap, hbetween, hgap, hapart, hx⟩ := h.text
  change (typeText? (typePart (behindModifiers d))).bind lastTypeWord? = _
  rw [hx] at hread ⊢
  cases group with
  | none =>
    cases type with
    | none => rfl
    | some w => exact declaredText?_of_type (h.type w rfl) hgap hread
  | some g =>
    have hg := h.group g rfl
    cases type with
    | none =>
      rw [Option.elim_none, List.append_nil] at hread ⊢
      exact declaredText?_of_group hg hbetween hread
    | some w =>
      rw [Option.elim_some, Option.elim_some, List.append_assoc] at hread ⊢
      exact declaredText?_of_group_of_type hg (h.type w rfl) hbetween (hapart rfl) hgap hread

/-! ### Records -/

section

variable {src : Source} {f : Finding}

/-- The text between the annotations of a found method and its name. -/
def Finding.declaration (f : Finding) : Text :=
  f.method.header.text f.stretch.text .declaration

/-- A name with parameters. -/
def calledText (name parameters : Text) : Text :=
  name ++ '(' :: (Text.join [',', ' '] (splitParameters parameters) ++ [')'])

/-- The name of a found method with its parameters. -/
def Finding.call (f : Finding) : Text :=
  calledText (f.method.header.text f.stretch.text .name)
    (f.method.header.text f.stretch.text .parameters)

/-- A signature: the return type, if there is one, and what is called. -/
def signature (returnType : Option Text) (call : Text) : Text :=
  returnType.elim call (· ++ ' ' :: call)

/-- The return type of a record is some type, and its signature is this type with what is called. -/
structure Shows (r : FunctionRecord) (type : Option Text) (call : Text) : Prop where
  returnType : r.returnType = type.map String.ofList
  signature : r.signature = String.ofList (signature type call)

/-- The record of a method has the return type that is read from its declaration. -/
theorem declared_of_mem_findings (h : f ∈ findings src) :
    IsReadable (behindModifiers f.declaration) ∧
      Shows (f.record src) (declaredType? f.declaration) f.call := by
  obtain ⟨chain, -, -, hm⟩ := exists_reached_of_mem_findings h
  obtain ⟨title, hfound⟩ := exists_found_of_mem_methods hm
  obtain ⟨hlen, hmatch⟩ := hfound.matchAt?
  obtain ⟨hreadable, htype⟩ := declared_of_matchAt? hlen hmatch
  have hreturn : ((f.method.header.text? f.stretch.text .returnType).bind fun t =>
      (typeWords t).getLast?) = declaredType? f.declaration := by
    rw [htype]
    rfl
  refine ⟨hreadable, ⟨?_, ?_⟩⟩
  · simp only [Finding.record, Method.record, hreturn]
  · simp only [Finding.record, Method.record, hreturn]
    cases declaredType? f.declaration <;> rfl

end

end Glossator.Java
