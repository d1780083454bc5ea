import Glossator.Proofs.Pattern.Greedy
import Glossator.Proofs.Pattern.Search
import Glossator.Proofs.Text.LineEnds

/-!
# Patterns over texts with returns

A text and the same text with a carriage return before each newline are matched side by side. Every
place of the text is also one of the text with the returns; that text has one more place for each
newline, the one past the return. A pattern may get to such places, as a run of blanks does, as long
as what follows finds nothing from there that it does not find past the newline as well.

* `Pattern.Keeps`, `Pattern.Carries`: what a pattern finds is the same with the returns, whatever
  follows, or if what follows finds nothing new past a return.
* `Pattern.Settles`, `Pattern.StaysOut`: what a pattern does past a return.
* `Pattern.Glides`: patterns that read the return and the newline one after the other.
-/

set_option autoImplicit false

namespace Glossator

namespace Text

variable {t : Text} {i : Nat}

/-- With the returns the same character or a return stands at a place. -/
theorem getElem?_crlfOffset (t : Text) (i : Nat) :
    (crlf t)[t.crlfOffset i]? = t[i]?.map fun c => if c = '\n' then '\r' else c := by
  rw [← List.head?_drop, ← crlf_drop, head?_crlf, List.head?_drop]

theorem getElem?_pastReturn (h : t[i]? = some '\n') :
    (crlf t)[t.crlfOffset i + 1]? = some '\n' := by
  have hdrop : t.drop i = '\n' :: t.drop (i + 1) := by
    obtain ⟨hlt, hget⟩ := List.getElem?_eq_some_iff.1 h
    rw [List.drop_eq_getElem_cons hlt, hget]
  rw [← List.getElem?_drop, ← crlf_drop, hdrop]
  rfl

end Text

namespace Cursor

variable {t : Text} {i : Nat} {c : Char}

/-- A place of a text, in the text with the returns. -/
def crlf (t : Text) (i : Nat) : Cursor := .inText (Text.crlf t) (t.crlfOffset i)

/-- The place past the return that stands before a newline of a text. -/
def pastReturn (t : Text) (i : Nat) : Cursor := .inText (Text.crlf t) (t.crlfOffset i + 1)

@[simp] theorem crlf_offset (t : Text) (i : Nat) : (crlf t i).offset = t.crlfOffset i := rfl

@[simp] theorem pastReturn_offset (t : Text) (i : Nat) :
    (pastReturn t i).offset = t.crlfOffset i + 1 := rfl

theorem crlf_rest (t : Text) (i : Nat) : (crlf t i).rest = Text.crlf (t.drop i) :=
  (Text.crlf_drop t i).symm

theorem crlf_previous (t : Text) (i : Nat) : (crlf t i).previous = (inText t i).previous := by
  change ((Text.crlf t).take (t.crlfOffset i)).getLast? = _
  rw [← Text.crlf_take, Text.getLast?_crlf]
  rfl

theorem crlf_succ (h : t[i]? = some c) (hc : c ≠ '\n') :
    inText (Text.crlf t) (t.crlfOffset i + 1) = crlf t (i + 1) := by
  rw [crlf, Text.crlfOffset_succ h hc]

theorem crlf_succ_of_newline (h : t[i]? = some '\n') :
    inText (Text.crlf t) (t.crlfOffset i + 1 + 1) = crlf t (i + 1) := by
  rw [crlf, Text.crlfOffset_succ_of_newline h]

theorem pastReturn_previous (h : t[i]? = some '\n') :
    (pastReturn t i).previous = some '\r' := by
  have hget := Text.getElem?_crlfOffset t i
  rw [h] at hget
  change ((Text.crlf t).take (t.crlfOffset i + 1)).getLast? = _
  rw [List.take_add_one, hget]
  simp

theorem pastReturn_head? (h : t[i]? = some '\n') :
    (pastReturn t i).rest.head? = some '\n' := by
  rw [pastReturn, inText_rest, List.head?_drop, Text.getElem?_pastReturn h]

end Cursor

namespace Pattern

variable {γ β β' : Type} {t : Text}

/-- A character of a class is read at a place of a text. -/
theorem lead_one_inText (u : Text) (k : Nat) (cls : Char → Bool) (parts : List (γ × Span))
    (next : Outcome γ → Option β) : lead (one cls) ⟨.inText u k, parts⟩ next =
      (u[k]?.filter cls).bind fun _ => next ⟨.inText u (k + 1), parts⟩ := by
  rw [lead_one, Cursor.inText_rest]
  cases hget : u[k]? with
  | none => rw [List.drop_eq_nil_of_le (List.getElem?_eq_none_iff.1 hget)]; rfl
  | some c =>
    obtain ⟨hlt, rfl⟩ := List.getElem?_eq_some_iff.1 hget
    have hplace : (⟨some u[k], u.drop (k + 1), k + 1⟩ : Cursor) = .inText u (k + 1) := by
      rw [Cursor.inText, List.take_add_one, hget, Option.toList_some, List.getLast?_concat]
    rw [List.drop_eq_getElem_cons hlt]
    simp only [Cursor.inText_offset, hplace]
    by_cases hc : cls u[k] = true <;> simp [hc, Option.filter]

/-! ### What follows a pattern -/

/-- Where the parts of a match are in the text with the returns. -/
def crlfParts (t : Text) (parts : List (γ × Span)) : List (γ × Span) :=
  parts.map fun x => (x.1, x.2.crlf t)

/-- What follows answers in the text with the returns as in the text itself, at the places that both
have, and whether it answers there is a matter of the place. -/
structure Mirrors (t : Text) (f : β → β') (next : Outcome γ → Option β)
    (next' : Outcome γ → Option β') : Prop where
  answer : ∀ i ≤ t.length, ∀ parts,
    next' ⟨.crlf t i, crlfParts t parts⟩ = (next ⟨.inText t i, parts⟩).map f
  byPlace : ByPlace next'

/-- What follows finds nothing past a return that it does not find past the newline as well. -/
def Sheds (t : Text) (next : Outcome γ → Option β) : Prop :=
  ∀ i parts, t[i]? = some '\n' →
    next ⟨.crlf t (i + 1), parts⟩ = none → next ⟨.pastReturn t i, parts⟩ = none

/-- What follows finds the same past a return as past the newline. -/
def Slides (t : Text) (next : Outcome γ → Option β) : Prop :=
  ∀ i parts, t[i]? = some '\n' →
    next ⟨.pastReturn t i, parts⟩ = next ⟨.crlf t (i + 1), parts⟩

/-- What follows finds before a return whatever it finds past it. -/
def Rises (t : Text) (next : Outcome γ → Option β) : Prop :=
  ∀ i parts r, t[i]? = some '\n' →
    next ⟨.pastReturn t i, parts⟩ = some r → next ⟨.crlf t i, parts⟩ = some r

/-! ### What a pattern does at returns -/

/-- The pattern and what follows find the same with the returns. -/
def Keeps (t : Text) (p : Pattern γ) : Prop :=
  ∀ ⦃β β' : Type⦄ ⦃f : β → β'⦄ ⦃next : Outcome γ → Option β⦄ ⦃next' : Outcome γ → Option β'⦄,
    Mirrors t f next next' → Mirrors t f (lead p · next) (lead p · next')

/-- The pattern and what follows find the same with the returns, if what follows finds nothing new
past a return. -/
def Carries (t : Text) (p : Pattern γ) : Prop :=
  ∀ ⦃β β' : Type⦄ ⦃f : β → β'⦄ ⦃next : Outcome γ → Option β⦄ ⦃next' : Outcome γ → Option β'⦄,
    Mirrors t f next next' → Sheds t next' → Mirrors t f (lead p · next) (lead p · next')

/-- The pattern finds nothing new past a return if what follows finds nothing new there. -/
def Settles (t : Text) (p : Pattern γ) : Prop :=
  ∀ ⦃β : Type⦄ ⦃next : Outcome γ → Option β⦄,
    ByPlace next → Sheds t next → Sheds t (lead p · next)

/-- The pattern does not match past a return. -/
def StaysOut (t : Text) (p : Pattern γ) : Prop :=
  ∀ i parts, t[i]? = some '\n' → p.outcomes ⟨.pastReturn t i, parts⟩ = []

/-- Past a return the pattern reads nothing. -/
def Stays (t : Text) (p : Pattern γ) : Prop :=
  ∀ i parts, t[i]? = some '\n' → ∀ o ∈ p.outcomes ⟨.pastReturn t i, parts⟩,
    o.cursor = .pastReturn t i

variable {p q : Pattern γ} {f : β → β'} {next : Outcome γ → Option β}
  {next' : Outcome γ → Option β'}

theorem Keeps.carries (h : Keeps t p) : Carries t p := fun _ _ _ _ _ hnext _ => h hnext

namespace StaysOut

theorem lead_eq_none (h : StaysOut t p) {i : Nat} (hi : t[i]? = some '\n')
    (parts : List (γ × Span)) (next : Outcome γ → Option β) :
    lead p ⟨.pastReturn t i, parts⟩ next = none := by
  rw [lead, h i parts hi, List.findSome?_nil]

theorem sheds (h : StaysOut t p) (next : Outcome γ → Option β) : Sheds t (lead p · next) :=
  fun _ parts hi _ => h.lead_eq_none hi parts next

theorem settles (h : StaysOut t p) : Settles t p := fun _ _ _ _ => h.sheds _

theorem stays (h : StaysOut t p) : Stays t p := by
  intro i parts hi o ho
  rw [h i parts hi] at ho
  cases ho

theorem of_stays (hp : Stays t p) (hq : StaysOut t q) : StaysOut t (p ++ q) := by
  intro i parts hi
  rw [append_eq, outcomes, List.flatMap_eq_nil_iff]
  intro o ho
  obtain ⟨cursor, parts'⟩ := o
  obtain rfl : cursor = .pastReturn t i := hp i parts hi _ ho
  exact hq i parts' hi

theorem append (h : StaysOut t p) (q : Pattern γ) : StaysOut t (p ++ q) := by
  intro i parts hi
  rw [append_eq, outcomes, h i parts hi, List.flatMap_nil]

theorem orElse (hp : StaysOut t p) (hq : StaysOut t q) : StaysOut t (p ||| q) := by
  intro i parts hi
  rw [orOp_eq, outcomes, hp i parts hi, hq i parts hi, List.nil_append]

theorem part (name : γ) (h : StaysOut t p) : StaysOut t (.part name p) := by
  intro i parts hi
  rw [outcomes, h i parts hi, List.map_nil]

theorem lead_star_eq (h : StaysOut t p) {i : Nat} (hi : t[i]? = some '\n')
    (parts : List (γ × Span)) (next : Outcome γ → Option β) :
    lead (star p) ⟨.pastReturn t i, parts⟩ next = next ⟨.pastReturn t i, parts⟩ := by
  rw [lead_star, h.lead_eq_none hi, Option.none_or]

end StaysOut

namespace Stays

theorem append (hp : Stays t p) (hq : Stays t q) : Stays t (p ++ q) := by
  intro i parts hi o ho
  obtain ⟨⟨cursor, parts'⟩, hmid, ho⟩ := mem_outcomes_andThen.1 ho
  obtain rfl : cursor = .pastReturn t i := hp i parts hi _ hmid
  exact hq i parts' hi o ho

theorem maybe (h : Stays t p) : Stays t (.maybe p) := by
  intro i parts hi o ho
  rcases mem_outcomes_orElse.1 ho with ho | ho
  · exact h i parts hi o ho
  · rw [List.mem_singleton.1 ho]

theorem part (name : γ) (h : Stays t p) : Stays t (.part name p) := by
  intro i parts hi o ho
  obtain ⟨mid, hmid, rfl⟩ := mem_outcomes_part.1 ho
  exact h i parts hi mid hmid

theorem star (h : StaysOut t p) : Stays t (.star p) := by
  intro i parts hi o ho
  rw [outcomes_star, h i parts hi, List.flatMap_nil, List.nil_append] at ho
  rw [List.mem_singleton.1 ho]

end Stays

/-! ### Sequences, choices and parts -/

theorem Sheds.of_byPlace (hsheds : Sheds t next) (hplace : ByPlace next) {i : Nat}
    (hi : t[i]? = some '\n') {parts parts' : List (γ × Span)}
    (h : next ⟨.crlf t (i + 1), parts⟩ = none) : next ⟨.pastReturn t i, parts'⟩ = none :=
  hsheds i parts' hi (hplace _ _ _ h)

theorem Mirrors.or {next₁ next₂ : Outcome γ → Option β} {next₁' next₂' : Outcome γ → Option β'}
    (h₁ : Mirrors t f next₁ next₁') (h₂ : Mirrors t f next₂ next₂') :
    Mirrors t f (fun o => (next₁ o).or (next₂ o)) fun o => (next₁' o).or (next₂' o) where
  answer i hi parts := by
    rw [h₁.answer i hi, h₂.answer i hi]
    cases next₁ ⟨.inText t i, parts⟩ <;> rfl
  byPlace c parts parts' hnone := by
    rw [Option.or_eq_none_iff] at hnone ⊢
    exact ⟨h₁.byPlace c _ _ hnone.1, h₂.byPlace c _ _ hnone.2⟩

theorem Sheds.or {next₁ next₂ : Outcome γ → Option β} (h₁ : Sheds t next₁) (h₂ : Sheds t next₂) :
    Sheds t fun o => (next₁ o).or (next₂ o) := by
  intro i parts hi hnone
  rw [Option.or_eq_none_iff] at hnone ⊢
  exact ⟨h₁ i parts hi hnone.1, h₂ i parts hi hnone.2⟩

/-- What follows a pattern whose part is reported once it is known where the part starts. -/
def reporting (name : γ) (start : Nat) (next : Outcome γ → Option β) : Outcome γ → Option β :=
  fun o => next ⟨o.cursor, (name, ⟨start, o.cursor.offset⟩) :: o.parts⟩

theorem lead_part_eq (name : γ) (body : Pattern γ) (o : Outcome γ) (next : Outcome γ → Option β) :
    lead (part name body) o next = lead body o (reporting name o.cursor.offset next) :=
  lead_part o next name body

theorem ByPlace.reporting (h : ByPlace next) (name : γ) (start : Nat) :
    ByPlace (reporting name start next) := fun c _ _ hnone => h c _ _ hnone

theorem Mirrors.reporting (h : Mirrors t f next next') (name : γ) (i : Nat) :
    Mirrors t f (reporting name i next) (reporting name (t.crlfOffset i) next') where
  answer j hj parts := h.answer j hj ((name, ⟨i, j⟩) :: parts)
  byPlace := h.byPlace.reporting name _

theorem Sheds.reporting (hsheds : Sheds t next) (hplace : ByPlace next) (name : γ) (start : Nat) :
    Sheds t (reporting name start next) :=
  fun _ _ hi hnone => hsheds.of_byPlace hplace hi hnone

/-- Whether a pattern leads to an answer depends on whether what follows answers at each place. -/
theorem lead_eq_none_congr {o : Outcome γ} {next next' : Outcome γ → Option β}
    (h : ∀ o', next o' = none ↔ next' o' = none) :
    lead p o next = none ↔ lead p o next' = none := by
  rw [lead_eq_none_iff, lead_eq_none_iff]
  exact forall₂_congr fun o' _ => h o'

namespace Keeps

theorem empty : Keeps t (.empty : Pattern γ) := by
  intro β β' f next next' h
  simpa only [lead_empty] using h

theorem append (hp : Keeps t p) (hq : Keeps t q) : Keeps t (p ++ q) := by
  intro β β' f next next' h
  simpa only [append_eq, lead_andThen] using hp (hq h)

theorem orElse (hp : Keeps t p) (hq : Keeps t q) : Keeps t (p ||| q) := by
  intro β β' f next next' h
  simpa only [orOp_eq, lead_orElse] using (hp h).or (hq h)

theorem maybe (hp : Keeps t p) : Keeps t (.maybe p) := hp.orElse empty

theorem part (name : γ) (hp : Keeps t p) : Keeps t (.part name p) := by
  intro β β' f next next' h
  refine ⟨fun i hi parts => ?_, byPlace_lead _ h.byPlace⟩
  rw [lead_part_eq, lead_part_eq]
  exact (hp (h.reporting name i)).answer i hi parts

end Keeps

namespace Carries

/-- A pattern that does not match past a return may follow. -/
theorem append_keeps (hp : Carries t p) (hq : Keeps t q) (hout : StaysOut t q) :
    Keeps t (p ++ q) := by
  intro β β' f next next' h
  simpa only [append_eq, lead_andThen] using hp (hq h) (hout.sheds next')

theorem append (hp : Carries t p) (hq : Carries t q) (hsettles : Settles t q) :
    Carries t (p ++ q) := by
  intro β β' f next next' h hsheds
  simpa only [append_eq, lead_andThen] using hp (hq h hsheds) (hsettles h.byPlace hsheds)

theorem of_keeps_append (hp : Keeps t p) (hq : Carries t q) : Carries t (p ++ q) := by
  intro β β' f next next' h hsheds
  simpa only [append_eq, lead_andThen] using hp (hq h hsheds)

theorem orElse (hp : Carries t p) (hq : Carries t q) : Carries t (p ||| q) := by
  intro β β' f next next' h hsheds
  simpa only [orOp_eq, lead_orElse] using (hp h hsheds).or (hq h hsheds)

theorem maybe (hp : Carries t p) : Carries t (.maybe p) := hp.orElse Keeps.empty.carries

theorem maybeLazy (hp : Carries t p) : Carries t (.maybeLazy p) := orElse Keeps.empty.carries hp

theorem part (name : γ) (hp : Carries t p) : Carries t (.part name p) := by
  intro β β' f next next' h hsheds
  refine ⟨fun i hi parts => ?_, byPlace_lead _ h.byPlace⟩
  rw [lead_part_eq, lead_part_eq]
  exact (hp (h.reporting name i) (hsheds.reporting h.byPlace name _)).answer i hi parts

end Carries

namespace Settles

theorem empty : Settles t (.empty : Pattern γ) := by
  intro β next _ hsheds
  simpa only [lead_empty] using hsheds

theorem append (hp : Settles t p) (hq : Settles t q) : Settles t (p ++ q) := by
  intro β next hplace hsheds
  simpa only [append_eq, lead_andThen] using hp (byPlace_lead q hplace) (hq hplace hsheds)

theorem orElse (hp : Settles t p) (hq : Settles t q) : Settles t (p ||| q) := by
  intro β next hplace hsheds
  simpa only [orOp_eq, lead_orElse] using (hp hplace hsheds).or (hq hplace hsheds)

theorem maybe (hp : Settles t p) : Settles t (.maybe p) := hp.orElse empty

theorem maybeLazy (hp : Settles t p) : Settles t (.maybeLazy p) := empty.orElse hp

theorem part (name : γ) (hp : Settles t p) : Settles t (.part name p) := by
  intro β next hplace hsheds i parts hi hnone
  simp only [lead_part_eq] at hnone ⊢
  refine hp (hplace.reporting name _) (hsheds.reporting hplace name _) i parts hi ?_
  exact (lead_eq_none_congr fun o => ⟨hplace _ _ _, hplace _ _ _⟩).1 hnone

end Settles

/-! ### Single characters and fixed texts -/

section Characters

variable {cls : Char → Bool} {i : Nat}

/-- Past the return a newline is read. -/
theorem lead_one_pastReturn (hi : t[i]? = some '\n') (hcls : cls '\n' = true)
    (parts : List (γ × Span)) (next : Outcome γ → Option β) :
    lead (one cls) ⟨.pastReturn t i, parts⟩ next = next ⟨.crlf t (i + 1), parts⟩ := by
  rw [Cursor.pastReturn, lead_one_inText, Text.getElem?_pastReturn hi,
    Cursor.crlf_succ_of_newline hi, Option.filter, if_pos hcls, Option.bind_some]

/-- Before a return a character is read that is not a newline. -/
theorem lead_one_crlf (hi : t[i]? = some '\n') (parts : List (γ × Span))
    (next : Outcome γ → Option β) : lead (one cls) ⟨.crlf t i, parts⟩ next =
      if cls '\r' then next ⟨.pastReturn t i, parts⟩ else none := by
  rw [Cursor.crlf, lead_one_inText, Text.getElem?_crlfOffset, hi, ← Cursor.pastReturn]
  by_cases hcls : cls '\r' = true <;> simp [hcls, Option.filter]

/-- A character that is not a newline is read with the returns as without them. -/
theorem Mirrors.lead_one (h : Mirrors t f next next')
    (hnewline : t[i]? ≠ some '\n') (parts : List (γ × Span)) :
    lead (one cls) ⟨.crlf t i, crlfParts t parts⟩ next' =
      (lead (one cls) ⟨.inText t i, parts⟩ next).map f := by
  rw [Cursor.crlf, lead_one_inText, lead_one_inText, Text.getElem?_crlfOffset]
  cases hget : t[i]? with
  | none => rfl
  | some c =>
    have hlt := (List.getElem?_eq_some_iff.1 hget).1
    have hc : c ≠ '\n' := fun heq => hnewline (heq ▸ hget)
    rw [Option.map_some, if_neg hc]
    by_cases hcls : cls c = true
    · simp only [Option.filter, hcls, if_true, Option.bind_some, Cursor.crlf_succ hget hc]
      exact h.answer (i + 1) hlt parts
    · simp [Option.filter, hcls]

theorem Keeps.one (hreturn : cls '\r' = false) (hnewline : cls '\n' = false) :
    Keeps t (.one cls : Pattern γ) := by
  intro β β' f next next' h
  refine ⟨fun i _ parts => ?_, byPlace_lead _ h.byPlace⟩
  by_cases hget : t[i]? = some '\n'
  · rw [lead_one_crlf hget, hreturn, lead_one_inText, hget]
    simp [Option.filter, hnewline]
  · exact h.lead_one hget parts

theorem StaysOut.one (hnewline : cls '\n' = false) : StaysOut t (.one cls : Pattern γ) := by
  intro i parts hi
  have hhead := Cursor.pastReturn_head? hi
  rw [outcomes]
  cases hrest : (Cursor.pastReturn t i).rest with
  | nil => rfl
  | cons c rest =>
    rw [hrest, List.head?_cons, Option.some.injEq] at hhead
    simp [hhead, hnewline]

variable {w : Text}

/-- A text is read at a place where it stands. -/
theorem lead_fixed_inText (u w : Text) (k : Nat) (parts : List (γ × Span))
    (next : Outcome γ → Option β) : lead (fixed w) ⟨.inText u k, parts⟩ next =
      if w <+: u.drop k then next ⟨.inText u (k + w.length), parts⟩ else none := by
  rw [lead_fixed, Cursor.inText_rest]
  by_cases hpre : w <+: u.drop k
  · rw [if_pos (List.isPrefixOf_iff_prefix.2 hpre), if_pos hpre, Cursor.behind_inText hpre]
  · rw [if_neg fun hpre' => hpre (List.isPrefixOf_iff_prefix.1 hpre'), if_neg hpre]

/-- A text on one line is read with the returns where it is read without them. -/
theorem lead_fixed_crlf (hw : Text.OnOneLine w) (i : Nat) (parts : List (γ × Span))
    (next : Outcome γ → Option β) : lead (fixed w) ⟨.crlf t i, parts⟩ next =
      if w <+: t.drop i then next ⟨.crlf t (i + w.length), parts⟩ else none := by
  rw [Cursor.crlf, lead_fixed_inText, ← Text.crlf_drop]
  by_cases hpre : w <+: t.drop i
  · have hoffset : t.crlfOffset i + w.length = t.crlfOffset (i + w.length) := by
      rw [Text.crlfOffset_add_length hpre, Text.crlf_eq_self fun hmem => (hw _ hmem).2 rfl]
    rw [if_pos ((Text.prefix_crlf_iff hw).2 hpre), if_pos hpre, hoffset, Cursor.crlf]
  · rw [if_neg fun hpre' => hpre ((Text.prefix_crlf_iff hw).1 hpre'), if_neg hpre]

theorem Keeps.fixed (hw : Text.OnOneLine w) : Keeps t (.fixed w : Pattern γ) := by
  intro β β' f next next' h
  refine ⟨fun i hi parts => ?_, byPlace_lead _ h.byPlace⟩
  rw [lead_fixed_crlf hw, lead_fixed_inText]
  by_cases hpre : w <+: t.drop i
  · have hle : i + w.length ≤ t.length := by
      have := hpre.length_le
      rw [List.length_drop] at this
      omega
    rw [if_pos hpre, if_pos hpre, h.answer _ hle]
  · rw [if_neg hpre, if_neg hpre, Option.map_none]

theorem StaysOut.fixed (hw : Text.OnOneLine w) (hne : w ≠ []) :
    StaysOut t (.fixed w : Pattern γ) := by
  intro i parts hi
  obtain ⟨c, w, rfl⟩ := List.exists_cons_of_ne_nil hne
  rw [outcomes, if_neg]
  intro hpre
  obtain ⟨rest, hrest⟩ := List.isPrefixOf_iff_prefix.1 hpre
  have hhead := Cursor.pastReturn_head? hi
  rw [← hrest, List.cons_append, List.head?_cons, Option.some.injEq] at hhead
  exact (hw c List.mem_cons_self).2 hhead

theorem Keeps.lineStart : Keeps t (.lineStart : Pattern γ) := by
  intro β β' f next next' h
  refine ⟨fun i hi parts => ?_, byPlace_lead _ h.byPlace⟩
  rw [lead_lineStart, lead_lineStart, Cursor.atLineStart, Cursor.crlf_previous, h.answer i hi]
  change (if (Cursor.inText t i).atLineStart = true then _ else _) = _
  split <;> rfl

theorem StaysOut.lineStart : StaysOut t (.lineStart : Pattern γ) := by
  intro i parts hi
  rw [outcomes, Cursor.atLineStart, Cursor.pastReturn_previous hi]
  rfl

theorem Keeps.wordEdge : Keeps t (.wordEdge : Pattern γ) := by
  intro β β' f next next' h
  refine ⟨fun i hi parts => ?_, byPlace_lead _ h.byPlace⟩
  have hedge : (Cursor.crlf t i).atWordEdge = (Cursor.inText t i).atWordEdge := by
    have hreturn : isWord '\r' = false := by decide
    have hnewline : isWord '\n' = false := by decide
    rw [Cursor.atWordEdge, Cursor.atWordEdge, Cursor.crlf_previous, Cursor.crlf_rest,
      Cursor.inText_rest, Text.head?_crlf]
    congr 1
    cases hhead : (t.drop i).head? with
    | none => rfl
    | some c => by_cases hc : c = '\n' <;> simp [hc, hreturn, hnewline]
  rw [lead_wordEdge, lead_wordEdge, h.answer i hi, hedge]
  split <;> rfl

theorem StaysOut.wordEdge : StaysOut t (.wordEdge : Pattern γ) := by
  intro i parts hi
  have hreturn : isWord '\r' = false := by decide
  have hnewline : isWord '\n' = false := by decide
  rw [outcomes, Cursor.atWordEdge, Cursor.pastReturn_previous hi, Cursor.pastReturn_head? hi]
  simp [hreturn, hnewline]

end Characters

/-! ### Repetitions -/

/-- What follows a step of a repetition, from where the step started. -/
def again (p : Pattern γ) (start : Nat) (next : Outcome γ → Option β) : Outcome γ → Option β :=
  fun o => if start < o.cursor.offset then lead (star p) o next else none

theorem lead_star_eq (p : Pattern γ) (o : Outcome γ) (next : Outcome γ → Option β) :
    lead (star p) o next = (lead p o (again p o.cursor.offset next)).or (next o) :=
  lead_star p o next

theorem again_of_lt {start : Nat} {o : Outcome γ} (h : start < o.cursor.offset) :
    again p start next o = lead (star p) o next := if_pos h

theorem again_of_not_lt {start : Nat} {o : Outcome γ} (h : ¬ start < o.cursor.offset) :
    again p start next o = none := if_neg h

theorem eq_none_of_lead_star {o : Outcome γ} (h : lead (star p) o next = none) : next o = none := by
  rw [lead_star_eq, Option.or_eq_none_iff] at h
  exact h.2

/-- A step forward in the text is one in the text with the returns; it passes a return if it passes
the newline. -/
theorem crlfOffset_lt_pastReturn_iff {i j : Nat} (hj : t[j]? = some '\n') :
    (t.crlfOffset i < t.crlfOffset j + 1 ↔ i ≤ j) ∧
      (t.crlfOffset i < t.crlfOffset (j + 1) ↔ i ≤ j) := by
  have hlt : j < t.length := (List.getElem?_eq_some_iff.1 hj).1
  have hsucc := Text.crlfOffset_succ_of_newline hj
  rcases Nat.lt_or_ge j i with h | h
  · have := Text.crlfOffset_mono t (show j + 1 ≤ i from h)
    omega
  · have := Text.crlfOffset_mono t h
    omega

theorem Sheds.again (hsheds : Sheds t next) (hout : StaysOut t p) (i : Nat) :
    Sheds t (again p (t.crlfOffset i) next) := by
  intro j parts hj hnone
  obtain ⟨hpast, hnewline⟩ := crlfOffset_lt_pastReturn_iff (i := i) hj
  by_cases hle : i ≤ j
  · rw [again_of_lt (hnewline.2 hle)] at hnone
    rw [again_of_lt (hpast.2 hle), hout.lead_star_eq hj]
    exact hsheds j parts hj (eq_none_of_lead_star hnone)
  · rw [again_of_not_lt fun hlt => hle (hpast.1 hlt)]

/-- A repetition finds the same with the returns if each of its steps does. -/
theorem Mirrors.star (h : Mirrors t f next next')
    (hstep : ∀ i, Mirrors t f (again p i next) (again p (t.crlfOffset i) next') →
      Mirrors t f (lead p · (again p i next)) (lead p · (again p (t.crlfOffset i) next'))) :
    Mirrors t f (lead (star p) · next) (lead (star p) · next') := by
  refine ⟨fun i hi parts => ?_, byPlace_lead _ h.byPlace⟩
  induction hn : t.length - i using Nat.strong_induction_on generalizing i parts with
  | _ n ih =>
    -- a step goes forward, so what follows it is known by induction
    have hagain : Mirrors t f (again p i next) (again p (t.crlfOffset i) next') := by
      constructor
      · intro j hj parts
        have hiff := Text.crlfOffset_lt_iff (t := t) (i := i) hj
        by_cases hlt : i < j
        · rw [again_of_lt (hiff.2 hlt), again_of_lt (o := ⟨.inText t j, parts⟩) hlt]
          exact ih _ (by omega) j hj parts rfl
        · rw [again_of_not_lt fun hlt' => hlt (hiff.1 hlt'),
            again_of_not_lt (o := ⟨.inText t j, parts⟩) hlt]
          rfl
      · intro c parts parts' hnone
        by_cases hlt : t.crlfOffset i < c.offset
        · rw [again_of_lt (o := ⟨c, parts⟩) hlt] at hnone
          rw [again_of_lt (o := ⟨c, parts'⟩) hlt]
          exact byPlace_lead _ h.byPlace c _ _ hnone
        · rw [again_of_not_lt (o := ⟨c, parts'⟩) hlt]
    simp only [lead_star_eq]
    exact ((hstep i hagain).or h).answer i hi parts

theorem Keeps.star (hp : Keeps t p) : Keeps t (.star p) :=
  fun _ _ _ _ _ h => h.star fun _ hagain => hp hagain

theorem Carries.star (hp : Carries t p) (hout : StaysOut t p) : Carries t (.star p) :=
  fun _ _ _ _ _ h hsheds => h.star fun i hagain => hp hagain (hsheds.again hout i)

theorem Settles.star (hout : StaysOut t p) : Settles t (.star p) := by
  intro β next _ hsheds i parts hi hnone
  exact (hout.lead_star_eq hi parts next).trans (hsheds i parts hi (eq_none_of_lead_star hnone))

/-! ### Repetitions that read newlines on their own -/

/-- The pattern reads a newline past its return, and the return on its own before that. -/
structure Glides (t : Text) (p : Pattern γ) : Prop where
  mirrors : ∀ {β β' : Type} {f : β → β'} {next : Outcome γ → Option β}
    {next' : Outcome γ → Option β'}, Mirrors t f next next' → Slides t next' →
      Mirrors t f (lead p · next) (lead p · next')
  pastReturn : ∀ {β : Type} (next : Outcome γ → Option β) (i : Nat) (parts : List (γ × Span)),
    t[i]? = some '\n' → lead p ⟨.pastReturn t i, parts⟩ next = next ⟨.crlf t (i + 1), parts⟩

namespace Glides

/-- A single character of a class with both the return and the newline. -/
theorem one {cls : Char → Bool} (hreturn : cls '\r' = true) (hnewline : cls '\n' = true) :
    Glides t (.one cls : Pattern γ) := by
  constructor
  · intro β β' f next next' h hslides
    refine ⟨fun i hi parts => ?_, byPlace_lead _ h.byPlace⟩
    by_cases hget : t[i]? = some '\n'
    · have hlt : i < t.length := (List.getElem?_eq_some_iff.1 hget).1
      rw [lead_one_crlf hget, if_pos hreturn, hslides _ _ hget, h.answer _ hlt, lead_one_inText,
        hget]
      simp [Option.filter, hnewline]
    · exact h.lead_one hget parts
  · intro β next i parts hi
    exact lead_one_pastReturn hi hnewline parts next

theorem orElse (hp : Keeps t p) (hout : StaysOut t p) (hq : Glides t q) : Glides t (p ||| q) := by
  constructor
  · intro β β' f next next' h hslides
    simpa only [orOp_eq, lead_orElse] using (hp h).or (hq.mirrors h hslides)
  · intro β next i parts hi
    rw [orOp_eq, lead_orElse, hout.lead_eq_none hi, Option.none_or, hq.pastReturn next i parts hi]

/-- A repetition of such steps goes on from a return as from its newline. -/
theorem slides_star (hp : Glides t p) (hsheds : Sheds t next) :
    Slides t (lead (.star p) · next) := by
  intro i parts hi
  have hlt : t.crlfOffset i + 1 < t.crlfOffset (i + 1) := by
    rw [Text.crlfOffset_succ_of_newline hi]
    omega
  refine (lead_star_eq p ⟨.pastReturn t i, parts⟩ next).trans ?_
  rw [hp.pastReturn _ i parts hi, again_of_lt hlt]
  cases hlead : lead (.star p) ⟨.crlf t (i + 1), parts⟩ next with
  | none =>
    rw [Option.none_or, hsheds i parts hi (eq_none_of_lead_star hlead)]
    exact hlead.symm
  | some r => exact hlead.symm

theorem slides_again (hp : Glides t p) (hsheds : Sheds t next) (i : Nat) :
    Slides t (again p (t.crlfOffset i) next) := by
  intro j parts hj
  obtain ⟨hpast, hnewline⟩ := crlfOffset_lt_pastReturn_iff (i := i) hj
  by_cases hle : i ≤ j
  · rw [again_of_lt (hpast.2 hle), again_of_lt (hnewline.2 hle)]
    exact hp.slides_star hsheds j parts hj
  · rw [again_of_not_lt fun hlt => hle (hpast.1 hlt),
      again_of_not_lt fun hlt => hle (hnewline.1 hlt)]

theorem carries_star (hp : Glides t p) : Carries t (.star p) :=
  fun _ _ _ _ _ h hsheds => h.star fun i hagain => hp.mirrors hagain (hp.slides_again hsheds i)

theorem settles_star (hp : Glides t p) : Settles t (.star p) := by
  intro β next _ hsheds i parts hi hnone
  exact (hp.slides_star hsheds i parts hi).trans hnone

theorem carries_plus (hp : Glides t p) : Carries t (.plus p) := by
  intro β β' f next next' h hsheds
  simpa only [plus, append_eq, lead_andThen] using
    hp.mirrors (hp.carries_star h hsheds) (hp.slides_star hsheds)

/-- At least one such step, or none at all: the return may take the place of the first step. -/
theorem settles_maybe_part (hp : Glides t p) (name : γ) :
    Settles t (maybe (part name (plus p))) := by
  intro β next hplace hsheds i parts hi hnone
  simp only [lead_maybe, lead_part_eq, plus, append_eq, lead_andThen, Option.or_eq_none_iff]
    at hnone ⊢
  obtain ⟨hmore, hnone⟩ := hnone
  refine ⟨?_, hsheds i parts hi hnone⟩
  rw [hp.pastReturn _ i parts hi, lead_star_eq, Option.or_eq_none_iff]
  refine ⟨?_, hplace _ _ _ hnone⟩
  rw [lead_eq_none_iff] at hmore ⊢
  intro o ho
  have hstar : lead (star p) o (reporting name (Cursor.pastReturn t i).offset next) = none :=
    (lead_eq_none_congr fun o => ⟨hplace _ _ _, hplace _ _ _⟩).1 (hmore o ho)
  rw [again, hstar, ite_self]

end Glides

end Pattern

end Glossator
