import Glossator.Proofs.Pattern.LineEnds

/-!
# Runs, matches and searches over texts with returns

What a run of characters does at a return depends on which of the return and the newline it may
read. A search for a pattern that finds the same with the returns finds the same matches.

* `Pattern.Carries.many`, `Pattern.Carries.restOfLine_append`: runs over ends of lines.
* `Pattern.Carries.matchAt?_crlf`, `Finder.find?_crlf`, `Finder.matchesFrom_crlf`: matches and
  searches.
-/

set_option autoImplicit false

namespace Glossator

namespace Pattern

variable {γ β β' : Type} {t : Text} {p q : Pattern γ} {f : β → β'} {next : Outcome γ → Option β}
  {next' : Outcome γ → Option β'}

/-! ### Patterns that lead to the same answers -/

/-- Two patterns lead to the same answers. -/
def LeadsAs (p q : Pattern γ) : Prop :=
  ∀ ⦃β : Type⦄ (o : Outcome γ) (next : Outcome γ → Option β), lead p o next = lead q o next

namespace LeadsAs

theorem keeps (h : LeadsAs p q) (hq : Keeps t q) : Keeps t p := by
  intro β β' f next next' hnext
  simpa only [h _ next, h _ next'] using hq hnext

theorem carries (h : LeadsAs p q) (hq : Carries t q) : Carries t p := by
  intro β β' f next next' hnext hsheds
  simpa only [h _ next, h _ next'] using hq hnext hsheds

theorem settles (h : LeadsAs p q) (hq : Settles t q) : Settles t p := by
  intro β next hplace hsheds
  simpa only [h _ next] using hq hplace hsheds

theorem staysOut (h : LeadsAs p q) (hq : StaysOut t q) : StaysOut t p := by
  intro i parts hi
  refine List.eq_nil_iff_forall_not_mem.2 fun o ho => ?_
  have hnone := (h ⟨.pastReturn t i, parts⟩ some).trans (hq.lead_eq_none hi parts some)
  exact Option.some_ne_none o (lead_eq_none_iff.1 hnone o ho)

theorem append_assoc (p q r : Pattern γ) : LeadsAs (p ++ q ++ r) (p ++ (q ++ r)) := by
  intro β o next
  simp only [append_eq, lead_andThen]

theorem orElse_append (p q r : Pattern γ) : LeadsAs ((p ||| q) ++ r) (p ++ r ||| q ++ r) := by
  intro β o next
  simp only [append_eq, orOp_eq, lead_andThen, lead_orElse]

theorem many (cls : Char → Bool) : LeadsAs (.many cls : Pattern γ) (.star (.one cls)) :=
  fun _ => lead_many_eq cls

theorem fixed_singleton (c : Char) : LeadsAs (.fixed [c] : Pattern γ) (.one (· = c)) := by
  intro β o next
  obtain ⟨⟨previous, rest, offset⟩, parts⟩ := o
  rw [lead_fixed, lead_one]
  cases rest with
  | nil => rfl
  | cons d rest =>
    by_cases hd : d = c
    · simp [hd, Cursor.behind]
    · simp [hd, Ne.symm hd]

end LeadsAs

/-! ### Words -/

theorem Keeps.text {s : String} (h : Text.OnOneLine s.toList) : Keeps t (.text s : Pattern γ) :=
  .fixed h

theorem StaysOut.text {s : String} (h : Text.OnOneLine s.toList) (hne : s.toList ≠ []) :
    StaysOut t (.text s : Pattern γ) := .fixed h hne

theorem Keeps.anyText {words : List String} (h : ∀ s ∈ words, Text.OnOneLine s.toList) :
    Keeps t (.anyText words : Pattern γ) := by
  fun_induction Pattern.anyText words with
  | case1 => exact .one rfl rfl
  | case2 s => exact .text (h s List.mem_cons_self)
  | case3 s rest _ ih =>
    exact (Keeps.text (h s List.mem_cons_self)).orElse
      (ih fun s' hs' => h s' (List.mem_cons_of_mem s hs'))

theorem StaysOut.anyText {words : List String}
    (h : ∀ s ∈ words, Text.OnOneLine s.toList ∧ s.toList ≠ []) :
    StaysOut t (.anyText words : Pattern γ) := by
  fun_induction Pattern.anyText words with
  | case1 => exact .one rfl
  | case2 s => exact .text (h s List.mem_cons_self).1 (h s List.mem_cons_self).2
  | case3 s rest _ ih =>
    exact (StaysOut.text (h s List.mem_cons_self).1 (h s List.mem_cons_self).2).orElse
      (ih fun s' hs' => h s' (List.mem_cons_of_mem s hs'))

/-! ### Runs -/

section Runs

variable {cls : Char → Bool}

theorem Keeps.many (hreturn : cls '\r' = false) (hnewline : cls '\n' = false) :
    Keeps t (.many cls : Pattern γ) := (LeadsAs.many cls).keeps (Keeps.one hreturn hnewline).star

theorem Keeps.someOf (hreturn : cls '\r' = false) (hnewline : cls '\n' = false) :
    Keeps t (.someOf cls : Pattern γ) :=
  (Keeps.one hreturn hnewline).append (.many hreturn hnewline)

theorem StaysOut.someOf (hnewline : cls '\n' = false) : StaysOut t (.someOf cls : Pattern γ) :=
  (StaysOut.one hnewline).append _

theorem Carries.many (hreturn : cls '\r' = true) (hnewline : cls '\n' = true) :
    Carries t (.many cls : Pattern γ) :=
  (LeadsAs.many cls).carries (Glides.one hreturn hnewline).carries_star

theorem Settles.many (hreturn : cls '\r' = true) (hnewline : cls '\n' = true) :
    Settles t (.many cls : Pattern γ) :=
  (LeadsAs.many cls).settles (Glides.one hreturn hnewline).settles_star

/-- At the first character the return is read on its own, and the run goes on with the newline. -/
theorem Carries.one_append_many {first : Char → Bool} (hfirst : first '\r' = true)
    (hfirst' : first '\n' = true) (hreturn : cls '\r' = true) (hnewline : cls '\n' = true) :
    Carries t (.one first ++ .many cls : Pattern γ) := by
  intro β β' f next next' h hsheds
  have hrun : Glides t (.one cls : Pattern γ) := .one hreturn hnewline
  simpa only [append_eq, lead_andThen, LeadsAs.many cls _ _] using
    (Glides.one hfirst hfirst').mirrors (hrun.carries_star h hsheds) (hrun.slides_star hsheds)

theorem Carries.someOf (hreturn : cls '\r' = true) (hnewline : cls '\n' = true) :
    Carries t (.someOf cls : Pattern γ) := .one_append_many hreturn hnewline hreturn hnewline

/-- A run that reads returns finds before a return what it finds past it. -/
theorem rises_many (hreturn : cls '\r' = true) (next : Outcome γ → Option β) :
    Rises t (lead (.many cls) · next) := by
  intro i parts r hi hlead
  simp only [LeadsAs.many cls _ next] at hlead ⊢
  have hlt : t.crlfOffset i < t.crlfOffset i + 1 := Nat.lt_succ_self _
  rw [lead_star_eq, lead_one_crlf hi, if_pos hreturn, again_of_lt hlt, hlead, Option.some_or]

/-- A run up to the end of the line finds the same with the returns, if what follows finds at a
newline what it finds with the returns before the return and past it. -/
theorem lead_untilNewline
    (hother : ∀ i ≤ t.length, t[i]? ≠ some '\n' → ∀ parts,
      next' ⟨.crlf t i, crlfParts t parts⟩ = (next ⟨.inText t i, parts⟩).map f)
    (hnewline : ∀ i, t[i]? = some '\n' → ∀ parts,
      (next' ⟨.pastReturn t i, crlfParts t parts⟩).or (next' ⟨.crlf t i, crlfParts t parts⟩) =
        (next ⟨.inText t i, parts⟩).map f) {i : Nat} (hi : i ≤ t.length)
    (parts : List (γ × Span)) :
    lead (.many (· ≠ '\n')) ⟨.crlf t i, crlfParts t parts⟩ next' =
      (lead (.many (· ≠ '\n')) ⟨.inText t i, parts⟩ next).map f := by
  simp only [LeadsAs.many (· ≠ '\n') _ _]
  induction hn : t.length - i using Nat.strong_induction_on generalizing i with
  | _ n ih =>
    by_cases hget : t[i]? = some '\n'
    · -- the run goes over the return and stops at the newline
      have hstop : lead (.star (.one (· ≠ '\n'))) ⟨.inText t i, parts⟩ next =
          next ⟨.inText t i, parts⟩ := by
        rw [lead_star_eq, lead_one_inText, hget]
        simp [Option.filter]
      have hpast : lead (.star (.one (· ≠ '\n'))) ⟨.pastReturn t i, crlfParts t parts⟩ next' =
          next' ⟨.pastReturn t i, crlfParts t parts⟩ :=
        (StaysOut.one (by decide)).lead_star_eq hget _ _
      have hlt : t.crlfOffset i < t.crlfOffset i + 1 := Nat.lt_succ_self _
      rw [hstop, ← hnewline i hget parts, lead_star_eq, lead_one_crlf hget, if_pos (by decide),
        again_of_lt hlt, hpast]
    · rw [lead_star_eq, lead_star_eq, hother i hi hget, Cursor.crlf, lead_one_inText,
        lead_one_inText, Text.getElem?_crlfOffset]
      cases hc : t[i]? with
      | none => rfl
      | some c =>
        have hlt : i < t.length := (List.getElem?_eq_some_iff.1 hc).1
        have hne : c ≠ '\n' := fun heq => hget (heq ▸ hc)
        have hnext := Text.crlfOffset_succ hc hne
        rw [Option.map_some, if_neg hne]
        simp only [Option.filter, hne, ne_eq, not_false_eq_true, decide_true, if_true,
          Option.bind_some, Cursor.crlf_succ hc hne, Cursor.inText_offset]
        rw [again_of_lt (o := ⟨.crlf t (i + 1), _⟩) (Text.crlfOffset_lt hlt (Nat.lt_succ_self i)),
          again_of_lt (o := ⟨.inText t (i + 1), _⟩) (Nat.lt_succ_self i),
          ih _ (by omega) hlt rfl]
        cases lead (.star (.one (· ≠ '\n'))) ⟨.inText t (i + 1), parts⟩ next <;> rfl

/-- The rest of a line and the blanks behind it. -/
theorem Carries.restOfLine_append (hreturn : cls '\r' = true) (hnewline : cls '\n' = true) :
    Carries t (.many (· ≠ '\n') ++ .many cls : Pattern γ) := by
  intro β β' f next next' h hsheds
  refine ⟨fun i hi parts => ?_, byPlace_lead _ h.byPlace⟩
  have hrun := Carries.many hreturn hnewline h hsheds
  rw [append_eq, lead_andThen, lead_andThen]
  refine lead_untilNewline (fun i hi _ => hrun.answer i hi) (fun i hi' parts => ?_) hi parts
  have hlt : i < t.length := (List.getElem?_eq_some_iff.1 hi').1
  rw [← hrun.answer i hlt.le]
  cases hpast : lead (.many cls) ⟨.pastReturn t i, crlfParts t parts⟩ next' with
  | none => exact Option.none_or
  | some r => exact (rises_many hreturn next' i _ r hi' hpast).symm

/-- The newline is read past the return. -/
theorem lead_newline_pastReturn {i : Nat} (hi : t[i]? = some '\n') (parts : List (γ × Span))
    (next : Outcome γ → Option β) :
    lead (text "\n") ⟨.pastReturn t i, parts⟩ next = next ⟨.crlf t (i + 1), parts⟩ := by
  rw [text, show "\n".toList = ['\n'] from rfl, LeadsAs.fixed_singleton, lead_one_pastReturn hi rfl]

theorem lead_newline_inText (u : Text) (k : Nat) (parts : List (γ × Span))
    (next : Outcome γ → Option β) : lead (text "\n") ⟨.inText u k, parts⟩ next =
      if u[k]? = some '\n' then next ⟨.inText u (k + 1), parts⟩ else none := by
  rw [text, show "\n".toList = ['\n'] from rfl, LeadsAs.fixed_singleton, lead_one_inText]
  cases u[k]? with
  | none => rfl
  | some c => by_cases hc : c = '\n' <;> simp [Option.filter, hc]

/-- A newline is not read before its return. -/
theorem lead_newline_crlf (i : Nat) (parts : List (γ × Span)) (next : Outcome γ → Option β) :
    lead (text "\n") ⟨.crlf t i, parts⟩ next = none := by
  rw [Cursor.crlf, lead_newline_inText, Text.getElem?_crlfOffset, if_neg]
  cases t[i]? with
  | none => simp
  | some c => by_cases hc : c = '\n' <;> simp [hc]

/-- The rest of a line and the newline. -/
theorem Keeps.restOfLine_newline : Keeps t (.many (· ≠ '\n') ++ .text "\n" : Pattern γ) := by
  intro β β' f next next' h
  refine ⟨fun i hi parts => ?_, byPlace_lead _ h.byPlace⟩
  rw [append_eq, lead_andThen, lead_andThen]
  refine lead_untilNewline (fun i hi hget parts => ?_) (fun i hget parts => ?_) hi parts
  · rw [lead_newline_crlf, lead_newline_inText, if_neg hget, Option.map_none]
  · have hlt : i < t.length := (List.getElem?_eq_some_iff.1 hget).1
    rw [lead_newline_pastReturn hget, lead_newline_crlf, Option.or_none, lead_newline_inText,
      if_pos hget, h.answer (i + 1) hlt]

/-- A return perhaps and the newline. -/
theorem Keeps.lineEnd (ht : '\r' ∉ t) :
    Keeps t (.maybe (.text "\r") ++ .text "\n" : Pattern γ) := by
  intro β β' f next next' h
  refine ⟨fun i hi parts => ?_, byPlace_lead _ h.byPlace⟩
  simp only [append_eq, lead_andThen, lead_maybe]
  have hreturn (o : Outcome γ) {β : Type} (next : Outcome γ → Option β) :
      lead (.text "\r") o next = lead (.one (· = '\r')) o next :=
    LeadsAs.fixed_singleton '\r' o next
  have hnone : lead (.text "\r") ⟨.inText t i, parts⟩ (lead (.text "\n") · next) = none := by
    rw [hreturn, lead_one_inText]
    cases hc : t[i]? with
    | none => rfl
    | some c =>
      have hne : c ≠ '\r' := fun heq => ht (heq ▸ List.mem_of_getElem? hc)
      simp [Option.filter, hne]
  rw [hnone, Option.none_or, lead_newline_crlf, Option.or_none, lead_newline_inText, hreturn]
  by_cases hget : t[i]? = some '\n'
  · have hlt : i < t.length := (List.getElem?_eq_some_iff.1 hget).1
    rw [if_pos hget, lead_one_crlf hget, if_pos (by decide), lead_newline_pastReturn hget,
      h.answer (i + 1) hlt]
  · rw [if_neg hget, Cursor.crlf, lead_one_inText, Text.getElem?_crlfOffset]
    cases hc : t[i]? with
    | none => rfl
    | some c =>
      have hne : c ≠ '\n' := fun heq => hget (heq ▸ hc)
      have hne' : c ≠ '\r' := fun heq => ht (heq ▸ List.mem_of_getElem? hc)
      simp [Option.filter, hne, hne']

end Runs

/-! ### Starting at a return -/

/-- What follows finds nothing past a return if it finds nothing before it. -/
def Climbs (t : Text) (next : Outcome γ → Option β) : Prop :=
  ∀ i parts, t[i]? = some '\n' →
    next ⟨.crlf t i, parts⟩ = none → next ⟨.pastReturn t i, parts⟩ = none

/-- With the pattern what follows finds nothing past a return if it finds nothing before it, if that
holds of what follows alone. -/
def Lifts (t : Text) (p : Pattern γ) : Prop :=
  ∀ ⦃β : Type⦄ ⦃next : Outcome γ → Option β⦄,
    ByPlace next → Climbs t next → Climbs t (lead p · next)

/-- A run may read the return in front of what it reads past it. -/
theorem climbs_many {cls : Char → Bool} (hreturn : cls '\r' = true)
    (next : Outcome γ → Option β) : Climbs t (lead (.many cls) · next) := by
  intro i parts hi hnone
  refine Option.eq_none_iff_forall_ne_some.2 fun r hr => ?_
  exact Option.some_ne_none r ((rises_many hreturn next i parts r hi hr).symm.trans hnone)

namespace Lifts

theorem star (hout : StaysOut t p) : Lifts t (.star p) := by
  intro β next _ hclimbs i parts hi hnone
  exact (hout.lead_star_eq hi parts next).trans (hclimbs i parts hi (eq_none_of_lead_star hnone))

theorem part (name : γ) (hp : Lifts t p) : Lifts t (.part name p) := by
  intro β next hplace hclimbs i parts hi hnone
  simp only [lead_part_eq] at hnone ⊢
  refine hp (hplace.reporting name _) (fun j parts hj h => ?_) i parts hi ?_
  · exact hplace _ _ _ (hclimbs j _ hj h)
  · exact (lead_eq_none_congr fun o => ⟨hplace _ _ _, hplace _ _ _⟩).1 hnone

theorem append (hp : Lifts t p) (hq : Lifts t q) : Lifts t (p ++ q) := by
  intro β next hplace hclimbs
  simpa only [append_eq, lead_andThen] using hp (byPlace_lead q hplace) (hq hplace hclimbs)

/-- Steps that may read the return in front of what they read past it, or none at all. -/
theorem maybe_part_plus {cls : Char → Bool} (hout : StaysOut t p) (hreturn : cls '\r' = true)
    (hnewline : cls '\n' = true) (name : γ) :
    Lifts t (.maybe (.part name (.plus (p ||| .one cls)))) := by
  intro β next hplace hclimbs i parts hi hnone
  simp only [lead_maybe, lead_part_eq, plus, append_eq, lead_andThen, orOp_eq, lead_orElse,
    Option.or_eq_none_iff] at hnone ⊢
  obtain ⟨⟨-, hone⟩, hnone⟩ := hnone
  have hlt : t.crlfOffset i + 1 < t.crlfOffset (i + 1) := by
    rw [Text.crlfOffset_succ_of_newline hi]
    omega
  refine ⟨⟨hout.lead_eq_none hi _ _, ?_⟩, hclimbs i parts hi hnone⟩
  -- a step over the return leads past it, and the next one over the newline
  rw [lead_one_crlf hi, if_pos hreturn, lead_star_eq, Option.or_eq_none_iff, lead_orElse,
    Option.or_eq_none_iff, lead_one_pastReturn hi hnewline, again_of_lt hlt] at hone
  rw [lead_one_pastReturn hi hnewline]
  exact (lead_eq_none_congr fun o => ⟨hplace _ _ _, hplace _ _ _⟩).1 hone.1.2

end Lifts

end Pattern

/-! ### Matches and searches -/

/-- Where a match is in the text with the returns. -/
def Match.crlf {γ : Type} (t : Text) (m : Match γ) : Match γ :=
  ⟨t.crlfOffset m.start, t.crlfOffset m.stop, Pattern.crlfParts t m.parts⟩

namespace Match

variable {γ : Type} [DecidableEq γ]

theorem span?_crlf (t : Text) (m : Match γ) (name : γ) :
    (m.crlf t).span? name = (m.span? name).map (Span.crlf t) := by
  change (m.parts.map fun x => (x.1, x.2.crlf t)).lookup name = _
  rw [span?]
  induction m.parts with
  | nil => rfl
  | cons x parts ih =>
    rw [List.map_cons, List.lookup_cons, List.lookup_cons, ih]
    cases name == x.1 <;> rfl

/-- A part of the text with the returns has the same text, with the returns. -/
theorem text?_crlf (t : Text) (m : Match γ) (name : γ) :
    (m.crlf t).text? (Text.crlf t) name = (m.text? t name).map Text.crlf := by
  rw [text?, text?, span?_crlf, Option.map_map, Option.map_map]
  exact congrArg (Option.map · (m.span? name)) (funext fun s => s.slice_crlf t)

theorem text_crlf (t : Text) (m : Match γ) (name : γ) :
    (m.crlf t).text (Text.crlf t) name = Text.crlf (m.text t name) := by
  rw [text, text, text?_crlf]
  cases m.text? t name <;> rfl

end Match

namespace Pattern

variable {γ : Type} {t : Text} {p : Pattern γ}

theorem Carries.matchAt?_crlf (hp : Carries t p) {i : Nat} (hi : i ≤ t.length) :
    p.matchAt? (Text.crlf t) (t.crlfOffset i) = (p.matchAt? t i).map (Match.crlf t) := by
  have hmatch : Mirrors t (Match.crlf t) (fun o : Outcome γ => some ⟨i, o.cursor.offset, o.parts⟩)
      fun o => some ⟨t.crlfOffset i, o.cursor.offset, o.parts⟩ :=
    ⟨fun _ _ _ => rfl, fun _ _ _ hnone => by cases hnone⟩
  exact (hp hmatch fun _ _ _ hnone => by cases hnone).answer i hi []

/-- A pattern that matches past a return matches before it, too. -/
def MatchesEarlier (t : Text) (p : Pattern γ) : Prop :=
  ∀ i, t[i]? = some '\n' → p.outcomes ⟨.crlf t i, []⟩ = [] → p.outcomes ⟨.pastReturn t i, []⟩ = []

theorem MatchesEarlier.of_climbs (h : Climbs t fun o : Outcome γ => lead p o some) :
    MatchesEarlier t p := by
  intro i hi hnil
  have hpast := h i [] hi (by simp only [lead, hnil, List.findSome?_nil])
  refine List.eq_nil_iff_forall_not_mem.2 fun o ho => ?_
  exact Option.some_ne_none o (lead_eq_none_iff.1 hpast o ho)

theorem StaysOut.matchesEarlier (h : StaysOut t p) : MatchesEarlier t p :=
  fun i hi _ => h i [] hi

end Pattern

namespace Finder

variable {γ : Type} {t : Text} {p : Pattern γ}

/-- A search in the text with the returns finds what it finds in the text. -/
theorem find?_crlf (hp : p.Carries t) (hearlier : p.MatchesEarlier t) {offset : Nat}
    (hoffset : offset ≤ t.length) : (ofPattern p (Text.crlf t)).find? (t.crlfOffset offset) =
      ((ofPattern p t).find? offset).map (Match.crlf t) := by
  -- no place of the text with the returns has a match unless one of the text has it
  have hnone {stop : Nat} (hstop : stop ≤ t.length)
      (h : ∀ i, offset ≤ i → i < stop → p.matchAt? t i = none) (k : Nat)
      (hle : t.crlfOffset offset ≤ k) (hlt : k < t.crlfOffset stop) :
      p.matchAt? (Text.crlf t) k = none := by
    have := Text.crlfOffset_le_length t stop
    obtain ⟨i, hi, hplace⟩ := Text.exists_place (t := t) (k := k) (by omega)
    have himage (hi' : offset ≤ i) (hlt' : i < stop) :
        p.matchAt? (Text.crlf t) (t.crlfOffset i) = none := by
      rw [hp.matchAt?_crlf hi, h i hi' hlt', Option.map_none]
    rcases hplace with rfl | ⟨hnew, rfl⟩
    · exact himage ((Text.crlfOffset_le_iff hoffset).1 hle) ((Text.crlfOffset_lt_iff hstop).1 hlt)
    · have hpast := (Pattern.crlfOffset_lt_pastReturn_iff (i := offset) hnew).1
      have hne : t.crlfOffset offset ≠ t.crlfOffset i + 1 := by
        intro heq
        have := (Pattern.crlfOffset_lt_pastReturn_iff (i := offset) hnew)
        have := Text.crlfOffset_succ_of_newline hnew
        omega
      have hlt' : i < stop := (Text.crlfOffset_lt_iff hstop).1 (by omega)
      rw [Pattern.matchAt?_eq_none_iff]
      exact hearlier i hnew (Pattern.matchAt?_eq_none_iff.1 (himage (hpast.1 (by omega)) hlt'))
  cases hfind : (ofPattern p t).find? offset with
  | none =>
    rw [find?_eq_none_iff] at hfind
    rw [Option.map_none, find?_eq_none_iff]
    intro k hle hlen
    rcases Nat.lt_or_ge k (t.crlfOffset t.length) with hlt | hge
    · exact hnone le_rfl (fun i hi hlt => hfind i hi hlt.le) k hle hlt
    · obtain rfl : k = t.crlfOffset t.length := by
        rw [Text.crlfOffset_length] at hge ⊢
        omega
      rw [hp.matchAt?_crlf le_rfl, hfind t.length hoffset le_rfl, Option.map_none]
  | some m =>
    rw [find?_eq_some_iff] at hfind
    obtain ⟨hle, hlen, hmatch, hbefore⟩ := hfind
    rw [Option.map_some, find?_eq_some_iff]
    refine ⟨Text.crlfOffset_mono t hle, Text.crlfOffset_le_length t _, ?_, ?_⟩
    · change p.matchAt? (Text.crlf t) (t.crlfOffset m.start) = _
      rw [hp.matchAt?_crlf hlen, hmatch, Option.map_some]
    · exact hnone hlen hbefore

/-- The matches from a place on are the first one and those from its end on. -/
theorem matchesFrom_eq {offset : Nat} (hoffset : offset ≤ t.length) : matchesFrom p t offset =
    match (ofPattern p t).find? offset with
    | none => []
    | some m => m :: if m.start < m.stop then matchesFrom p t m.stop else [] := by
  obtain ⟨bound, hbound⟩ : ∃ bound, t.length + 1 - offset = bound + 1 :=
    ⟨t.length - offset, by omega⟩
  rw [matchesFrom, hbound, allFrom]
  cases hfind : (ofPattern p t).find? offset with
  | none => rfl
  | some m =>
    have hle := start_le_of_find? hfind
    have hstop := (start_le_stop_of_find? hfind).2
    by_cases hlt : m.start < m.stop
    · simp only [hlt, if_true]
      congr 1
      exact allFrom_eq_of_le (by omega) (by omega)
    · simp only [hlt, if_false]

/-- The matches in the text with the returns are those in the text. -/
theorem matchesFrom_crlf (hp : p.Carries t) (hearlier : p.MatchesEarlier t) {offset : Nat}
    (hoffset : offset ≤ t.length) : matchesFrom p (Text.crlf t) (t.crlfOffset offset) =
      (matchesFrom p t offset).map (Match.crlf t) := by
  induction hn : t.length - offset using Nat.strong_induction_on generalizing offset with
  | _ n ih =>
    rw [matchesFrom_eq (Text.crlfOffset_le_length t offset), matchesFrom_eq hoffset,
      find?_crlf hp hearlier hoffset]
    cases hfind : (ofPattern p t).find? offset with
    | none => rfl
    | some m =>
      have hle := start_le_of_find? hfind
      have hstop := (start_le_stop_of_find? hfind).2
      have hiff := Text.crlfOffset_lt_iff (t := t) (i := m.start) hstop
      by_cases hlt : m.start < m.stop
      · simp only [Option.map_some, Match.crlf, hiff, hlt, if_true, List.map_cons]
        rw [ih _ (by omega) hstop rfl]
      · simp only [Option.map_some, Match.crlf, hiff, hlt, if_false, List.map_cons, List.map_nil]

end Finder

end Glossator
