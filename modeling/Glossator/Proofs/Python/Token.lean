import Mathlib
import Glossator.Python.Token
import Glossator.Text.Word

/-!
# What readers read

A token has at least one character, so a reader leaves less than it was given. The first character
tells a token from blanks, comments and joined lines.

* `Python.Token.Reader.Shortens`: the reader leaves less than it was given.
* `Python.Token.Reader.Opens`: what the first character of a token is.
* `Python.Token.name?_take`: a name is read as a whole.
-/

set_option autoImplicit false

namespace Glossator.Python.Token

/-- What the reader leaves is shorter than what it was given. -/
def Reader.Shortens (read : Reader) : Prop :=
  ∀ ⦃t rest : Text⦄, read t = some rest → rest.length < t.length

variable {read read' : Reader} {t rest : Text}

/-! ### Readers made of others -/

theorem Reader.Shortens.map (h : read.Shortens) {f : Text → Text}
    (hf : ∀ t, (f t).length ≤ t.length) : Reader.Shortens fun t => (read t).map f := by
  intro t rest hrest
  obtain ⟨behind, hbehind, rfl⟩ := Option.map_eq_some_iff.1 hrest
  exact (hf behind).trans_lt (h hbehind)

theorem Reader.Shortens.bind (h : read.Shortens)
    (h' : ∀ ⦃t rest⦄, read' t = some rest → rest.length ≤ t.length) :
    Reader.Shortens fun t => (read t).bind read' := by
  intro t rest hrest
  obtain ⟨behind, hbehind, hrest⟩ := Option.bind_eq_some_iff.1 hrest
  exact (h' hrest).trans_lt (h hbehind)

theorem Reader.Shortens.le (h : read.Shortens) ⦃t rest : Text⦄ (hrest : read t = some rest) :
    rest.length ≤ t.length := (h hrest).le

theorem Reader.Shortens.orStay_le (h : read.Shortens) (t : Text) :
    (orStay read t).length ≤ t.length := by
  unfold orStay
  cases hrest : read t with
  | none => exact le_rfl
  | some rest => exact (h hrest).le

theorem mem_of_longest {rests : List (Option Text)} (h : longest rests = some rest) :
    some rest ∈ rests := by
  have hfold : ∀ best ∈ longest rests, some best ∈ rests := by
    unfold longest
    refine List.foldlRecOn rests _ (motive := fun found => ∀ best ∈ found, some best ∈ rests)
      (fun best hbest => by cases hbest) ?_
    intro found hfound next hnext best hbest
    split at hbest
    · split at hbest
      · exact hbest ▸ hnext
      · exact hfound best hbest
    · exact hbest ▸ hnext
    · exact hfound best hbest
  exact hfold rest h

theorem one?_shortens (p : Char → Bool) : Reader.Shortens (one? p) := by
  intro t rest h
  cases t with
  | nil => cases h
  | cons c t =>
    by_cases hc : p c = true
    · rw [one?, if_pos hc] at h
      cases h
      exact Nat.lt_succ_self _
    · rw [one?, if_neg hc] at h
      cases h

theorem maybe_le (cs : List Char) (t : Text) : (maybe cs t).length ≤ t.length :=
  (one?_shortens cs.contains).orStay_le t

theorem dropWhile_le (p : Char → Bool) (t : Text) : (t.dropWhile p).length ≤ t.length :=
  (List.dropWhile_suffix p).length_le

theorem tail?_le (h : t.tail? = some rest) : rest.length ≤ t.length := by
  cases t with
  | nil => cases h
  | cons c t =>
    cases h
    exact Nat.le_succ _

/-! ### Numbers -/

theorem moreDigits_le (base : Nat) (t : Text) : (moreDigits base t).length ≤ t.length := by
  fun_induction moreDigits base t with
  | case1 d rest _ ih => exact ih.trans ((Nat.le_succ _).trans (Nat.le_succ _))
  | case2 => exact le_rfl
  | case3 d rest _ _ ih => exact ih.trans (Nat.le_succ _)
  | case4 => exact le_rfl
  | case5 => exact le_rfl

theorem digits?_shortens (base : Nat) : (digits? base).Shortens :=
  (one?_shortens _).map (moreDigits_le base)

theorem decimals?_shortens : decimals?.Shortens := (digits?_shortens 10).map (maybe_le _)

theorem basedInteger?_shortens (base : Nat) (letters : List Char) :
    (basedInteger? base letters).Shortens := by
  intro t rest h
  unfold basedInteger? at h
  split at h
  case h_1 letter behind =>
    split at h
    · have hle := ((digits?_shortens base).map (maybe_le ['l', 'L'])).le h
      have hmaybe := maybe_le ['_'] behind
      simp only [List.length_cons]
      omega
    · cases h
  case h_2 => cases h

theorem integer?_shortens : integer?.Shortens := by
  intro t rest h
  have hmem := mem_of_longest h
  simp only [List.mem_cons, List.not_mem_nil, or_false] at hmem
  rcases hmem with h | h | h | h
  · exact basedInteger?_shortens 16 _ h.symm
  · exact basedInteger?_shortens 8 _ h.symm
  · exact basedInteger?_shortens 2 _ h.symm
  · exact decimals?_shortens.map (maybe_le _) h.symm

theorem exponent?_shortens : exponent?.Shortens :=
  ((one?_shortens _).map (maybe_le _)).bind decimals?_shortens.le

theorem float?_shortens : float?.Shortens := by
  have hpoint := one?_shortens (· == '.')
  have hpointed : Reader.Shortens fun t =>
      ((decimals? t).bind (one? (· == '.'))).map (orStay decimals?) :=
    (decimals?_shortens.bind hpoint.le).map decimals?_shortens.orStay_le
  have hfraction : Reader.Shortens fun t =>
      (one? (· == '.') (orStay decimals? t)).bind decimals? := by
    intro t rest h
    have hlt := (hpoint.bind decimals?_shortens.le) h
    exact hlt.trans_le (decimals?_shortens.orStay_le t)
  intro t rest h
  have hmem := mem_of_longest h
  simp only [List.mem_cons, List.not_mem_nil, or_false] at hmem
  rcases hmem with h | h | h
  · exact ((hpointed.map exponent?_shortens.orStay_le).map (maybe_le _)) h.symm
  · exact ((hfraction.map exponent?_shortens.orStay_le).map (maybe_le _)) h.symm
  · exact ((decimals?_shortens.bind exponent?_shortens.le).map (maybe_le _)) h.symm

/-! ### Other tokens -/

theorem name?_shortens : name?.Shortens := (one?_shortens _).map (dropWhile_le _)

theorem conversion?_shortens : conversion?.Shortens :=
  (one?_shortens _).bind (one?_shortens _).le

theorem formatText?_shortens : formatText?.Shortens := (one?_shortens _).map (dropWhile_le _)

theorem comment?_shortens : comment?.Shortens := (one?_shortens _).map (dropWhile_le _)

theorem lineContinuation?_shortens : lineContinuation?.Shortens := by
  intro t rest h
  unfold lineContinuation? at h
  split at h
  case h_4 => cases h
  all_goals
    cases h
    simp only [List.length_cons]
    omega

theorem exactDigits?_le (base count : Nat) ⦃t rest : Text⦄
    (h : exactDigits? base count t = some rest) : rest.length ≤ t.length := by
  induction count generalizing t with
  | zero =>
    cases h
    exact le_rfl
  | succ count ih =>
    obtain ⟨behind, hbehind, h⟩ := Option.bind_eq_some_iff.1 h
    exact (ih h).trans (one?_shortens _ hbehind).le

theorem escape?_shortens : escape?.Shortens := by
  intro t rest h
  unfold escape? at h
  split at h
  case h_2 => cases h
  case h_1 behind =>
    refine Nat.lt_succ_of_le ?_
    split at h
    · exact (exactDigits?_le 16 4 h).trans (Nat.le_succ _)
    · exact (exactDigits?_le 16 8 h).trans (Nat.le_succ _)
    · exact (exactDigits?_le 16 2 h).trans (Nat.le_succ _)
    · cases h
      exact Nat.le_succ _
    · cases h
      exact (Nat.le_succ _).trans (Nat.le_succ _)
    · split at h
      · cases h
      · refine (tail?_le h).trans ((dropWhile_le _ _).trans ?_)
        simp only [List.length_cons]
        omega
    · split at h
      · cases h
        rw [List.length_tail]
        exact Nat.sub_le _ 1
      · exact exactDigits?_le 10 3 h
    · cases h

/-! ### First characters -/

/-- The character opens neither a comment nor a joined line, and is not blank. -/
def isOpening (c : Char) : Bool := c ≠ '#' && c ≠ '\\' && !isBlank c

/-- Characters that pass a test open tokens if none of the others passes it. -/
theorem isOpening_of {p : Char → Bool}
    (h : (35 :: 92 :: blankPoints).all (fun n => !p (Char.ofNat n)) = true) {c : Char}
    (hc : p c = true) : isOpening c = true := by
  by_contra hnot
  have hmem : c.toNat ∈ 35 :: 92 :: blankPoints := by
    simp only [isOpening, Bool.and_eq_true, decide_eq_true_eq, Bool.not_eq_true', not_and_or,
      Classical.not_not, Bool.not_eq_false] at hnot
    rcases hnot with (rfl | rfl) | hblank
    · exact List.mem_cons_self
    · exact List.mem_cons_of_mem _ List.mem_cons_self
    · exact List.mem_cons_of_mem _ (List.mem_cons_of_mem _ (mem_blankPoints hblank))
  have hfalse := List.all_eq_true.1 h _ hmem
  rw [Char.ofNat_toNat, hc] at hfalse
  cases hfalse

/-- What the reader reads starts with a character that passes a test. -/
def Reader.Opens (read : Reader) (p : Char → Bool) : Prop :=
  ∀ ⦃t rest : Text⦄, read t = some rest → ∃ c ∈ t.head?, p c = true

variable {p q : Char → Bool}

theorem Reader.Opens.mono (h : read.Opens p) (hpq : ∀ c, p c = true → q c = true) :
    read.Opens q := by
  intro t rest hrest
  obtain ⟨c, hc, hp⟩ := h hrest
  exact ⟨c, hc, hpq c hp⟩

theorem Reader.Opens.map (h : read.Opens p) (f : Text → Text) :
    Reader.Opens (fun t => (read t).map f) p := by
  intro t rest hrest
  obtain ⟨behind, hbehind, -⟩ := Option.map_eq_some_iff.1 hrest
  exact h hbehind

theorem Reader.Opens.bind (h : read.Opens p) (read' : Reader) :
    Reader.Opens (fun t => (read t).bind read') p := by
  intro t rest hrest
  obtain ⟨behind, hbehind, -⟩ := Option.bind_eq_some_iff.1 hrest
  exact h hbehind

theorem one?_opens (p : Char → Bool) : (one? p).Opens p := by
  intro t rest h
  cases t with
  | nil => cases h
  | cons c t =>
    rw [one?] at h
    obtain ⟨hc, -⟩ := Option.ite_none_right_eq_some.1 h
    exact ⟨c, rfl, hc⟩

/-- The first character of a number. -/
def opensNumber (c : Char) : Bool := Digits.isDigitOf 10 c || c == '.'

theorem decimals?_opens : decimals?.Opens opensNumber :=
  (((one?_opens _).map _).map _).mono fun _ hc => Bool.or_eq_true_iff.2 (.inl hc)

theorem basedInteger?_opens (base : Nat) (letters : List Char) :
    (basedInteger? base letters).Opens opensNumber := by
  intro t rest h
  unfold basedInteger? at h
  split at h
  · exact ⟨'0', rfl, by decide⟩
  · cases h

theorem integer?_opens : integer?.Opens opensNumber := by
  intro t rest h
  have hmem := mem_of_longest h
  simp only [List.mem_cons, List.not_mem_nil, or_false] at hmem
  rcases hmem with h | h | h | h
  · exact basedInteger?_opens 16 _ h.symm
  · exact basedInteger?_opens 8 _ h.symm
  · exact basedInteger?_opens 2 _ h.symm
  · exact decimals?_opens.map _ h.symm

theorem float?_opens : float?.Opens opensNumber := by
  have hpoint : Reader.Opens (one? (· == '.')) opensNumber :=
    (one?_opens _).mono fun _ hc => Bool.or_eq_true_iff.2 (.inr hc)
  have hfraction : Reader.Opens (fun t =>
      (one? (· == '.') (orStay decimals? t)).bind decimals?) opensNumber := by
    intro t rest h
    cases hdecimals : decimals? t with
    | none =>
      simp only [orStay, hdecimals, Option.getD_none] at h
      exact hpoint.bind _ h
    | some behind => exact decimals?_opens hdecimals
  intro t rest h
  have hmem := mem_of_longest h
  simp only [List.mem_cons, List.not_mem_nil, or_false] at hmem
  rcases hmem with h | h | h
  · exact (((decimals?_opens.bind _).map _).map _).map _ h.symm
  · exact (hfraction.map _).map _ h.symm
  · exact (decimals?_opens.bind _).map _ h.symm

theorem isOpening_of_opensNumber {c : Char} (h : opensNumber c = true) : isOpening c = true :=
  isOpening_of (p := opensNumber) (by decide) h

theorem conversion?_opens : conversion?.Opens isOpening :=
  ((one?_opens _).bind _).mono fun c hc => by
    rw [eq_of_beq hc]
    decide

theorem isOpening_of_isIdentifierStart {c : Char} (h : isIdentifierStart c = true) :
    isOpening c = true :=
  isOpening_of (p := isIdentifierStart) (by decide +kernel) h

theorem name?_opens : name?.Opens isOpening :=
  ((one?_opens _).map _).mono fun _ => isOpening_of_isIdentifierStart

/-! ### Names -/

/-- What is left behind a name follows it in the text. -/
theorem take_append_of_name? (h : name? t = some rest) :
    t.take (t.length - rest.length) ++ rest = t := by
  cases t with
  | nil => cases h
  | cons c t =>
    obtain ⟨behind, hbehind, rfl⟩ := Option.map_eq_some_iff.1 h
    obtain ⟨-, hrest⟩ := Option.ite_none_right_eq_some.1 hbehind
    obtain rfl := Option.some.inj hrest
    have hsuffix : t.dropWhile isIdentifierContinue <:+ c :: t :=
      (List.dropWhile_suffix _).trans (List.suffix_cons c t)
    exact List.suffix_iff_eq_append.1 hsuffix

/-- The name at the start of a text is read as a whole. -/
theorem name?_take (h : name? t = some rest) :
    name? (t.take (t.length - rest.length)) = some [] := by
  cases t with
  | nil => cases h
  | cons c t =>
    unfold name? one? at h ⊢
    obtain ⟨behind, hbehind, rfl⟩ := Option.map_eq_some_iff.1 h
    obtain ⟨hc, hrest⟩ := Option.ite_none_right_eq_some.1 hbehind
    obtain rfl := Option.some.inj hrest
    have hlength : (c :: t).length - (t.dropWhile isIdentifierContinue).length =
        (t.takeWhile isIdentifierContinue).length + 1 := by
      have hsum := congrArg List.length (List.takeWhile_append_dropWhile
        (p := isIdentifierContinue) (l := t))
      rw [List.length_append] at hsum
      rw [List.length_cons]
      omega
    have htake : t.take (t.takeWhile isIdentifierContinue).length =
        t.takeWhile isIdentifierContinue :=
      (List.prefix_iff_eq_take.1 (List.takeWhile_prefix _)).symm
    rw [hlength, List.take_succ_cons, htake]
    simp only [hc, if_true, Option.map_some, Option.some.injEq, List.dropWhile_eq_nil_iff]
    exact fun d hd => List.mem_takeWhile_imp hd

/-- A name holds no blanks. -/
theorem isBlank_eq_false_of_name? (h : name? t = some []) : ∀ c ∈ t, isBlank c = false := by
  cases t with
  | nil => cases h
  | cons c t =>
    obtain ⟨behind, hbehind, hrest⟩ := Option.map_eq_some_iff.1 h
    rw [one?] at hbehind
    obtain ⟨hc, htext⟩ := Option.ite_none_right_eq_some.1 hbehind
    obtain rfl := Option.some.inj htext
    have hopening {d : Char} (hd : isOpening d = true) : isBlank d = false := by
      simp only [isOpening, Bool.and_eq_true, Bool.not_eq_true'] at hd
      exact hd.2
    intro d hd
    rcases List.mem_cons.1 hd with rfl | hd
    · exact hopening (isOpening_of_isIdentifierStart hc)
    · exact hopening (isOpening_of (p := isIdentifierContinue) (by decide +kernel)
        (List.dropWhile_eq_nil_iff.1 hrest d hd))

end Glossator.Python.Token
