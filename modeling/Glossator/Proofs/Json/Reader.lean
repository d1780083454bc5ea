import Glossator.Json.Printer
import Glossator.Json.Reader
import Glossator.Proofs.Text.Digits

/-!
# Reading what was written

A value that is written in the indented form is read back: strings character by character, integers
as such if they fit in 64 bits, and arrays and objects with their items and fields in order, as deep
as the reader goes.

* `Json.reread`: what the reader makes of a value that was written.
* `Json.Within`: the values that the reader has room for.
* `Json.value?_indented`: such a value is read from its indented form, with nothing of what follows.
* `Json.read?_indented`: and it is the one value of that text, whatever blanks follow.
-/

set_option autoImplicit false

namespace Glossator.Json

variable {rest : Text}

/-! ### Strings -/

/-- The code of a control character is read back. -/
theorem codeEscape?_hexadecimal {c : Char} (h : c.toNat < 32) (rest : Text) :
    codeEscape? (Digits.hexadecimal 4 c.toNat ++ rest) = some (c, rest) := by
  have hdigits : ∀ n < 32, (Digits.hexadecimal 4 n).length = 4 ∧
      (Digits.hexadecimal 4 n).all (Digits.isDigitOf 16) = true ∧
      Digits.value 16 (Digits.hexadecimal 4 n) = n := by decide +kernel
  obtain ⟨hlength, hall, hvalue⟩ := hdigits c.toNat h
  obtain ⟨x, y, z, w, hcode⟩ := List.length_eq_four.1 hlength
  have hunit : hexUnit? (Digits.hexadecimal 4 c.toNat ++ rest) = some (c.toNat, rest) := by
    rw [hcode] at hall hvalue ⊢
    simp only [List.cons_append, List.nil_append, hexUnit?, hall, hvalue, if_true]
  rw [codeEscape?, hunit]
  have hlow : ¬ 0xD800 ≤ c.toNat := by omega
  have hlow' : ¬ 0xDC00 ≤ c.toNat := by omega
  simp [hlow, hlow', Char.ofNat_toNat]

/-- A written character is read as the character. -/
theorem stringBody?_escape (c : Char) (bound : Nat) (rest : Text) :
    stringBody? (bound + 1) (escape c ++ rest) =
      (stringBody? bound rest).map fun (s, rest) => (c :: s, rest) := by
  unfold escape
  split
  all_goals try (simp [stringBody?, escape?]; cases stringBody? bound rest <;> rfl)
  next hquote hbackslash _ _ _ _ _ =>
    split
    · next hcontrol =>
      simp only [List.cons_append, List.nil_append, stringBody?, escape?,
        codeEscape?_hexadecimal hcontrol, Option.bind_eq_bind, Option.bind_some]
      cases stringBody? bound rest <;> rfl
    · next hplain =>
      simp only [List.singleton_append, stringBody?, hplain, if_false, Option.bind_eq_bind]
      cases stringBody? bound rest <;> rfl

/-- The written characters of a text are read back up to the closing quote. -/
theorem stringBody?_escaped (t rest : Text) {bound : Nat} (h : t.length < bound) :
    stringBody? bound (t.flatMap escape ++ '"' :: rest) = some (t, rest) := by
  induction t generalizing bound with
  | nil =>
    obtain ⟨bound, rfl⟩ := Nat.exists_eq_add_one_of_ne_zero (Nat.ne_of_gt h)
    rfl
  | cons c t ih =>
    obtain ⟨bound, rfl⟩ := Nat.exists_eq_add_one_of_ne_zero (Nat.ne_of_gt (Nat.zero_lt_of_lt h))
    rw [List.flatMap_cons, List.append_assoc, stringBody?_escape, ih (by simpa using h)]
    rfl

theorem length_le_flatMap_escape (t : Text) : t.length ≤ (t.flatMap escape).length := by
  induction t with
  | nil => rfl
  | cons c t ih =>
    have hpos : 0 < (escape c).length := by
      unfold escape
      split <;> try exact Nat.zero_lt_succ _
      split <;> exact Nat.zero_lt_succ _
    rw [List.flatMap_cons, List.length_append, List.length_cons]
    omega

/-- A quoted text is read back behind its opening quote. -/
theorem stringBody?_quote (t rest : Text) :
    stringBody? ((t.flatMap escape ++ '"' :: rest).length + 1)
      (t.flatMap escape ++ '"' :: rest) = some (t, rest) := by
  apply stringBody?_escaped
  have := length_le_flatMap_escape t
  rw [List.length_append]
  omega

theorem quote_append (t rest : Text) :
    quote t ++ rest = '"' :: (t.flatMap escape ++ '"' :: rest) := by
  simp [quote]

/-! ### Numbers -/

/-- What stands behind a number does not continue it. -/
def EndsNumber (rest : Text) : Prop :=
  ∀ c ∈ rest.head?, c.isDigit = false ∧ c ≠ '.' ∧ c ≠ 'e' ∧ c ≠ 'E'

theorem endsNumber_cons {c : Char} (h : c.isDigit = false ∧ c ≠ '.' ∧ c ≠ 'e' ∧ c ≠ 'E')
    (rest : Text) : EndsNumber (c :: rest) := by
  intro d hd
  cases hd
  exact h

theorem fraction?_of_endsNumber (h : EndsNumber rest) : fraction? rest = some ([], rest) := by
  unfold fraction?
  split
  · exact absurd rfl (h _ rfl).2.1
  · rfl

theorem exponent?_of_endsNumber (h : EndsNumber rest) : exponent? rest = some ([], rest) := by
  cases rest with
  | nil => rfl
  | cons c rest =>
    obtain ⟨-, -, he, hE⟩ := h c rfl
    simp [exponent?, he, hE]

/-- The digits of a number are its whole part. -/
theorem wholePart?_decimal (n : Nat) (h : EndsNumber rest) :
    wholePart? (Digits.decimal n ++ rest) = some (Digits.decimal n, rest) := by
  have hall : ∀ c ∈ Digits.decimal n, c.isDigit = true := Digits.isDigit_of_mem_decimal
  have htake : (Digits.decimal n ++ rest).takeWhile Char.isDigit = Digits.decimal n := by
    rw [List.takeWhile_append_of_pos hall]
    cases rest with
    | nil => simp
    | cons c rest => simp [h c rfl]
  have hdrop : (Digits.decimal n ++ rest).dropWhile Char.isDigit = rest := by
    rw [List.dropWhile_append_of_pos hall]
    cases rest with
    | nil => rfl
    | cons c rest => simp [h c rfl]
  obtain ⟨c, ds, hcons, hne | ⟨-, rfl, rfl⟩⟩ := Digits.exists_decimal_cons n
  · rw [hcons] at htake hdrop ⊢
    unfold wholePart?
    split
    · next heq => exact absurd (List.cons.inj heq).1 hne
    · rw [digits?, htake, hdrop]
  · rw [hcons]
    cases rest with
    | nil => rfl
    | cons c rest => simp [wholePart?, h c rfl]

/-- What an integer in its decimal notation is read as: one beyond 64 bits stays as written. -/
def rereadInteger (i : Int) : Json :=
  if -9223372036854775808 ≤ i ∧ i ≤ 18446744073709551615 then integer i
  else decimal (String.ofList (Digits.decimalInt i))

theorem decimalInt_eq (i : Int) : Digits.decimalInt i =
    (if decide (i < 0) = true then ['-'] else []) ++ Digits.decimal i.natAbs := by
  cases i with
  | ofNat n => simp [Digits.decimalInt]
  | negSucc n => simp [Digits.decimalInt, Int.negSucc_lt_zero]

/-- Digits alone, with the sign of an integer, stand for the integer. -/
theorem ofNumberParts_natAbs (i : Int) :
    ofNumberParts (decide (i < 0)) (Digits.decimal i.natAbs) [] [] = rereadInteger i := by
  have hzero : (decide (i < 0) && i == 0) = false := by
    rw [Bool.and_eq_false_iff, decide_eq_false_iff_not, beq_eq_false_iff_ne]
    omega
  simp only [ofNumberParts, Digits.value_decimal, Digits.signed_natAbs, hzero, rereadInteger,
    decimalInt_eq]
  simp

/-- An integer is read from its decimal notation. -/
theorem number?_decimalInt (i : Int) (h : EndsNumber rest) :
    number? (Digits.decimalInt i ++ rest) = some (rereadInteger i, rest) := by
  have hparts := ofNumberParts_natAbs i
  cases i with
  | ofNat n =>
    obtain ⟨c, ds, hcons, hdigit⟩ := Digits.exists_digit_cons n
    have hminus : c ≠ '-' := by
      rintro rfl
      cases hdigit
    have hwhole := wholePart?_decimal n h
    have hparts' : ofNumberParts false (Digits.decimal n) [] [] = rereadInteger (.ofNat n) := hparts
    rw [Digits.decimalInt]
    rw [hcons, List.cons_append] at hwhole ⊢
    rw [hcons] at hparts'
    simp [number?, hminus, hwhole, fraction?_of_endsNumber h, exponent?_of_endsNumber h, hparts']
  | negSucc n =>
    rw [decide_eq_true (Int.negSucc_lt_zero n), Int.natAbs_negSucc] at hparts
    simp [number?, Digits.decimalInt, wholePart?_decimal (n + 1) h, fraction?_of_endsNumber h,
      exponent?_of_endsNumber h, hparts]

/-! ### Values -/

/-- What the reader makes of a value that was written. -/
def reread : Json → Json
  | integer i => rereadInteger i
  | array items => array (items.map reread)
  | object fields => object (fields.map fun f => (f.1, f.2.reread))
  | j => j
decreasing_by
  · have := List.sizeOf_lt_of_mem ‹_›
    decreasing_tactic
  · have hlt := List.sizeOf_lt_of_mem ‹_›
    have : sizeOf f.2 < sizeOf f := by cases f; simp +arith
    simp only [object.sizeOf_spec]
    omega

@[simp] theorem reread_null : null.reread = null := by simp [reread]

@[simp] theorem reread_bool (b : Bool) : (bool b).reread = bool b := by simp [reread]

@[simp] theorem reread_string (s : String) : (string s).reread = string s := by simp [reread]

/-- A value that the reader has room for: it has no numbers but integers, and its arrays and objects
nest at most so deep. -/
inductive Within : Nat → Json → Prop where
  | null (depth : Nat) : Within depth .null
  | bool (depth : Nat) (b : Bool) : Within depth (.bool b)
  | integer (depth : Nat) (i : Int) : Within depth (.integer i)
  | string (depth : Nat) (s : String) : Within depth (.string s)
  | array {depth : Nat} {items : List Json} (h : ∀ j ∈ items, Within depth j) :
    Within (depth + 1) (.array items)
  | object {depth : Nat} {fields : List (String × Json)} (h : ∀ f ∈ fields, Within depth f.2) :
    Within (depth + 1) (.object fields)

theorem skipBlanks_newLine (depth : Nat) (t : Text) :
    skipBlanks (newLine depth ++ t) = skipBlanks t := by
  have hblank : ∀ c ∈ newLine depth, (c == ' ' || c == '\n' || c == '\t' || c == '\r') = true := by
    intro c hc
    rcases List.mem_cons.1 hc with rfl | hc
    · rfl
    · rw [List.eq_of_mem_replicate hc]
      rfl
  rw [skipBlanks, List.dropWhile_append_of_pos hblank]
  rfl

/-- The values that a reader reads from their indented form, whatever stands behind it. -/
def ReadsBack (item : Reader Json) (depth : Nat) (j : Json) : Prop :=
  ∀ rest, EndsNumber rest → skipBlanks (indented depth j ++ rest) = indented depth j ++ rest ∧
    item (indented depth j ++ rest) = some (j.reread, rest)

section Items

variable {item : Reader Json} {depth : Nat}

theorem endsNumber_indentedItems (depth : Nat) (items : List Json) (rest : Text) :
    EndsNumber (indentedItems depth items ++ rest) := by
  cases items with
  | nil => exact endsNumber_cons (by decide) _
  | cons j items => exact endsNumber_cons (by decide) _

theorem endsNumber_indentedFields (depth : Nat) (fields : List (String × Json)) (rest : Text) :
    EndsNumber (indentedFields depth fields ++ rest) := by
  cases fields with
  | nil => exact endsNumber_cons (by decide) _
  | cons f fields => exact endsNumber_cons (by decide) _

/-- The items of an array are read in order, up to its end. -/
theorem items?_indented {j : Json} {items : List Json} (hj : ReadsBack item (depth + 1) j)
    (h : ∀ j ∈ items, ReadsBack item (depth + 1) j) {t rest : Text}
    (ht : skipBlanks t = indented (depth + 1) j ++ (indentedItems depth items ++ rest))
    {bound : Nat} (hbound : items.length < bound) :
    items? item bound t = some ((j :: items).map reread, rest) := by
  obtain ⟨bound, rfl⟩ := Nat.exists_eq_add_one_of_ne_zero (Nat.ne_of_gt (Nat.zero_lt_of_lt hbound))
  induction items generalizing j t bound with
  | nil =>
    obtain ⟨-, hread⟩ := hj _ (endsNumber_indentedItems depth [] rest)
    have hend : skipBlanks (indentedItems depth [] ++ rest) = ']' :: rest := by
      rw [indentedItems, List.append_assoc, skipBlanks_newLine]
      rfl
    simp [items?, ht, hread, hend]
  | cons next items ih =>
    obtain ⟨-, hread⟩ := hj _ (endsNumber_indentedItems depth (next :: items) rest)
    have hcomma : skipBlanks (indentedItems depth (next :: items) ++ rest) =
        ',' :: (newLine (depth + 1) ++ (indented (depth + 1) next ++
          (indentedItems depth items ++ rest))) := by
      simp [indentedItems, skipBlanks]
    have hnext := h next List.mem_cons_self
    obtain ⟨hblanks, -⟩ := hnext _ (endsNumber_indentedItems depth items rest)
    obtain ⟨bound, rfl⟩ := Nat.exists_eq_add_one_of_ne_zero
      (Nat.ne_of_gt (Nat.zero_lt_of_lt (Nat.lt_of_succ_lt_succ hbound)))
    have hrest := ih hnext (fun j hj => h j (List.mem_cons_of_mem _ hj))
      ((skipBlanks_newLine (depth + 1) _).trans hblanks) bound (Nat.lt_of_succ_lt_succ hbound)
    rw [items?, ht]
    simp [hread, hcomma, hrest]

/-- The fields of an object are read in order, up to its end. -/
theorem fields?_indented {name : String} {j : Json} {fields : List (String × Json)}
    (hj : ReadsBack item (depth + 1) j) (h : ∀ f ∈ fields, ReadsBack item (depth + 1) f.2)
    {t rest : Text} (ht : skipBlanks t = quote name.toList ++ ':' :: ' ' ::
      (indented (depth + 1) j ++ (indentedFields depth fields ++ rest)))
    {bound : Nat} (hbound : fields.length < bound) :
    fields? item bound t =
      some (((name, j) :: fields).map fun f => (f.1, f.2.reread), rest) := by
  obtain ⟨bound, rfl⟩ := Nat.exists_eq_add_one_of_ne_zero (Nat.ne_of_gt (Nat.zero_lt_of_lt hbound))
  have hspace (t : Text) : skipBlanks (' ' :: t) = skipBlanks t := rfl
  have hcolon (t : Text) : skipBlanks (':' :: t) = ':' :: t := rfl
  induction fields generalizing name j t bound with
  | nil =>
    obtain ⟨hblanks, hread⟩ := hj _ (endsNumber_indentedFields depth [] rest)
    have hend : skipBlanks (indentedFields depth [] ++ rest) = '}' :: rest := by
      rw [indentedFields, List.append_assoc, skipBlanks_newLine]
      rfl
    rw [fields?, ht, quote_append]
    simp only [stringBody?_quote, hcolon, hspace, hblanks, hread, hend, Option.bind_eq_bind,
      Option.bind_some, String.ofList_toList, List.map_cons, List.map_nil]
  | cons next fields ih =>
    obtain ⟨hblanks, hread⟩ := hj _ (endsNumber_indentedFields depth (next :: fields) rest)
    obtain ⟨name', j'⟩ := next
    have hcomma : skipBlanks (indentedFields depth ((name', j') :: fields) ++ rest) =
        ',' :: (newLine (depth + 1) ++ (quote name'.toList ++ ':' :: ' ' ::
          (indented (depth + 1) j' ++ (indentedFields depth fields ++ rest)))) := by
      simp [indentedFields, skipBlanks]
    obtain ⟨bound, rfl⟩ := Nat.exists_eq_add_one_of_ne_zero
      (Nat.ne_of_gt (Nat.zero_lt_of_lt (Nat.lt_of_succ_lt_succ hbound)))
    have hquote : skipBlanks (newLine (depth + 1) ++ (quote name'.toList ++ ':' :: ' ' ::
        (indented (depth + 1) j' ++ (indentedFields depth fields ++ rest)))) =
          quote name'.toList ++ ':' :: ' ' ::
            (indented (depth + 1) j' ++ (indentedFields depth fields ++ rest)) := by
      rw [skipBlanks_newLine, quote_append]
      rfl
    have hrest := ih (h _ List.mem_cons_self) (fun f hf => h f (List.mem_cons_of_mem _ hf))
      hquote bound (Nat.lt_of_succ_lt_succ hbound)
    rw [fields?, ht, quote_append]
    simp only [stringBody?_quote, hcolon, hspace, hblanks, hread, hcomma, hrest,
      Option.bind_eq_bind, Option.bind_some, String.ofList_toList, List.map_cons]

end Items

theorem length_le_indentedItems (depth : Nat) (items : List Json) :
    items.length < (indentedItems depth items).length := by
  induction items with
  | nil => simp [indentedItems]
  | cons j items ih =>
    rw [indentedItems, List.length_cons, List.length_cons, List.length_append, List.length_append]
    omega

theorem length_le_indentedFields (depth : Nat) (fields : List (String × Json)) :
    fields.length < (indentedFields depth fields).length := by
  induction fields with
  | nil => simp [indentedFields]
  | cons f fields ih =>
    obtain ⟨name, j⟩ := f
    simp only [indentedFields, List.length_cons, List.length_append]
    omega

/-- An integer starts with none of the characters that other values start with. -/
theorem value?_decimalInt (i : Int) (depth : Nat) (h : EndsNumber rest) :
    skipBlanks (Digits.decimalInt i ++ rest) = Digits.decimalInt i ++ rest ∧
      value? depth (Digits.decimalInt i ++ rest) = some (rereadInteger i, rest) := by
  have hnumber := number?_decimalInt i h
  obtain ⟨c, ds, hcons, hc⟩ := Digits.exists_decimalInt_cons i
  have hne (d : Char) (hd : d.isDigit = false ∧ d ≠ '-') : c ≠ d := by
    rintro rfl
    rcases hc with hc | hc
    · exact Bool.false_ne_true (hd.1.symm.trans hc)
    · exact hd.2 hc
  rw [hcons, List.cons_append] at hnumber ⊢
  refine ⟨?_, ?_⟩
  · have hblank : (c == ' ' || c == '\n' || c == '\t' || c == '\r') = false := by
      simp [hne ' ' (by decide), hne '\n' (by decide), hne '\t' (by decide), hne '\r' (by decide)]
    rw [skipBlanks, List.dropWhile_cons, hblank]
    rfl
  · rw [← hnumber]
    unfold value?
    split <;> first | rfl | (rename_i heq; exact absurd (List.cons.inj heq).1 (hne _ (by decide)))

/-- No value starts with the end of an array. -/
theorem value?_bracket (depth : Nat) (t : Text) : value? depth (']' :: t) = none := by
  unfold value?
  rfl

/-- A value that the reader has room for is read from its indented form. -/
theorem value?_indented {depth : Nat} {j : Json} (h : Within depth j) (nesting : Nat) :
    ReadsBack (value? depth) nesting j := by
  induction h generalizing nesting with
  | null depth => exact fun rest _ => ⟨rfl, by rw [reread_null]; unfold value?; rfl⟩
  | bool depth b =>
    intro rest _
    rw [reread_bool]
    cases b <;> exact ⟨rfl, by unfold value?; rfl⟩
  | integer depth i =>
    intro rest hrest
    rw [reread]
    exact value?_decimalInt i depth hrest
  | string depth s =>
    intro rest _
    change skipBlanks (quote s.toList ++ rest) = quote s.toList ++ rest ∧
      value? depth (quote s.toList ++ rest) = some ((Json.string s).reread, rest)
    rw [quote_append]
    refine ⟨rfl, ?_⟩
    unfold value?
    simp only [reread_string, stringBody?_quote, Option.map_some, String.ofList_toList]
  | @array depth items h ih =>
    intro rest hrest
    cases items with
    | nil => exact ⟨rfl, by unfold value? reread; rfl⟩
    | cons j items =>
      have hj := ih j List.mem_cons_self (nesting + 1)
      obtain ⟨hblanks, hread⟩ := hj _ (endsNumber_indentedItems nesting items rest)
      have htext : indented nesting (.array (j :: items)) ++ rest = '[' :: (newLine (nesting + 1) ++
          (indented (nesting + 1) j ++ (indentedItems nesting items ++ rest))) := by
        simp [indented]
      have hitems : items? (value? depth)
          ((indented (nesting + 1) j ++ (indentedItems nesting items ++ rest)).length + 1)
          (indented (nesting + 1) j ++ (indentedItems nesting items ++ rest)) =
            some ((j :: items).map reread, rest) := by
        refine items?_indented hj (fun j hj => ih j (List.mem_cons_of_mem _ hj) _) hblanks ?_
        have := length_le_indentedItems nesting items
        simp only [List.length_append]
        omega
      rw [htext]
      refine ⟨rfl, ?_⟩
      unfold value?
      simp only [skipBlanks_newLine, hblanks]
      split
      · next heq =>
        rw [heq, value?_bracket] at hread
        cases hread
      · rw [hitems, reread]
        rfl
  | @object depth fields h ih =>
    intro rest hrest
    cases fields with
    | nil => exact ⟨rfl, by unfold value? reread; rfl⟩
    | cons f fields =>
      obtain ⟨name, j⟩ := f
      have hj := ih (name, j) List.mem_cons_self (nesting + 1)
      have htext : indented nesting (.object ((name, j) :: fields)) ++ rest =
          '{' :: (newLine (nesting + 1) ++ (quote name.toList ++ ':' :: ' ' ::
            (indented (nesting + 1) j ++ (indentedFields nesting fields ++ rest)))) := by
        simp [indented]
      have hquote : skipBlanks (quote name.toList ++ ':' :: ' ' ::
          (indented (nesting + 1) j ++ (indentedFields nesting fields ++ rest))) =
            quote name.toList ++ ':' :: ' ' ::
              (indented (nesting + 1) j ++ (indentedFields nesting fields ++ rest)) := by
        rw [quote_append]
        rfl
      have hfields : fields? (value? depth) ((quote name.toList ++ ':' :: ' ' ::
          (indented (nesting + 1) j ++ (indentedFields nesting fields ++ rest))).length + 1)
          (quote name.toList ++ ':' :: ' ' ::
            (indented (nesting + 1) j ++ (indentedFields nesting fields ++ rest))) =
              some (((name, j) :: fields).map fun f => (f.1, f.2.reread), rest) := by
        refine fields?_indented hj (fun f hf => ih f (List.mem_cons_of_mem _ hf) _) hquote ?_
        have := length_le_indentedFields nesting fields
        simp only [List.length_append, List.length_cons]
        omega
      rw [htext]
      refine ⟨rfl, ?_⟩
      unfold value?
      simp only [skipBlanks_newLine, hquote]
      rw [quote_append] at hfields ⊢
      rw [reread]
      exact congrArg (Option.map _) hfields

/-- A value that is written in the indented form is the one that is read from the text, whatever
blanks follow it. -/
theorem read?_indented {j : Json} (h : Within maxDepth j) {blanks : Text}
    (hblanks : ∀ c ∈ blanks, c = ' ' ∨ c = '\n' ∨ c = '\t' ∨ c = '\r') :
    read? (indented 0 j ++ blanks) = some j.reread := by
  have hends : EndsNumber blanks := by
    intro c hc
    rcases hblanks c (List.mem_of_mem_head? hc) with rfl | rfl | rfl | rfl <;> decide
  obtain ⟨hskip, hread⟩ := value?_indented h 0 blanks hends
  have hnone : skipBlanks blanks = [] := by
    rw [skipBlanks, List.dropWhile_eq_nil_iff]
    intro c hc
    rcases hblanks c hc with rfl | rfl | rfl | rfl <;> rfl
  simp [read?, readNested?, hskip, hread, hnone]

end Glossator.Json
