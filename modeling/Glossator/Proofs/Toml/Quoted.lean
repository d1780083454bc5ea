import Mathlib
import Glossator.Toml.Printer
import Glossator.Toml.Quoted

/-!
# Strings in TOML

A text that is written as a string is read back, whatever its characters are and whichever of the
four kinds of quotes it is put in.

* `Toml.string?_quote`: a text comes back from its string.
-/

set_option autoImplicit false

namespace Glossator.Toml

variable {c : Char} {t rest : Text}

/-! ### Characters -/

theorem isPlain_eq (c : Char) : isPlain c = !isControl c := by
  have h32 : decide (32 ≤ c.toNat) = !decide (c.toNat < 32) := by
    rw [← decide_not]
    exact decide_eq_decide.2 Nat.not_lt.symm
  rw [isPlain, isControl, h32, bne, bne]
  by_cases htab : c = '\t'
  · subst htab
    rfl
  · rw [beq_eq_false_iff_ne.2 htab]
    simp

/-- Four hexadecimal digits of a control character stand for it. -/
theorem codePoint?_control (h : isControl c = true) :
    codePoint? 4 ((Digits.hexadecimal 4 c.toNat).map Char.toUpper ++ rest) = some (c, rest) := by
  have hlt : c.toNat < 128 := by
    simp only [isControl, Bool.or_eq_true, Bool.and_eq_true, decide_eq_true_eq,
      beq_iff_eq] at h
    omega
  have hdigits : ∀ n < 128, ((Digits.hexadecimal 4 n).map Char.toUpper).length = 4 ∧
      ((Digits.hexadecimal 4 n).map Char.toUpper).all (Digits.isDigitOf 16) = true ∧
      Digits.value 16 ((Digits.hexadecimal 4 n).map Char.toUpper) = n := by decide +kernel
  obtain ⟨hlength, hall, hvalue⟩ := hdigits c.toNat hlt
  have htake : ((Digits.hexadecimal 4 c.toNat).map Char.toUpper ++ rest).take 4 =
      (Digits.hexadecimal 4 c.toNat).map Char.toUpper := List.take_left' hlength
  have hdrop : ((Digits.hexadecimal 4 c.toNat).map Char.toUpper ++ rest).drop 4 = rest :=
    List.drop_left' hlength
  simp only [codePoint?, htake, hdrop, hlength, hall, hvalue]
  rw [if_pos (by simp; omega), Char.ofNat_toNat]

/-- A character is written as itself, or as a backslash and what is read as it. -/
theorem escape_cases (c : Char) :
    (escape c = [c] ∧ isPlain c = true ∧ c ≠ '\\') ∨
      ∃ mark code, escape c = '\\' :: mark :: code ∧ isPlain mark = true ∧ isSpace mark = false ∧
        ∀ rest, escape? (mark :: (code ++ rest)) = some (c, rest) := by
  unfold escape
  split
  all_goals try exact .inr ⟨_, _, rfl, rfl, rfl, fun _ => rfl⟩
  next hbackspace htab hnewline hfeed hreturn hbackslash =>
    split
    · next hcontrol =>
      exact .inr ⟨_, _, rfl, rfl, rfl, fun rest => codePoint?_control hcontrol⟩
    · next hcontrol =>
      refine .inl ⟨rfl, ?_, hbackslash⟩
      rw [isPlain_eq]
      simpa using hcontrol

theorem afterNewline?_eq_none (h : isPlain c = true) (t : Text) :
    afterNewline? (c :: t) = none := by
  unfold afterNewline?
  split
  · next heq =>
    cases heq
    cases h
  · next heq =>
    cases heq
    cases h
  · rfl

/-! ### Strings on one line -/

theorem basicBody?_escaped (t rest : Text) {n : Nat} (hn : (escaped 0 false 0 t).length < n) :
    basicBody? n (escaped 0 false 0 t ++ '"' :: rest) = some (t, rest) := by
  induction t generalizing n with
  | nil =>
    obtain ⟨n, rfl⟩ := Nat.exists_eq_add_one_of_ne_zero (Nat.ne_of_gt hn)
    rfl
  | cons c t ih =>
    obtain ⟨n, rfl⟩ := Nat.exists_eq_add_one_of_ne_zero (Nat.ne_of_gt (Nat.zero_lt_of_lt hn))
    by_cases hquote : c = '"'
    · subst hquote
      have hescaped : escaped 0 false 0 ('"' :: t) = '\\' :: '"' :: escaped 0 false 0 t := by
        simp [escaped]
      rw [hescaped] at hn ⊢
      have hread := ih (n := n) (by simp at hn; omega)
      simp [basicBody?, escape?, hread]
    · have hescaped : escaped 0 false 0 (c :: t) = escape c ++ escaped 0 false 0 t := by
        simp [escaped, hquote]
      rw [hescaped] at hn ⊢
      rcases escape_cases c with ⟨hself, hplain, hbackslash⟩ | ⟨mark, code, hcode, -, -, hread⟩
      · have hrest := ih (n := n) (by simp [hself] at hn; omega)
        rw [hself, List.singleton_append, List.cons_append]
        unfold basicBody?
        split <;> simp_all
      · have hrest := ih (n := n) (by simp [hcode] at hn; omega)
        simp [hcode, basicBody?, hread, hrest]

theorem literalBody?_append (ht : ∀ c ∈ t, isPlain c = true ∧ c ≠ '\'') (rest : Text) :
    literalBody? (t ++ '\'' :: rest) = some (t, rest) := by
  have hall : ∀ c ∈ t, (isPlain c && c != '\'') = true := fun c hc => by simp [ht c hc]
  have htake : (t ++ '\'' :: rest).takeWhile (fun c => isPlain c && c != '\'') = t := by
    rw [List.takeWhile_append_of_pos hall, List.takeWhile_cons]
    simp
  have hdrop : (t ++ '\'' :: rest).dropWhile (fun c => isPlain c && c != '\'') =
      '\'' :: rest := by
    rw [List.dropWhile_append_of_pos hall, List.dropWhile_cons]
    simp
  rw [literalBody?, hdrop, htake]
  rfl

/-! ### Strings on several lines -/

section Lines

variable {quote : Char} {escapes : Bool} {s : Text}

theorem runLength_cons_self (quote : Char) (t : Text) :
    runLength quote (quote :: t) = runLength quote t + 1 := by
  simp [runLength]

theorem runLength_cons_ne (h : c ≠ quote) (t : Text) : runLength quote (c :: t) = 0 := by
  simp [runLength, h]

/-- A text starts with the run that is counted. -/
theorem exists_of_runLength_pos (h : 0 < runLength quote t) : ∃ u, t = quote :: u := by
  cases t with
  | nil => simp [runLength] at h
  | cons c u =>
    by_cases hc : c = quote
    · exact ⟨u, hc ▸ rfl⟩
    · rw [runLength_cons_ne hc] at h
      cases h

theorem linesBody?_end (h : 3 ≤ runLength quote t) (n : Nat) :
    linesBody? quote escapes (n + 1) t =
      some (List.replicate (min (runLength quote t) 5 - 3) quote,
        t.drop (min (runLength quote t) 5 - 3 + 3)) := by
  rw [linesBody?.eq_def]
  exact if_pos h

theorem linesBody?_run (hpos : 0 < runLength quote t) (hlt : runLength quote t < 3) (n : Nat) :
    linesBody? quote escapes (n + 1) t =
      (linesBody? quote escapes n (t.drop (runLength quote t))).map fun (s, rest) =>
        (List.replicate (runLength quote t) quote ++ s, rest) := by
  rw [linesBody?.eq_def]
  exact (if_neg (by omega)).trans (if_pos hpos)

theorem linesBody?_of_runLength_eq_zero (h : runLength quote (c :: t) = 0) (n : Nat) :
    linesBody? quote escapes (n + 1) (c :: t) =
      let further (start : Text) (rest : Text) : Option (Text × Text) :=
        (linesBody? quote escapes n rest).map fun (s, rest) => (start ++ s, rest)
      match afterNewline? (c :: t) with
      | some rest => further ['\n'] rest
      | none =>
        if escapes && c == '\\' then
          match afterNewline? (skipSpaces t) with
          | some rest => further [] (skipBlankLines rest.length rest)
          | none => (escape? t).bind fun (c, rest) => further [c] rest
        else if isPlain c then further [c] t
        else none := by
  rw [linesBody?.eq_def]
  exact (if_neg (by omega)).trans (if_neg (by omega))

/-- A text is read as the rest of a string of several lines and what is behind it. -/
def ReadsLines (quote : Char) (escapes : Bool) (t s rest : Text) : Prop :=
  ∀ n, t.length < n → linesBody? quote escapes n t = some (s, rest)

/-- A quote before a string is one more character of it, as long as too many do not come
together. -/
theorem ReadsLines.one_more (h : ReadsLines quote escapes t s rest) (hne : runLength quote t ≠ 2)
    (hlt : runLength quote t < 5) : ReadsLines quote escapes (quote :: t) (quote :: s) rest := by
  intro n hn
  obtain ⟨n, rfl⟩ := Nat.exists_eq_add_one_of_ne_zero (Nat.ne_of_gt (Nat.zero_lt_of_lt hn))
  have hbound : t.length < n := by
    simp only [List.length_cons] at hn
    omega
  have hrun := runLength_cons_self quote t
  rcases Nat.lt_or_ge (runLength quote t) 3 with hfew | hmany
  · -- one quote behind this one was read on its own and is now read together with it
    rw [linesBody?_run (by omega) (by omega), hrun]
    rcases Nat.eq_zero_or_pos (runLength quote t) with hzero | hpos
    · simp [hzero, h n hbound]
    · obtain ⟨u, rfl⟩ := exists_of_runLength_pos hpos
      have hone : runLength quote (quote :: u) = 1 := by omega
      have hread := h (n + 1) (by omega)
      rw [linesBody?_run (by omega) (by omega), hone] at hread
      obtain ⟨found, hfound, hs⟩ := Option.map_eq_some_iff.1 hread
      cases hs
      simp only [List.drop_succ_cons, List.drop_zero] at hfound
      simp [hone, hfound, List.replicate_succ]
  · -- the string ends with the run, which gives it one quote more than before
    have hread := h (n + 1) (by omega)
    rw [linesBody?_end hmany] at hread
    have hbare : min (runLength quote t + 1) 5 - 3 = min (runLength quote t) 5 - 3 + 1 := by omega
    rw [linesBody?_end (by omega), hrun, hbare, List.replicate_succ]
    cases hread
    simp

theorem ReadsLines.newline (h : ReadsLines quote escapes t s rest) (hquote : quote ≠ '\n') :
    ReadsLines quote escapes ('\n' :: t) ('\n' :: s) rest := by
  intro n hn
  obtain ⟨n, rfl⟩ := Nat.exists_eq_add_one_of_ne_zero (Nat.ne_of_gt (Nat.zero_lt_of_lt hn))
  rw [linesBody?_of_runLength_eq_zero (runLength_cons_ne hquote.symm t)]
  simp [afterNewline?, h n (by simp at hn; omega)]

theorem ReadsLines.plain (h : ReadsLines quote escapes t s rest) (hplain : isPlain c = true)
    (hquote : c ≠ quote) (hescapes : (escapes && c == '\\') = false) :
    ReadsLines quote escapes (c :: t) (c :: s) rest := by
  intro n hn
  obtain ⟨n, rfl⟩ := Nat.exists_eq_add_one_of_ne_zero (Nat.ne_of_gt (Nat.zero_lt_of_lt hn))
  rw [linesBody?_of_runLength_eq_zero (runLength_cons_ne hquote t)]
  simp [afterNewline?_eq_none hplain, hescapes, hplain, h n (by simp at hn; omega)]

theorem ReadsLines.escape {mark : Char} (h : ReadsLines quote true t s rest) (code : Text)
    (hquote : quote ≠ '\\') (hplain : isPlain mark = true) (hspace : isSpace mark = false)
    (hread : escape? (mark :: (code ++ t)) = some (c, t)) :
    ReadsLines quote true ('\\' :: mark :: (code ++ t)) (c :: s) rest := by
  intro n hn
  obtain ⟨n, rfl⟩ := Nat.exists_eq_add_one_of_ne_zero (Nat.ne_of_gt (Nat.zero_lt_of_lt hn))
  rw [linesBody?_of_runLength_eq_zero (runLength_cons_ne hquote.symm _)]
  have hbackslash : isPlain '\\' = true := by decide
  simp [afterNewline?_eq_none hbackslash, skipSpaces, hspace, afterNewline?_eq_none hplain, hread,
    h n (by simp at hn; omega)]

theorem runLength_closing (hrest : ∀ c ∈ rest.head?, c ≠ quote) :
    runLength quote ([quote, quote, quote] ++ rest) = 3 := by
  have hzero : runLength quote rest = 0 := by
    cases rest with
    | nil => rfl
    | cons c rest => exact runLength_cons_ne (hrest c rfl) rest
  simp [runLength_cons_self, hzero]

theorem ReadsLines.closing (hrest : ∀ c ∈ rest.head?, c ≠ quote) :
    ReadsLines quote escapes ([quote, quote, quote] ++ rest) [] rest := by
  intro n hn
  obtain ⟨n, rfl⟩ := Nat.exists_eq_add_one_of_ne_zero (Nat.ne_of_gt (Nat.zero_lt_of_lt hn))
  have hrun := runLength_closing hrest
  rw [linesBody?_end (by omega), hrun]
  rfl

end Lines

/-- Of the quotes in a row no more stand without a backslash than those that are wanted, those
before the text counted; where the text ends, the three that close the string come on top. -/
theorem readsLines_escaped (hrest : ∀ c ∈ rest.head?, c ≠ '"') (t : Text) {run : Nat}
    (hrun : run ≤ 2) :
    ReadsLines '"' true (escaped 2 true run t ++ (['"', '"', '"'] ++ rest)) t rest ∧
      (let count := runLength '"' (escaped 2 true run t ++ (['"', '"', '"'] ++ rest))
       count + run ≤ 2 ∨ 3 ≤ count ∧ count + run ≤ 5) := by
  induction t generalizing run with
  | nil =>
    have hclosing := runLength_closing hrest
    refine ⟨ReadsLines.closing hrest, .inr ?_⟩
    simp only [escaped, List.nil_append, hclosing]
    omega
  | cons c t ih =>
    by_cases hquote : c = '"'
    · subst hquote
      by_cases hlt : run < 2
      · -- the bare quote joins the run that follows, which leaves room for it
        have hescaped : escaped 2 true run ('"' :: t) = '"' :: escaped 2 true (run + 1) t := by
          simp [escaped, hlt]
        obtain ⟨hread, hcount⟩ := ih (show run + 1 ≤ 2 by omega)
        dsimp only at hcount
        rw [hescaped, List.cons_append, runLength_cons_self]
        exact ⟨hread.one_more (by omega) (by omega), by dsimp only; omega⟩
      · -- a third quote would close the string: the backslash starts the count again
        have hescaped : escaped 2 true run ('"' :: t) = '\\' :: '"' :: escaped 2 true 0 t := by
          simp [escaped, hlt]
        rw [hescaped, List.cons_append, runLength_cons_ne (by decide)]
        refine ⟨(ih (by omega)).1.escape [] (by decide) rfl rfl rfl, ?_⟩
        exact .inl (by omega)
    · by_cases hnewline : c = '\n'
      · subst hnewline
        have hescaped : escaped 2 true run ('\n' :: t) = '\n' :: escaped 2 true 0 t := by
          simp [escaped]
        rw [hescaped, List.cons_append, runLength_cons_ne (by decide)]
        exact ⟨(ih (by omega)).1.newline (by decide), .inl (by omega)⟩
      · have hescaped : escaped 2 true run (c :: t) = escape c ++ escaped 2 true 0 t := by
          simp [escaped, hquote, hnewline]
        have hrest' := (ih (Nat.zero_le 2)).1
        rw [hescaped, List.append_assoc]
        rcases escape_cases c with ⟨hself, hplain, hbackslash⟩ |
          ⟨mark, code, hcode, hplain, hspace, hread⟩
        · rw [hself, List.singleton_append, runLength_cons_ne hquote]
          exact ⟨hrest'.plain hplain hquote (by simpa using hbackslash), .inl (by omega)⟩
        · rw [hcode, List.cons_append, List.cons_append, runLength_cons_ne (by decide)]
          exact ⟨hrest'.escape code (by decide) hplain hspace (hread _), .inl (by omega)⟩

theorem longestRun_go_le (c : Char) (t : Text) : (longestRun.go c t).1 ≤ (longestRun.go c t).2 := by
  cases t with
  | nil => exact le_rfl
  | cons x t =>
    simp only [longestRun.go]
    split
    · exact le_max_left _ _
    · exact Nat.zero_le _

/-- A text without longer runs of single quotes than two stands as it is. -/
theorem readsLines_literal (hrest : ∀ c ∈ rest.head?, c ≠ '\'')
    (ht : ∀ c ∈ t, isPlain c = true ∨ c = '\n') (hlongest : (longestRun.go '\'' t).2 ≤ 2) :
    ReadsLines '\'' false (t ++ (['\'', '\'', '\''] ++ rest)) t rest ∧
      (let count := runLength '\'' (t ++ (['\'', '\'', '\''] ++ rest))
       count = (longestRun.go '\'' t).1 ∨ count = (longestRun.go '\'' t).1 + 3) := by
  induction t with
  | nil =>
    have hclosing := runLength_closing hrest
    exact ⟨ReadsLines.closing hrest, .inr hclosing⟩
  | cons c t ih =>
    have hle := longestRun_go_le '\'' t
    by_cases hquote : c = '\''
    · subst hquote
      simp only [longestRun.go, if_pos] at hlongest ⊢
      obtain ⟨hread, hcount⟩ := ih (fun c hc => ht c (List.mem_cons_of_mem _ hc)) (by omega)
      dsimp only at hcount
      rw [List.cons_append, runLength_cons_self]
      exact ⟨hread.one_more (by omega) (by omega), by omega⟩
    · simp only [longestRun.go, if_neg hquote] at hlongest ⊢
      obtain ⟨hread, -⟩ := ih (fun c hc => ht c (List.mem_cons_of_mem _ hc)) hlongest
      rw [List.cons_append, runLength_cons_ne hquote]
      refine ⟨?_, .inl rfl⟩
      rcases ht c List.mem_cons_self with hplain | rfl
      · exact hread.plain hplain hquote rfl
      · exact hread.newline (by decide)

/-- A string of several lines is read behind its mark, and behind the newline that follows the mark
when the text has one of its own. -/
theorem linesAfterMark?_append {quote : Char} {escapes : Bool} {body : Text}
    (h : ReadsLines quote escapes body t rest)
    (hstart : '\n' ∉ t → ∃ c u, body = c :: u ∧ isPlain c = true) :
    linesAfterMark? quote escapes ((if t.contains '\n' then ['\n'] else []) ++ body) =
      some (t, rest) := by
  rw [linesAfterMark?]
  split
  · exact h _ (Nat.lt_succ_self _)
  · next hnewline =>
    obtain ⟨c, u, rfl, hplain⟩ := hstart (by simpa using hnewline)
    rw [List.nil_append, afterNewline?_eq_none hplain]
    exact h _ (Nat.lt_succ_self _)

/-! ### Strings of all kinds -/

/-- What the quotes around a text say about it. -/
theorem quoting_cases (t : Text) :
    quoting t = .double ∨ (quoting t = .single ∧ ∀ c ∈ t, isPlain c = true ∧ c ≠ '\'') ∨
      quoting t = .tripleDouble ∨
      (quoting t = .tripleSingle ∧ (∀ c ∈ t, isPlain c = true ∨ c = '\n') ∧
        (longestRun.go '\'' t).2 ≤ 2) := by
  have hplain (hcontrol : (t.any fun c => isControl c && c != '\n') = false) :
      ∀ c ∈ t, isPlain c = true ∨ c = '\n' := by
    intro c hc
    have hc' := List.any_eq_false.1 hcontrol c hc
    rw [isPlain_eq]
    by_cases hnewline : c = '\n'
    · exact .inr hnewline
    · left
      simpa [hnewline] using hc'
  unfold quoting
  dsimp only
  split
  · exact .inl rfl
  split
  · next hsingle =>
    simp only [Bool.and_eq_true, Bool.not_eq_true', List.contains_eq_mem, decide_eq_false_iff_not]
      at hsingle
    obtain ⟨⟨hcontrol, hquote⟩, hnewline⟩ := hsingle
    refine .inr (.inl ⟨rfl, fun c hc => ⟨?_, fun heq => hquote (heq ▸ hc)⟩⟩)
    exact (hplain hcontrol c hc).resolve_right fun heq => hnewline (heq ▸ hc)
  split
  · exact .inr (.inr (.inl rfl))
  split
  · next htriple =>
    simp only [Bool.and_eq_true, Bool.not_eq_true', decide_eq_true_eq] at htriple
    exact .inr (.inr (.inr ⟨rfl, hplain htriple.1, htriple.2⟩))
  split
  · exact .inr (.inr (.inl rfl))
  · exact .inl rfl

/-- The first character of an escaped text. -/
theorem exists_escaped_cons (bareQuotes : Nat) {lines : Bool} (run : Nat)
    (hnewline : lines = true → c ≠ '\n') :
    ∃ d u, escaped bareQuotes lines run (c :: t) = d :: u ∧ isPlain d = true ∧
      (bareQuotes = 0 → d ≠ '"') := by
  by_cases hquote : c = '"'
  · subst hquote
    rw [escaped]
    by_cases hrun : run < bareQuotes
    · exact ⟨'"', _, by rw [if_pos rfl, if_pos hrun], by decide, by omega⟩
    · exact ⟨'\\', _, by rw [if_pos rfl, if_neg hrun], by decide, fun _ => by decide⟩
  · have hescaped : escaped bareQuotes lines run (c :: t) =
        escape c ++ escaped bareQuotes lines 0 t := by
      rw [escaped, if_neg hquote, if_neg]
      simpa using fun heq hlines => hnewline hlines heq
    rw [hescaped]
    rcases escape_cases c with ⟨hself, hplain, -⟩ | ⟨mark, code, hcode, -⟩
    · exact ⟨c, _, by rw [hself]; rfl, hplain, fun _ => hquote⟩
    · exact ⟨'\\', _, by rw [hcode]; rfl, by decide, fun _ => by decide⟩

/-- Behind a quote that no other one follows, a string of one line is read. -/
theorem string?_eq_lineString? {quote : Char} (hquote : quote = '"' ∨ quote = '\'')
    (h : ∀ c ∈ t.head?, c ≠ quote) (hrest : ∀ c ∈ rest.head?, c ≠ quote) :
    string? (quote :: (t ++ quote :: rest)) = lineString? (quote :: (t ++ quote :: rest)) := by
  have hsecond : ∀ u, t ++ quote :: rest ≠ quote :: quote :: u := by
    intro u heq
    cases t with
    | nil =>
      rw [List.nil_append, List.cons.injEq] at heq
      exact hrest quote (by rw [heq.2]; rfl) rfl
    | cons c t =>
      rw [List.cons_append, List.cons.injEq] at heq
      exact h c rfl heq.1
  rcases hquote with rfl | rfl
  all_goals
    unfold string?
    split
    · next heq => simp_all
    · next heq => simp_all
    · rfl

/-- A text comes back from its string. -/
theorem string?_quote (t : Text) {rest : Text} (hrest : ∀ c ∈ rest.head?, c ≠ '"' ∧ c ≠ '\'') :
    string? (quote t ++ rest) = some (t, rest) := by
  have hdouble : ∀ c ∈ rest.head?, c ≠ '"' := fun c hc => (hrest c hc).1
  have hsingle : ∀ c ∈ rest.head?, c ≠ '\'' := fun c hc => (hrest c hc).2
  unfold quote
  rcases quoting_cases t with h | ⟨h, hplain⟩ | h | ⟨h, hplain, hlongest⟩ <;> rw [h]
  · -- escaped, the text starts with no quote that three could be read from
    have hhead : ∀ c ∈ (escaped 0 false 0 t).head?, c ≠ '"' := by
      cases t with
      | nil => simp [escaped]
      | cons c t =>
        obtain ⟨d, u, hescaped, -, hne⟩ := exists_escaped_cons (t := t) 0 0
          (fun hlines : false = true => nomatch hlines)
        rw [hescaped]
        rintro _ ⟨⟩
        exact hne rfl
    rw [List.cons_append, List.append_assoc, List.singleton_append,
      string?_eq_lineString? (.inl rfl) hhead hdouble]
    exact basicBody?_escaped t rest (by simp)
  · have hhead : ∀ c ∈ t.head?, c ≠ '\'' := fun c hc => (hplain c (List.mem_of_mem_head? hc)).2
    rw [List.cons_append, List.append_assoc, List.singleton_append,
      string?_eq_lineString? (.inr rfl) hhead hsingle]
    exact literalBody?_append hplain rest
  · simp only [List.append_assoc]
    refine linesAfterMark?_append (readsLines_escaped hdouble t (by omega)).1 fun hnewline => ?_
    cases t with
    | nil => exact ⟨'"', _, rfl, by decide⟩
    | cons c t =>
      obtain ⟨d, u, hescaped, hplain, -⟩ := exists_escaped_cons (t := t) 2 0
        (fun _ : true = true => fun heq : c = '\n' => hnewline (heq ▸ List.mem_cons_self))
      exact ⟨d, _, by rw [hescaped]; rfl, hplain⟩
  · simp only [List.append_assoc]
    refine linesAfterMark?_append (readsLines_literal hsingle hplain hlongest).1 fun hnewline => ?_
    cases t with
    | nil => exact ⟨'\'', _, rfl, by decide⟩
    | cons c t =>
      refine ⟨c, _, rfl, (hplain c List.mem_cons_self).resolve_right fun heq => ?_⟩
      exact hnewline (heq ▸ List.mem_cons_self)

end Glossator.Toml
