import Glossator.Proofs.Text.Digits
import Glossator.Python.Literal

/-!
# Spellings of string literals

A string can be written as a literal in many ways: each character as itself, as a letter behind a
backslash or by its number, and with line breaks behind backslashes anywhere in between. Reading
a literal gives the string back, whichever way was taken.

* `Python.Spells`: the spellings of a string between quotes.
* `Python.unescape_of_spells`: a spelling is read back.
* `Python.literalValue?_spelled`: what literals stand for, by their prefix.
-/

set_option autoImplicit false

namespace Glossator.Python

/-! ### Literals -/

/-- The quotes around a literal: one or three at each end. -/
structure Quotes where
  quote : Char
  triple : Bool
  isQuote : quote = '\'' ∨ quote = '"'

/-- The quotes at one end. -/
def Quotes.mark (q : Quotes) : Text := List.replicate (if q.triple then 3 else 1) q.quote

/-- The letters that stand for a character behind a backslash. -/
def letterEscapes : List (Char × Char) :=
  [('\\', '\\'), ('\'', '\''), ('"', '"'), ('n', '\n'), ('t', '\t'), ('r', '\r'), ('a', '\x07'),
    ('b', '\x08'), ('f', '\x0c'), ('v', '\x0b')]

/-- The letters behind which the number of a character stands in hexadecimal, and how many digits
it has. -/
def codeEscapes : List (Char × Nat) := [('x', 2), ('u', 4), ('U', 8)]

/-- How a character can be written between quotes: as itself, by a letter, or by its number in
octal or hexadecimal. -/
inductive Spelling (q : Quotes) (c : Char) : Text → Prop where
  | plain : c ≠ '\\' → c ≠ '\r' → c ≠ q.quote → (q.triple = false → c ≠ '\n') → Spelling q c [c]
  | letter {e : Char} : (e, c) ∈ letterEscapes → Spelling q c ['\\', e]
  | octal {digits : Text} : digits.length = 3 → Digits.Denote 8 c.toNat digits →
      Spelling q c ('\\' :: digits)
  | code {e : Char} {width : Nat} {digits : Text} : (e, width) ∈ codeEscapes →
      digits.length = width → Digits.Denote 16 c.toNat digits → Spelling q c ('\\' :: e :: digits)

/-- How a string can be written between quotes: character by character, with lines continued behind
backslashes anywhere in between. -/
inductive Spells (q : Quotes) : Text → Text → Prop where
  | nil : Spells q [] []
  | continued {s body : Text} : Spells q s body → Spells q s ('\\' :: '\n' :: body)
  | char {c : Char} {s piece body : Text} : Spelling q c piece → Spells q s body →
      Spells q (c :: s) (piece ++ body)

/-- The text with newlines in place of carriage returns, a pair of both being one line end. -/
inductive WithNewlines : Text → Text → Prop where
  | nil : WithNewlines [] []
  | pair {t u : Text} : WithNewlines t u → WithNewlines ('\r' :: '\n' :: t) ('\n' :: u)
  | lone {t u : Text} : t.head? ≠ some '\n' → WithNewlines t u →
      WithNewlines ('\r' :: t) ('\n' :: u)
  | other {c : Char} {t u : Text} : c ≠ '\r' → WithNewlines t u → WithNewlines (c :: t) (c :: u)

variable {q : Quotes} {c e : Char} {s t u body letters piece rest : Text}

/-! ### Escapes -/

theorem unescape_cons (hc : c ≠ '\\') : unescape (c :: rest) = c :: unescape rest := by
  rw [unescape.eq_def]
  exact if_neg hc

theorem unescape_escape : unescape ('\\' :: e :: rest) =
    (escapeValue e rest).1 ++ unescape (escapeValue e rest).2 := by
  rw [unescape, if_pos rfl]

theorem ofCodePoint?_toNat (c : Char) : ofCodePoint? c.toNat = some c := by
  have hvalid : c.toNat.isValidChar := c.valid
  rw [ofCodePoint?, if_pos hvalid, Char.ofNat_toNat]

theorem escapeValue_letter (h : (e, c) ∈ letterEscapes) (rest : Text) :
    escapeValue e rest = ([c], rest) := by
  have hall : ∀ x ∈ letterEscapes, x.1 ≠ '\n' ∧ namedEscape? x.1 = some x.2 := by decide
  obtain ⟨hne, hnamed⟩ := hall _ h
  simp [escapeValue, hne, hnamed]

/-- An octal digit is none of the letters of escapes. -/
theorem namedEscape?_eq_none_of_octal {k : Nat} (h : Digits.IsDigit k e) (hk : k < 8) :
    e ≠ '\n' ∧ namedEscape? e = none := by
  have hall : ∀ alphabet ∈ Digits.alphabets, ∀ d ∈ alphabet.take 8,
      d ≠ '\n' ∧ namedEscape? d = none := by
    simp [Digits.alphabets, namedEscape?]
  obtain ⟨alphabet, hmem, hget⟩ := h
  exact hall alphabet hmem e
    (List.mem_of_getElem? ((List.getElem?_take_of_lt hk).trans hget))

theorem escapeValue_octal {digits : Text} (hlength : (e :: digits).length = 3)
    (h : Digits.Denote 8 c.toNat (e :: digits)) (rest : Text) :
    escapeValue e (digits ++ rest) = ([c], rest) := by
  have hvalue := h.value_eq
  have hdigits := List.forall_mem_cons.1 h.isDigitOf
  obtain ⟨ks, hks, hlt, -⟩ := h
  cases hks with
  | @cons k _ ks _ hdigit _ =>
    obtain ⟨hne, hnamed⟩ := namedEscape?_eq_none_of_octal hdigit (hlt k List.mem_cons_self)
    have hread : octalDigits e (digits ++ rest) = (e :: digits, rest) := by
      have htwo : digits.length = 2 := by simpa using hlength
      have htake : (digits ++ rest).take 2 = digits := by rw [← htwo, List.take_left]
      have hrun : digits.takeWhile (Digits.isDigitOf 8) = digits :=
        List.takeWhile_eq_self_iff.2 hdigits.2
      simp only [octalDigits, htake, hrun, List.drop_left]
    simp [escapeValue, hne, hnamed, hdigits.1, hread, hvalue, ofCodePoint?_toNat]

theorem escapeValue_code {width : Nat} {digits : Text} (he : (e, width) ∈ codeEscapes)
    (hlength : digits.length = width) (h : Digits.Denote 16 c.toNat digits) (rest : Text) :
    escapeValue e (digits ++ rest) = ([c], rest) := by
  have hall : ∀ x ∈ codeEscapes, x.1 ≠ '\n' ∧ namedEscape? x.1 = none ∧
      Digits.isDigitOf 8 x.1 = false ∧ codeWidth? x.1 = some x.2 := by decide
  obtain ⟨hne, hnamed, hoctal, hwidth⟩ := hall _ he
  have htake : (digits ++ rest).take width = digits := by rw [← hlength, List.take_left]
  have hdrop : (digits ++ rest).drop width = rest := by rw [← hlength, List.drop_left]
  have hdigits : digits.all (Digits.isDigitOf 16) = true := List.all_eq_true.2 h.isDigitOf
  simp [escapeValue, hne, hnamed, hoctal, hwidth, htake, hdrop, hlength, hdigits, h.value_eq,
    ofCodePoint?_toNat]

theorem Spelling.unescape_append (h : Spelling q c piece) (rest : Text) :
    unescape (piece ++ rest) = c :: unescape rest := by
  cases h with
  | plain hc => exact unescape_cons hc
  | letter he =>
    simp only [List.cons_append, List.nil_append, unescape_escape, escapeValue_letter he]
  | @octal digits hlength hdigits =>
    obtain ⟨d, digits, rfl⟩ := List.exists_cons_of_length_eq_add_one hlength
    simp only [List.cons_append, unescape_escape, escapeValue_octal hlength hdigits,
      List.nil_append]
  | code he hlength hdigits =>
    simp only [List.cons_append, unescape_escape, escapeValue_code he hlength hdigits,
      List.nil_append]

/-- A spelling of a string is read back as the string. -/
theorem unescape_of_spells (h : Spells q s body) : unescape body = s := by
  induction h with
  | nil => rw [unescape]
  | continued _ ih => simp [unescape_escape, escapeValue, ih]
  | char hc _ ih => rw [hc.unescape_append, ih]

/-! ### Line ends -/

theorem withNewlines_normalizeNewlines (t : Text) : WithNewlines t (normalizeNewlines t) := by
  fun_induction normalizeNewlines t with
  | case1 => exact .nil
  | case2 rest ih => exact .pair ih
  | case3 rest hpair ih =>
    refine .lone ?_ ih
    intro hnewline
    obtain ⟨rest, rfl⟩ := List.head?_eq_some_iff.1 hnewline
    exact hpair rest rfl
  | case4 c rest hpair hreturn ih => exact .other hreturn ih

theorem normalizeNewlines_eq_self (h : '\r' ∉ t) : normalizeNewlines t = t := by
  have hread := withNewlines_normalizeNewlines t
  generalize normalizeNewlines t = u at hread
  induction hread with
  | nil => rfl
  | pair => simp at h
  | lone => simp at h
  | other _ _ ih => rw [ih fun hmem => h (List.mem_cons_of_mem _ hmem)]

theorem Spelling.return_notMem (h : Spelling q c piece) : '\r' ∉ piece := by
  have hdigit (base n : Nat) {digits : Text} (h : Digits.Denote base n digits) :
      '\r' ∉ digits := by
    intro hmem
    have := h.isDigitOf _ hmem
    simp [Digits.isDigitOf, Digits.toNat?] at this
  cases h with
  | plain _ hc => simpa using hc.symm
  | letter he =>
    have hall : ∀ x ∈ letterEscapes, '\r' ∉ ['\\', x.1] := by decide
    exact hall _ he
  | octal _ hdigits => simpa using hdigit _ _ hdigits
  | code he _ hdigits =>
    have hall : ∀ x ∈ codeEscapes, x.1 ≠ '\r' := by decide
    simpa [(hall _ he).symm] using hdigit _ _ hdigits

theorem Spells.return_notMem (h : Spells q s body) : '\r' ∉ body := by
  induction h with
  | nil => simp
  | continued _ ih => simpa using ih
  | char hc _ ih => simpa using ⟨hc.return_notMem, ih⟩

/-! ### Whole literals -/

/-- A string between single quotes does not start with a quote: the literal would end there. -/
def Quotes.Admits (q : Quotes) (body : Text) : Prop := q.triple = false → body.head? ≠ some q.quote

theorem Spells.admits (h : Spells q s body) : q.Admits body := by
  have hbackslash : q.quote ≠ '\\' := by rcases q.isQuote with h | h <;> simp [h]
  intro _
  cases h with
  | nil => simp
  | continued => simpa using hbackslash.symm
  | char hc =>
    cases hc with
    | plain _ _ hquote => simpa using hquote
    | letter | octal | code => simpa using hbackslash.symm

/-- The character is a quote. -/
def isQuote (c : Char) : Bool := c = '"' || c = '\''

theorem Quotes.isQuote_quote (q : Quotes) : Python.isQuote q.quote = true := by
  rcases q.isQuote with h | h <;> rw [h] <;> rfl

theorem quoteLength_mark (h : q.Admits body) :
    quoteLength (q.mark ++ (body ++ q.mark)) = q.mark.length := by
  obtain ⟨quote, triple, hquote⟩ := q
  cases triple with
  | true => rcases hquote with rfl | rfl <;> simp [quoteLength, Quotes.mark, List.replicate]
  | false =>
    have hhead := h rfl
    cases body with
    | nil => rcases hquote with rfl | rfl <;> simp [quoteLength, Quotes.mark]
    | cons d body =>
      have hne : quote ≠ d := by simpa using fun heq => hhead (by simp [heq])
      rcases hquote with rfl | rfl <;> simp [quoteLength, Quotes.mark, hne]

/-- A literal is read from the letters in front of its first quote and from what stands behind
them. -/
theorem literalValue?_append (hletters : ∀ c ∈ letters, isQuote c = false)
    (hc : isQuote c = true) : literalValue? (letters ++ c :: rest) =
      if (letters.map Char.toLower).contains 'f' || (letters.map Char.toLower).contains 'b' then
        none
      else if (c :: rest).length < 2 * quoteLength (c :: rest) then none
      else
        let body := normalizeNewlines (((c :: rest).drop (quoteLength (c :: rest))).take
          ((c :: rest).length - 2 * quoteLength (c :: rest)))
        some (if (letters.map Char.toLower).contains 'r' then body else unescape body) := by
  have hfun : (fun c : Char => !(decide (c = '"') || decide (c = '\''))) = fun c => !isQuote c :=
    rfl
  have hletters' : ∀ c ∈ letters, (!isQuote c) = true := fun c hc => by rw [hletters c hc]; rfl
  have htake : (letters ++ c :: rest).takeWhile (fun c => !isQuote c) = letters := by
    rw [List.takeWhile_append_of_pos hletters', List.takeWhile_cons_of_neg (by simp [hc]),
      List.append_nil]
  have hdrop : (letters ++ c :: rest).dropWhile (fun c => !isQuote c) = c :: rest := by
    rw [List.dropWhile_append_of_pos hletters', List.dropWhile_cons_of_neg (by simp [hc])]
  simp only [literalValue?, hfun, htake, hdrop]

/-- What a literal without an `f` or a `b` in front is read as. -/
theorem literalValue?_quoted (hletters : ∀ c ∈ letters, isQuote c = false) (h : q.Admits body)
    (hf : 'f' ∉ letters.map Char.toLower) (hb : 'b' ∉ letters.map Char.toLower) :
    literalValue? (letters ++ (q.mark ++ (body ++ q.mark))) =
      some (if 'r' ∈ letters.map Char.toLower then normalizeNewlines body
        else unescape (normalizeNewlines body)) := by
  have hquotes := quoteLength_mark h
  have hlength : (q.mark ++ (body ++ q.mark)).length = 2 * q.mark.length + body.length := by
    simp
    omega
  have hlong : ¬(q.mark ++ (body ++ q.mark)).length < 2 * q.mark.length := by omega
  have hbody : ((q.mark ++ (body ++ q.mark)).drop q.mark.length).take
      ((q.mark ++ (body ++ q.mark)).length - 2 * q.mark.length) = body := by
    rw [hlength, Nat.add_sub_cancel_left, List.drop_left, List.take_left]
  obtain ⟨rest, hrest⟩ : ∃ rest, q.mark ++ (body ++ q.mark) = q.quote :: rest := by
    cases htriple : q.triple <;> exact ⟨_, by rw [Quotes.mark, htriple]; rfl⟩
  rw [hrest] at hquotes hlong hbody ⊢
  rw [literalValue?_append hletters q.isQuote_quote, hquotes]
  simp only [List.contains_eq_mem, hf, hb, decide_false, Bool.or_self, Bool.false_eq_true, if_false,
    if_neg hlong, hbody, decide_eq_true_eq]

/-- What literals stand for. Without letters in front, or with a `u`, a literal stands for the
string of which it is a spelling; with an `r`, for what is written between its quotes, line ends
read as newlines; with an `f` or a `b` among the letters in front, for none. -/
theorem literalValue?_spelled :
    (∀ (q : Quotes) s body, Spells q s body → ∀ letters ∈ [[], ['u'], ['U']],
      literalValue? (letters ++ (q.mark ++ (body ++ q.mark))) = some s) ∧
    (∀ (q : Quotes) body, q.Admits body → ∀ letters ∈ [['r'], ['R']], ∃ value,
      WithNewlines body value ∧
        literalValue? (letters ++ (q.mark ++ (body ++ q.mark))) = some value) ∧
    ∀ letters quote rest, (∀ c ∈ letters, isQuote c = false) → isQuote quote = true →
      (∃ c ∈ letters, c ∈ ['f', 'F', 'b', 'B']) →
        literalValue? (letters ++ quote :: rest) = none := by
  refine ⟨fun q s body h letters hletters => ?_, fun q body h letters hletters => ?_,
    fun letters quote rest hletters hquote ⟨c, hc, hkind⟩ => ?_⟩
  · have hall : ∀ letters ∈ [[], ['u'], ['U']], (∀ c ∈ letters, isQuote c = false) ∧
        ∀ c ∈ ['f', 'b', 'r'], c ∉ letters.map Char.toLower := by simp [isQuote]
    obtain ⟨hnone, hkinds⟩ := hall letters hletters
    rw [literalValue?_quoted hnone h.admits (hkinds 'f' (by simp)) (hkinds 'b' (by simp)),
      if_neg (hkinds 'r' (by simp)), normalizeNewlines_eq_self h.return_notMem,
      unescape_of_spells h]
  · have hall : ∀ letters ∈ [['r'], ['R']], (∀ c ∈ letters, isQuote c = false) ∧
        letters.map Char.toLower = ['r'] := by simp [isQuote]
    obtain ⟨hnone, hlower⟩ := hall letters hletters
    refine ⟨_, withNewlines_normalizeNewlines body, ?_⟩
    rw [literalValue?_quoted hnone h (by simp [hlower]) (by simp [hlower]),
      if_pos (by simp [hlower])]
  · have hlower : ∀ c ∈ ['f', 'F', 'b', 'B'], c.toLower = 'f' ∨ c.toLower = 'b' := by simp
    have hmem : 'f' ∈ letters.map Char.toLower ∨ 'b' ∈ letters.map Char.toLower := by
      have hfound : c.toLower ∈ letters.map Char.toLower := List.mem_map_of_mem hc
      rcases hlower c hkind with h | h
      · exact .inl (h ▸ hfound)
      · exact .inr (h ▸ hfound)
    rw [literalValue?_append hletters hquote, if_pos]
    simpa only [List.contains_eq_mem, Bool.or_eq_true, decide_eq_true_eq] using hmem

/-- A letter by its number in two bases, a continued line, a newline by its letter and a quote of
the other kind; a quote and a line end between quotes that keep backslashes; bytes. -/
theorem literalValue?_spelled_mixed :
    literalValue? "u'\\x4A\\112\\\n\\n\"'".toList = some ['J', 'J', '\n', '"'] ∧
      (∃ value, WithNewlines "a\\\"\r\nb".toList value ∧
        literalValue? "R\"a\\\"\r\nb\"".toList = some value) ∧
      literalValue? "Rb'\\x00'".toList = none := by
  have hhex : Digits.Denote 16 'J'.toNat ['4', 'A'] :=
    ⟨[4, 10], .cons ⟨_, List.mem_cons_self, rfl⟩
      (.cons ⟨_, List.mem_cons_of_mem _ List.mem_cons_self, rfl⟩ .nil), by decide, rfl⟩
  have hoctal : Digits.Denote 8 'J'.toNat ['1', '1', '2'] :=
    ⟨[1, 1, 2], .cons ⟨_, List.mem_cons_self, rfl⟩ (.cons ⟨_, List.mem_cons_self, rfl⟩
      (.cons ⟨_, List.mem_cons_self, rfl⟩ .nil)), by decide, rfl⟩
  have hspells : Spells ⟨'\'', false, .inl rfl⟩ ['J', 'J', '\n', '"']
      ['\\', 'x', '4', 'A', '\\', '1', '1', '2', '\\', '\n', '\\', 'n', '"'] :=
    .char (.code (by simp [codeEscapes]) rfl hhex) (.char (.octal rfl hoctal) (.continued
      (.char (.letter (by simp [letterEscapes]))
        (.char (.plain (by decide) (by decide) (by decide) fun _ => by decide) .nil))))
  obtain ⟨hstring, hraw, hbytes⟩ := literalValue?_spelled
  exact ⟨hstring _ _ _ hspells ['u'] (by simp),
    hraw ⟨'"', false, .inr rfl⟩ "a\\\"\r\nb".toList (by simp [Quotes.Admits]) ['R'] (by simp),
    hbytes ['R', 'b'] '\'' "\\x00'".toList (by simp [isQuote]) rfl ⟨'b', by simp, by simp⟩⟩

end Glossator.Python
