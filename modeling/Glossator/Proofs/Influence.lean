import Glossator.Proofs.Engine

/-!
# What an answer depends on

The engine reads a file on two ways: to extract its functions, and to prepare a request. On either
way the size of the file is checked first, and what is done behind the check sees the text that the
bytes are decoded to.

* `Engine.ReadsWithinLimit`: how an answer depends on the limit and on the bytes.
* `Engine.depends_only`: both ways depend on the limit and on the bytes like that, the fallback
  matters only where a name tells no language, and a file whose name tells one fails for no reason
  but its size, the want of a parser and the want of code.
-/

set_option autoImplicit false

namespace Glossator.Engine

variable {α : Type} {e e' : Engine} {file : String} {content content' : Bytes} {cause : Error}

/-! ### The size check -/

/-- The engine with another limit on the size of a file. -/
def withLimit (e : Engine) (limit : Nat) : Engine :=
  { e with config.parsing.maxFileSize := limit }

/-- The engine with the fallback to the content of a file on or off. -/
def withFallback (e : Engine) (on : Bool) : Engine :=
  { e with config.parsing.contentFallback := on }

/-- The answer is that the file is too large. -/
def IsTooLarge (answer : Except Error α) : Prop :=
  ∃ name size limit, answer = .error (.inputTooLarge name size limit)

/-- The file is within the limit. -/
def Fits (e : Engine) (content : Bytes) : Prop := content.length ≤ e.config.parsing.maxFileSize

instance : Decidable (e.Fits content) := inferInstanceAs (Decidable (_ ≤ _))

theorem checkSize_of_fits (h : e.Fits content) : e.checkSize file content = .ok () :=
  if_neg (Nat.not_lt.2 h)

theorem checkSize_of_not_fits (h : ¬e.Fits content) : e.checkSize file content =
    .error (.inputTooLarge file content.length e.config.parsing.maxFileSize) :=
  if_pos (Nat.not_le.1 h)

@[simp] theorem fits_withLimit {limit : Nat} :
    (e.withLimit limit).Fits content ↔ content.length ≤ limit := Iff.rfl

@[simp] theorem fits_withFallback {on : Bool} : (e.withFallback on).Fits content ↔ e.Fits content :=
  Iff.rfl

/-- What the content of a file tells counts for nothing if its name tells a language. -/
theorem detect_withFallback (hname : Detection.byFileName? file.toList ≠ none) (on : Bool)
    (t : Text) : (e.withFallback on).detect file t = e.detect file t := by
  obtain ⟨language, hlanguage⟩ := Option.ne_none_iff_exists'.1 hname
  rw [detect, detect, hlanguage]

/-! ### Behind the check -/

/-- The engines answer alike for a file on some way, once its size is checked: the answer is about
the text, and never that the file is too large. -/
structure AnswerAlike (ask : Engine → String → Bytes → Except Error α) (e e' : Engine)
    (file : String) : Prop where
  refused : ∀ content, ¬e.Fits content →
    ask e file content = .error (.inputTooLarge file content.length e.config.parsing.maxFileSize)
  read : ∀ content, e.Fits content → ¬IsTooLarge (ask e file content)
  same : ∀ content content', e.Fits content → e'.Fits content' →
    Utf8.decodeLossy content = Utf8.decodeLossy content' →
      ask e file content = ask e' file content'

theorem not_isTooLarge_of_parse {language : Language} {t : Text} {f : List FunctionRecord → α} :
    ¬IsTooLarge ((parse language t).map f) := by
  rintro ⟨name, size, limit, h⟩
  cases language with
  | prompt =>
    rw [Prompt.parse_prompt] at h
    split at h <;> cases h
  | python | java | c | cpp | csharp | go | javascript => cases h

/-- What is extracted depends on the settings through the limit and the language of the text. -/
theorem answerAlike_extract (hdetect : ∀ t, e.detect file t = e'.detect file t) :
    AnswerAlike extract e e' file where
  refused content hfits := by
    simp only [extract, checkSize_of_not_fits hfits]
    rfl
  read content hfits := by
    simp only [extract, checkSize_of_fits hfits, bind, Except.bind]
    split
    · rintro ⟨name, size, limit, h⟩
      cases h
    · exact not_isTooLarge_of_parse
  same content content' hfits hfits' htext := by
    simp only [extract, checkSize_of_fits hfits, checkSize_of_fits hfits', htext, hdetect]

/-- A request depends on the settings through the limit alone. -/
theorem answerAlike_prepare : AnswerAlike prepare e e' file where
  refused content hfits := by
    simp only [prepare, checkSize_of_not_fits hfits]
    rfl
  read content hfits := by
    rintro ⟨name, size, limit, h⟩
    by_cases hname : Detection.byFileName? file.toList = some .prompt
    · rcases (prepare_eq_error_iff hname (.inr ⟨name, size, limit, rfl⟩)).1 h with h | ⟨-, -, h⟩
      · rw [checkSize_of_fits hfits] at h
        cases h
      · cases h
    · simp only [prepare, checkSize_of_fits hfits, bind, Except.bind] at h
      split at h
      · cases h
      · next hprompt => exact hname hprompt
      · cases h
  same content content' hfits hfits' htext := by
    simp only [prepare, checkSize_of_fits hfits, checkSize_of_fits hfits', htext]

/-! ### The limit and the bytes -/

/-- How the answers on a way through the engine depend on the limit and on the bytes of a file. -/
structure ReadsWithinLimit (ask : Engine → String → Bytes → Except Error α) : Prop where
  /-- A file is too large exactly if it has more bytes than the limit, whatever is in it. -/
  tooLarge_iff : ∀ e file content, IsTooLarge (ask e file content) ↔
    e.config.parsing.maxFileSize < content.length
  /-- The error names the file, its size and the limit. -/
  eq_inputTooLarge : ∀ e file content, e.config.parsing.maxFileSize < content.length →
    ask e file content = .error (.inputTooLarge file content.length e.config.parsing.maxFileSize)
  /-- A larger limit changes nothing for a file that is not too large. -/
  eq_of_le : ∀ (e : Engine) file content limit limit', limit ≤ limit' →
    ¬IsTooLarge (ask (e.withLimit limit) file content) →
      ask (e.withLimit limit') file content = ask (e.withLimit limit) file content
  /-- Of the bytes within the limit only the text matters that they are decoded to. -/
  eq_of_decodeLossy : ∀ (e : Engine) file content content', e.Fits content → e.Fits content' →
    Utf8.decodeLossy content = Utf8.decodeLossy content' →
      ask e file content = ask e file content'
  /-- The bytes may be replaced by those of the text, if these are within the limit too. -/
  eq_reencoded : ∀ (e : Engine) file content, e.Fits content →
    e.Fits (Utf8.encode (Utf8.decodeLossy content)) →
      ask e file (Utf8.encode (Utf8.decodeLossy content)) = ask e file content

theorem ReadsWithinLimit.of_answerAlike {ask : Engine → String → Bytes → Except Error α}
    (hlimit : ∀ (e : Engine) file limit limit',
      AnswerAlike ask (e.withLimit limit) (e.withLimit limit') file)
    (hself : ∀ e file, AnswerAlike ask e e file) : ReadsWithinLimit ask := by
  have htooLarge (e : Engine) (file : String) (content : Bytes) :
      IsTooLarge (ask e file content) ↔ ¬e.Fits content := by
    constructor
    · exact fun h hfits => (hself e file).read content hfits h
    · exact fun h => ⟨_, _, _, (hself e file).refused content h⟩
  refine ⟨fun e file content => (htooLarge e file content).trans Nat.not_le,
    fun e file content h => (hself e file).refused content (Nat.not_le.2 h), ?_,
    fun e file content content' => (hself e file).same content content', ?_⟩
  · intro e file content limit limit' hle h
    have hfits : content.length ≤ limit := by
      simpa only [htooLarge, fits_withLimit, Decidable.not_not] using h
    exact ((hlimit e file limit limit').same content content hfits (hfits.trans hle) rfl).symm
  · intro e file content hfits hfits'
    exact (hself e file).same _ _ hfits' hfits (Utf8.decodeLossy_encode _)

theorem readsWithinLimit_extract : ReadsWithinLimit extract :=
  .of_answerAlike (fun _ _ _ _ => answerAlike_extract fun _ => rfl)
    fun _ _ => answerAlike_extract fun _ => rfl

theorem readsWithinLimit_prepare : ReadsWithinLimit prepare :=
  .of_answerAlike (fun _ _ _ _ => answerAlike_prepare) fun _ _ => answerAlike_prepare

/-- A byte within the limit may be decoded to a character that is not. -/
example : ((Engine.mk {} none).withLimit 1).Fits [0xFF] ∧
    ¬((Engine.mk {} none).withLimit 1).Fits (Utf8.encode (Utf8.decodeLossy [0xFF])) := by
  decide +kernel

/-! ### The fallback -/

/-- Engines with one limit that answer alike for a file do so whatever its size. -/
theorem AnswerAlike.eq {ask : Engine → String → Bytes → Except Error α}
    (h : AnswerAlike ask e e' file) (h' : AnswerAlike ask e' e' file)
    (hlimit : e.config.parsing.maxFileSize = e'.config.parsing.maxFileSize) (content : Bytes) :
    ask e file content = ask e' file content := by
  by_cases hfits : e.Fits content
  · exact h.same content content hfits (hfits.trans_eq hlimit) rfl
  · have hfits' : ¬e'.Fits content := fun h' => hfits (h'.trans_eq hlimit.symm)
    rw [h.refused content hfits, h'.refused content hfits', hlimit]

theorem extract_withFallback (hname : Detection.byFileName? file.toList ≠ none) (on : Bool)
    (content : Bytes) : (e.withFallback on).extract file content = e.extract file content :=
  (answerAlike_extract (detect_withFallback hname on)).eq (answerAlike_extract fun _ => rfl) rfl _

theorem prepare_withFallback (on : Bool) (content : Bytes) :
    (e.withFallback on).prepare file content = e.prepare file content :=
  answerAlike_prepare.eq answerAlike_prepare rfl _

/-! ### Failures -/

/-- Why parsing a text in a language fails: the language has no parser, or the text is a prompt in
which no line matches the anchor pattern. -/
def IsParseFailure (language : Language) (t : Text) (cause : Error) : Prop :=
  (language.isParseable = false ∧ cause = .notImplemented language) ∨
    (language = .prompt ∧ cause = .codeNotFound ∧
      ¬∃ line ∈ t.linesWithEnds, Prompt.anchor.occursIn (Prompt.bareLine line) = true)

theorem parse_eq_error_iff {language : Language} {t : Text} :
    parse language t = .error cause ↔ IsParseFailure language t cause := by
  cases language with
  | prompt =>
    have hcut := (Prompt.cut_at_first_anchor t).1
    simp only [IsParseFailure, Language.isParseable, Bool.true_eq_false, false_and, true_and,
      false_or, ← hcut]
    constructor
    · intro h
      have hcause : cause = .codeNotFound := by
        rw [Prompt.parse_prompt] at h
        split at h <;> cases h
        rfl
      exact ⟨hcause, hcause ▸ h⟩
    · rintro ⟨rfl, h⟩
      exact h
  | python | java => simp [parse, IsParseFailure, Language.isParseable]
  | c | cpp | csharp | go | javascript =>
    constructor
    · rintro h
      cases h
      exact .inl ⟨rfl, rfl⟩
    · rintro (⟨-, rfl⟩ | ⟨h, -⟩)
      · rfl
      · cases h

/-- A file within the limit whose name tells its language fails as its text does. -/
theorem extract_eq_error_iff_of_fits {language : Language} (hfits : e.Fits content)
    (hname : Detection.byFileName? file.toList = some language) :
    e.extract file content = .error cause ↔
      IsParseFailure language (Utf8.decodeLossy content) cause := by
  rw [extract_of_byFileName? hname, checkSize_of_fits hfits, ← parse_eq_error_iff]
  cases parse language (Utf8.decodeLossy content) <;> simp [Except.bind, Except.map]

theorem exists_extract_of_fits {language : Language} (hfits : e.Fits content)
    (hname : Detection.byFileName? file.toList = some language)
    (hlanguage : language = .python ∨ language = .java) :
    ∃ functions, e.extract file content = .ok (.ofFunctions file language functions) := by
  rw [extract_of_byFileName? hname, checkSize_of_fits hfits]
  rcases hlanguage with rfl | rfl <;> exact ⟨_, rfl⟩

/-- What the answers about a file depend on. The limit and the bytes count as far as
`ReadsWithinLimit` says. The fallback counts for nothing but extraction from files whose names tell
no language. A file within the limit whose name tells one fails for want of a parser or of code, so
that no Python or Java text fails. -/
theorem depends_only :
    ReadsWithinLimit extract ∧ ReadsWithinLimit prepare ∧
    (∀ (e : Engine) file content on,
      (Detection.byFileName? file.toList ≠ none →
        (e.withFallback on).extract file content = e.extract file content) ∧
      (e.withFallback on).prepare file content = e.prepare file content) ∧
    ∀ (e : Engine) file content language, e.Fits content →
      Detection.byFileName? file.toList = some language →
        (∀ cause, e.extract file content = .error cause ↔
          IsParseFailure language (Utf8.decodeLossy content) cause) ∧
        (language = .python ∨ language = .java →
          ∃ functions, e.extract file content = .ok (.ofFunctions file language functions)) := by
  refine ⟨readsWithinLimit_extract, readsWithinLimit_prepare, ?fallback, ?failures⟩
  case fallback =>
    exact fun e file content on =>
      ⟨fun hname => extract_withFallback hname on content, prepare_withFallback on content⟩
  case failures =>
    exact fun e file content language hfits hname =>
      ⟨fun cause => extract_eq_error_iff_of_fits hfits hname, exists_extract_of_fits hfits hname⟩

/-- A byte that is no text, in a Java file: any limit from one on lets it pass, its replacement only
one from three on. -/
theorem depends_only_invalidByte :
    ((Engine.mk {} none).withLimit 4).extract "A.java" [0xFF] =
      ((Engine.mk {} none).withLimit 1).extract "A.java" [0xFF] ∧
    ((Engine.mk {} none).withLimit 4).extract "A.java" [0xEF, 0xBF, 0xBD] =
      ((Engine.mk {} none).withLimit 4).extract "A.java" [0xFF] ∧
    IsTooLarge (((Engine.mk {} none).withLimit 1).extract "A.java" [0xEF, 0xBF, 0xBD]) ∧
    (((Engine.mk {} none).withLimit 1).withFallback false).extract "A.java" [0xFF] =
      ((Engine.mk {} none).withLimit 1).extract "A.java" [0xFF] ∧
    ∃ functions, ((Engine.mk {} none).withLimit 1).extract "A.java" [0xFF] =
      .ok (.ofFunctions "A.java" .java functions) := by
  obtain ⟨hextract, -, hfallback, hfailures⟩ := depends_only
  have hname : Detection.byFileName? "A.java".toList = some .java := by decide +kernel
  have hencoded : Utf8.encode (Utf8.decodeLossy [0xFF]) = [0xEF, 0xBF, 0xBD] := by decide +kernel
  refine ⟨?_, ?_, ?_, ?_, ?_⟩
  · refine hextract.eq_of_le (.mk {} none) _ _ 1 4 (by decide) fun hlarge => ?_
    exact absurd ((hextract.tooLarge_iff _ _ _).1 hlarge) (by decide)
  · rw [← hencoded]
    exact hextract.eq_reencoded _ _ _ (by decide) (hencoded ▸ by decide)
  · exact (hextract.tooLarge_iff _ _ _).2 (by decide)
  · exact (hfallback _ _ _ false).1 (hname ▸ Option.some_ne_none _)
  · exact (hfailures _ _ _ .java (by decide) hname).2 (.inr rfl)

end Glossator.Engine
