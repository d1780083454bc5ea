import Glossator.Engine
import Glossator.Proofs.Detection
import Glossator.Proofs.Parsing
import Glossator.Proofs.Prompt
import Glossator.Proofs.Text.Utf8

/-!
# Requests and extractions

What the engine makes of a prompt on the two ways through it: the request for a comment, and the
functions that it extracts.

* `Engine.prepare_agrees`: a request holds what is extracted from the prompt, and from its code; on
  both ways the same prompts fail for want of code or for their size.
-/

set_option autoImplicit false

namespace Glossator.Engine

variable {e : Engine} {file : String} {content : Bytes}

/-- A request that was prepared from the content of a file. -/
structure IsRequestOf (e : Engine) (file : String) (content : Bytes) (r : CommentRequest) :
    Prop where
  /-- The task and the code are the halves of the text, trimmed. -/
  halves : ∃ prose code, prose ++ code = Utf8.decodeLossy content ∧
    r.task = String.ofList (Text.trim prose) ∧ r.code = String.ofList (Text.trim code)
  function : r.description.fullText = some r.function
  contiguous : r.function.toList <:+: r.code.toList
  described : r.description.language = some r.language
  language : r.language = .python ∨ r.language = .java
  /-- The file is extracted as one record of the two halves. -/
  extracted : ∃ record, e.extract file content = .ok ⟨file, .prompt, 1, [record]⟩ ∧
    record.docstring = some r.task ∧ record.fullText = some r.code
  /-- The code in a file of its own is extracted as the function that is described. -/
  reread : ∀ name : String, Detection.byFileName? name.toList = some r.language →
    (Utf8.encode r.code.toList).length ≤ e.config.parsing.maxFileSize →
      e.extract name (Utf8.encode r.code.toList) = .ok ⟨name, r.language, 1, [r.description]⟩

/-- What is extracted from a file whose name tells the language. -/
theorem extract_of_byFileName? {language : Language}
    (hname : Detection.byFileName? file.toList = some language) :
    e.extract file content = (e.checkSize file content).bind fun _ =>
      (parse language (Utf8.decodeLossy content)).map fun functions =>
        .ofFunctions file language functions := by
  have hdetect : e.detect file (Utf8.decodeLossy content) = some language := by
    rw [detect, hname]
  unfold extract
  simp only [bind, hdetect]
  rfl

/-- What a request was prepared from. -/
theorem exists_of_prepare {r : CommentRequest} (h : e.prepare file content = .ok r) :
    e.checkSize file content = .ok () ∧ Detection.byFileName? file.toList = some .prompt ∧
      ∃ prose code, Prompt.split? (Utf8.decodeLossy content) = some (prose, code) ∧
        Detection.byContent? (Text.trim code) = some r.language ∧
        parse r.language (Text.trim code) = .ok [r.description] ∧
        r.task = String.ofList (Text.trim prose) ∧ r.code = String.ofList (Text.trim code) ∧
        r.function = r.description.fullText.getD r.code := by
  simp only [prepare, bind, Except.bind] at h
  split at h
  · cases h
  next hsize =>
  split at h
  · cases h
  · next hname =>
    split at h
    · cases h
    next prose code hsplit =>
    split at h
    · cases h
    next language hlanguage =>
    split at h
    · cases h
    next records hrecords =>
    split at h
    · cases h
      exact ⟨hsize, hname, prose, code, hsplit, hlanguage, hrecords, rfl, rfl, rfl⟩
    · cases h
  · cases h

/-- The file is too large, or no line of its text looks like code. -/
def FailsAsPrompt (e : Engine) (file : String) (content : Bytes) (cause : Error) : Prop :=
  e.checkSize file content = .error cause ∨
    e.checkSize file content = .ok () ∧ Prompt.split? (Utf8.decodeLossy content) = none ∧
      cause = .codeNotFound

theorem extract_eq_error_iff (hname : Detection.byFileName? file.toList = some .prompt)
    {cause : Error} : e.extract file content = .error cause ↔
      FailsAsPrompt e file content cause := by
  rw [extract_of_byFileName? hname, Prompt.parse_prompt, FailsAsPrompt]
  cases e.checkSize file content with
  | error cause' => simp [Except.bind]
  | ok _ =>
    cases Prompt.split? (Utf8.decodeLossy content) <;>
      simp [Except.bind, Except.map, eq_comm]

/-- Beyond its size and the want of code, a prompt fails for the language of its code or for the
number of functions in it. -/
theorem prepare_eq_error_iff (hname : Detection.byFileName? file.toList = some .prompt)
    {cause : Error} (hcause : cause = .codeNotFound ∨ ∃ name size limit,
      cause = .inputTooLarge name size limit) :
    e.prepare file content = .error cause ↔ FailsAsPrompt e file content cause := by
  simp only [prepare, hname, bind, Except.bind, FailsAsPrompt]
  cases e.checkSize file content with
  | error cause' => simp
  | ok _ =>
    cases Prompt.split? (Utf8.decodeLossy content) with
    | none => simp [eq_comm]
    | some halves =>
      obtain ⟨prose, code⟩ := halves
      simp only [reduceCtorEq, false_and, and_false, or_false, iff_false]
      -- behind the cut there are only errors of other kinds
      intro h
      split at h
      · cases h
        simp at hcause
      next language hlanguage =>
      split at h
      · next cause' hparse =>
        cases h
        cases eq_notImplemented_of_parse
          (fun hprompt => Detection.byContent?_ne_prompt (hprompt ▸ hlanguage)) hparse
        simp at hcause
      · split at h
        · cases h
        · cases h
          simp at hcause

theorem IsRequestOf.of_prepare {r : CommentRequest} (h : e.prepare file content = .ok r) :
    IsRequestOf e file content r := by
  obtain ⟨hsize, hname, prose, code, hsplit, hlanguage, hparse, htask, hcode, hfunction⟩ :=
    exists_of_prepare h
  have hprompt : r.language ≠ .prompt := fun hprompt =>
    Detection.byContent?_ne_prompt (hprompt ▸ hlanguage)
  obtain ⟨hparsed, hrecords⟩ := isPieceOf_of_mem_parse hprompt hparse
  obtain ⟨hdescribed, piece, hpiece, hinfix⟩ := hrecords _ (List.mem_singleton_self _)
  have hpiece' : r.function = String.ofList piece := by
    rw [hfunction, hpiece, Option.getD_some]
  have htext : r.code.toList = Text.trim code := by
    rw [hcode, String.toList_ofList]
  refine ⟨⟨prose, code, Prompt.append_split? hsplit, htask, hcode⟩, hpiece' ▸ hpiece, ?_,
    hdescribed, hparsed, ?_, ?_⟩
  · rw [hpiece', htext, String.toList_ofList]
    exact hinfix
  · have hextract : e.extract file content = _ := extract_of_byFileName? hname
    rw [hsize, Prompt.parse_prompt, hsplit] at hextract
    exact ⟨_, hextract, htask ▸ rfl, hcode ▸ rfl⟩
  · -- the code is decoded to itself, and parsed as it was for the request
    intro name hname' hfits
    have hfits' : e.checkSize name (Utf8.encode r.code.toList) = .ok () := if_neg (by omega)
    rw [extract_of_byFileName? hname', hfits', Utf8.decodeLossy_encode, htext, hparse]
    rfl

/-- A request that is prepared holds what is extracted from the file, and its function is the one
that is extracted from its code. On both ways a prompt fails alike for its size and for want of
code. -/
theorem prepare_agrees (e : Engine) (file : String) (content : Bytes) :
    (∀ r, e.prepare file content = .ok r → IsRequestOf e file content r) ∧
    (Detection.byFileName? file.toList = some .prompt →
      (e.prepare file content = .error .codeNotFound ↔
        e.extract file content = .error .codeNotFound) ∧
      ∀ name size limit, e.prepare file content = .error (.inputTooLarge name size limit) ↔
        e.extract file content = .error (.inputTooLarge name size limit)) := by
  refine ⟨fun r => IsRequestOf.of_prepare, fun hname => ⟨?_, fun name size limit => ?_⟩⟩
  · rw [prepare_eq_error_iff hname (.inl rfl), extract_eq_error_iff hname]
  · rw [prepare_eq_error_iff hname (.inr ⟨name, size, limit, rfl⟩), extract_eq_error_iff hname]

/-- A prompt whose code is a class with one method. -/
def methodPrompt : Text := "Why?\nclass C \x7b\n  public int f() \x7b \x7d\n\x7d\n".toList

set_option maxRecDepth 10000 in
theorem isSome_prepare_methodPrompt :
    ((Engine.mk {} none).prepare "f.txt" (Utf8.encode methodPrompt)).toOption.isSome = true := by
  simp only [prepare, Utf8.decodeLossy_encode]
  decide +kernel

theorem prepare_agrees_methodPrompt :
    (∃ r, (Engine.mk {} none).prepare "f.txt" (Utf8.encode methodPrompt) = .ok r ∧
      IsRequestOf (.mk {} none) "f.txt" (Utf8.encode methodPrompt) r) ∧
    Detection.byFileName? "f.txt".toList = some .prompt ∧
    ((Engine.mk {} none).prepare "f.txt" (Utf8.encode methodPrompt) = .error .codeNotFound ↔
      (Engine.mk {} none).extract "f.txt" (Utf8.encode methodPrompt) = .error .codeNotFound) := by
  have hagrees := prepare_agrees (.mk {} none) "f.txt" (Utf8.encode methodPrompt)
  have hname : Detection.byFileName? "f.txt".toList = some .prompt := by decide +kernel
  refine ⟨?_, hname, (hagrees.2 hname).1⟩
  have hsome := isSome_prepare_methodPrompt
  cases hprepare : (Engine.mk {} none).prepare "f.txt" (Utf8.encode methodPrompt) with
  | error cause =>
    rw [hprepare] at hsome
    cases hsome
  | ok r => exact ⟨r, rfl, hagrees.1 r hprepare⟩

end Glossator.Engine
