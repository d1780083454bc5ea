import Glossator.Parsing
import Glossator.Proofs.Java.Method
import Glossator.Proofs.Java.Forest
import Glossator.Proofs.Python.Enumeration

/-!
# The records that parsing gives

Whatever the language, the full text of a function that is found is a stretch of the text that was
parsed.

* `IsPieceOf`: the record is one of a stretch of a text in a language.
* `isPieceOf_of_mem_parse`: parsing Python or Java gives such records.
-/

set_option autoImplicit false

namespace Glossator

/-- The record is in the given language, and its full text is a stretch of the text. -/
structure IsPieceOf (language : Language) (t : Text) (r : FunctionRecord) : Prop where
  language : r.language = some language
  fullText : ∃ piece, r.fullText = some (String.ofList piece) ∧ piece <:+: t

theorem Span.slice_isInfix_self (span : Span) (t : Text) : span.slice t <:+: t :=
  (List.take_prefix _ _).isInfix.trans (List.drop_suffix _ _).isInfix

namespace Java

theorem Reached.text_isInfix {src : Source} {chain : List TypeDeclaration} {s : Stretch}
    (h : Reached src chain s) : s.text <:+: src.text := by
  induction h with
  | whole => exact List.infix_rfl
  | @body chain s d _ _ ih => exact (Span.slice_isInfix_self d.block.inner s.text).trans ih

theorem isPieceOf_of_mem_extract {t : Text} {r : FunctionRecord} (h : r ∈ extract t) :
    IsPieceOf .java t r := by
  obtain ⟨f, hf, rfl⟩ := List.mem_map.1 h
  obtain ⟨chain, hs, -, -⟩ := exists_reached_of_mem_findings hf
  exact ⟨rfl, _, rfl, (Span.slice_isInfix_self _ f.stretch.text).trans hs.text_isInfix⟩

end Java

namespace Python

theorem Source.slice_isInfix (t : Text) (first last : Nat) :
    (Source.ofText t).slice first last <:+: t := by
  unfold slice
  split
  · exact List.nil_infix
  · conv_rhs => rw [← Text.flatten_linesWithEnds t]
    obtain ⟨above, below, hlines⟩ := (List.drop_suffix (first - 1) _).isInfix.trans
      (List.take_prefix last t.linesWithEnds).isInfix
    exact ⟨above.flatten, below.flatten, by rw [← hlines]; simp [ofText]⟩

theorem isPieceOf_of_record? {t : Text} {scope : Option ClassScope} {decorators : List Text}
    {n : Tree} {r : FunctionRecord} (h : record? (.ofText t) scope decorators n = some r) :
    IsPieceOf .python t r := by
  obtain ⟨name, -, rfl⟩ := Option.map_eq_some_iff.1 h
  exact ⟨rfl, _, rfl, Source.slice_isInfix t _ _⟩

/-- What holds of every record of a definition holds of the records of a file. -/
theorem forall_functionsOfBody {P : FunctionRecord → Prop} {src : Source}
    (hP : ∀ scope decorators n r, record? src scope decorators n = some r → P r)
    (scope : Option ClassScope) (n : Tree) : ∀ r ∈ functionsOfBody src scope n, P r := by
  refine (functionsOf.mutual_induct src
    (fun scope decorators n => ∀ r ∈ functionsOf src scope decorators n, P r)
    (fun scope n => ∀ r ∈ functionsOfBody src scope n, P r)
    ?function ?classes ?noBody ?decoratedTwice ?decorated ?noDefinition ?other ?body).2 scope n
  case function =>
    intro scope decorators n hkind r hr
    rw [functionsOf_function hkind, Option.mem_toList] at hr
    exact hP _ _ _ r hr
  case classes =>
    intro scope decorators n hkind name body hbody hname _ ih
    rw [functionsOf_class hkind hname hbody]
    exact ih
  case noBody =>
    intro scope decorators n hkind hnone r hr
    rw [functionsOf] at hr
    simp [hkind] at hr
  case decoratedTwice =>
    intro scope decorators n hkind definition hdefinition _ htwice r hr
    rw [functionsOf] at hr
    simp only [hkind] at hr
    split at hr <;> simp_all
  case decorated =>
    intro scope decorators n hkind definition hdefinition _ _ honce ih
    rw [functionsOf_decorated hkind hdefinition (by simpa using honce)]
    exact ih
  case noDefinition =>
    intro scope decorators n hkind hnone r hr
    rw [functionsOf] at hr
    simp only [hkind] at hr
    split at hr <;> simp_all
  case other =>
    intro scope decorators n hfunction hclass hdecorated r hr
    rw [functionsOf_other (by simpa [definitionKinds] using ⟨hfunction, hclass, hdecorated⟩)] at hr
    cases hr
  case body =>
    intro scope n ih r hr
    rw [functionsOfBody_eq] at hr
    obtain ⟨c, hc, hr⟩ := List.mem_flatMap.1 hr
    exact ih c (List.mem_of_mem_filter hc) r hr

theorem isPieceOf_of_mem_extract {t : Text} {r : FunctionRecord} (h : r ∈ extract t) :
    IsPieceOf .python t r := by
  unfold extract at h
  split at h
  · exact forall_functionsOfBody (fun _ _ _ _ => isPieceOf_of_record?) none _ r h
  · cases h

end Python

/-- Parsing Python or Java gives records of stretches of the text in that language. -/
theorem isPieceOf_of_mem_parse {language : Language} {t : Text} {records : List FunctionRecord}
    (hlanguage : language ≠ .prompt) (h : parse language t = .ok records) :
    (language = .python ∨ language = .java) ∧ ∀ r ∈ records, IsPieceOf language t r := by
  cases language with
  | python =>
    cases h
    exact ⟨.inl rfl, fun r => Python.isPieceOf_of_mem_extract⟩
  | java =>
    cases h
    exact ⟨.inr rfl, fun r => Java.isPieceOf_of_mem_extract⟩
  | prompt => exact absurd rfl hlanguage
  | c | cpp | csharp | go | javascript => cases h

/-- Parsing what is not a prompt fails only for want of a parser. -/
theorem eq_notImplemented_of_parse {language : Language} {t : Text} {cause : Error}
    (hlanguage : language ≠ .prompt) (h : parse language t = .error cause) :
    cause = .notImplemented language := by
  cases language with
  | prompt => exact absurd rfl hlanguage
  | python | java => cases h
  | c | cpp | csharp | go | javascript =>
    cases h
    rfl

end Glossator
