import Glossator.Proofs.Json.Reader
import Glossator.Proofs.Run

/-!
# Reading reports back

A function record comes back from its JSON form field by field, an extraction with its functions,
and a report as what it was: a failure has no language, so it is never taken for an extraction, and
an extraction is tried first.

* `CommandLine.read?_writeReports`: the reports that a scan writes in JSON are read back as they
  were.
-/

set_option autoImplicit false

namespace Glossator

namespace Json

/-- The natural numbers that fit in 64 bits. -/
def IsWord (n : Nat) : Prop := n ≤ 18446744073709551615

/-- The integers that fit in 64 bits with a sign. -/
def IsSignedWord (i : Int) : Prop := -9223372036854775808 ≤ i ∧ i ≤ 9223372036854775807

theorem asNat64?_ofNat {n : Nat} (h : IsWord n) : asNat64? (ofNat n) = some n := by
  have hfits : (n : Int) ≤ 18446744073709551615 := by exact_mod_cast h
  simp [asNat64?, ofNat, hfits]

theorem asInt64?_integer {i : Int} (h : IsSignedWord i) : asInt64? (integer i) = some i :=
  if_pos h

theorem asString?_string (s : String) : asString? (string s) = some s := rfl

theorem asBool?_bool (b : Bool) : asBool? (bool b) = some b := rfl

theorem asStrings?_ofStrings (ss : List String) : asStrings? (ofStrings ss) = some ss := by
  simp only [asStrings?, ofStrings, asArray?, Option.bind_some]
  induction ss with
  | nil => rfl
  | cons s ss ih => simp [asString?, ih]

/-- An optional value is read back, since no value is written as `null`. -/
theorem orNull?_ofOption {α : Type} {write : α → Json} {read : Json → Option α} {a : Option α}
    (h : ∀ x ∈ a, write x ≠ .null ∧ read (write x) = some x) :
    orNull? read (ofOption write a) = some a := by
  cases a with
  | none => rfl
  | some x =>
    obtain ⟨hne, hread⟩ := h x rfl
    unfold orNull?
    split
    · next heq => exact absurd heq hne
    · rw [ofOption, hread]
      rfl

end Json

open Json (Members IsWord IsSignedWord)

theorem Language.ofJson?_toJson (l : Language) : ofJson? l.toJson = some l := ofExactName?_name l

/-- A step that gives a value is followed by what comes of the value. -/
theorem bind_of_eq_some {α β : Type} {a : Option α} {next : α → Option β} {x : α} {r : β}
    (h : a = some x) (hnext : next x = some r) : a >>= next = some r := by
  rw [h]
  exact hnext

namespace FunctionRecord

/-- The numbers of a record fit in 64 bits, those of lines with a sign. -/
structure FitsWords (f : FunctionRecord) : Prop where
  fullLineCount : IsWord f.fullLineCount
  lineCount : IsWord f.lineCount
  docstringLineCount : ∀ n ∈ f.docstringLineCount, IsWord n
  startLine : IsSignedWord f.startLine
  endLine : IsSignedWord f.endLine

/-- A function record comes back from its JSON form. -/
theorem ofJson?_toJson {f : FunctionRecord} (h : f.FitsWords) : ofJson? f.toJson = some f := by
  have htext (a : Option String) : Json.orNull? Json.asString? (Json.ofOption .string a) = some a :=
    Json.orNull?_ofOption fun s _ => ⟨Json.noConfusion, rfl⟩
  have hlanguage : Json.orNull? Language.ofJson? (Json.ofOption Language.toJson f.language) =
      some f.language :=
    Json.orNull?_ofOption fun l _ => ⟨Json.noConfusion, l.ofJson?_toJson⟩
  have hcount : Json.orNull? Json.asNat64? (Json.ofOption .ofNat f.docstringLineCount) =
      some f.docstringLineCount :=
    Json.orNull?_ofOption fun n hn =>
      ⟨Json.noConfusion, Json.asNat64?_ofNat (h.docstringLineCount n hn)⟩
  unfold ofJson?
  refine bind_of_eq_some rfl ?_
  refine bind_of_eq_some hlanguage ?_
  refine bind_of_eq_some (htext f.fullText) ?_
  refine bind_of_eq_some (htext f.text) ?_
  refine bind_of_eq_some (htext f.docstring) ?_
  refine bind_of_eq_some (Json.asNat64?_ofNat h.fullLineCount) ?_
  refine bind_of_eq_some (Json.asNat64?_ofNat h.lineCount) ?_
  refine bind_of_eq_some hcount ?_
  refine bind_of_eq_some (htext f.name) ?_
  refine bind_of_eq_some (htext f.qualifiedName) ?_
  refine bind_of_eq_some (htext f.package) ?_
  refine bind_of_eq_some (Json.asString?_string f.signature) ?_
  refine bind_of_eq_some (htext f.returnType) ?_
  refine bind_of_eq_some (Json.asStrings?_ofStrings f.parameters) ?_
  refine bind_of_eq_some (Json.asInt64?_integer h.startLine) ?_
  refine bind_of_eq_some (Json.asInt64?_integer h.endLine) ?_
  refine bind_of_eq_some (Json.asBool?_bool f.isMethod) ?_
  refine bind_of_eq_some (htext f.className) ?_
  refine bind_of_eq_some (htext f.classDescription) ?_
  refine bind_of_eq_some (Json.asStrings?_ofStrings f.decorators) ?_
  refine bind_of_eq_some (Json.asStrings?_ofStrings f.modifiers) ?_
  refine bind_of_eq_some (htext f.visibility) ?_
  refine bind_of_eq_some (Json.asBool?_bool f.hasBody) ?_
  refine bind_of_eq_some (Json.asBool?_bool f.isConstructor) ?_
  rfl

end FunctionRecord

theorem mapM_map_eq_some {α β : Type} {write : α → β} {read : β → Option α} {as : List α}
    (h : ∀ a ∈ as, read (write a) = some a) : (as.map write).mapM read = some as := by
  induction as with
  | nil => rfl
  | cons a as ih =>
    simp [h a List.mem_cons_self, ih fun b hb => h b (List.mem_cons_of_mem a hb)]

namespace Extraction

/-- The numbers of an extraction and of its functions fit in 64 bits. -/
structure FitsWords (e : Extraction) : Prop where
  count : IsWord e.count
  functions : ∀ f ∈ e.functions, f.FitsWords

/-- An extraction comes back from its JSON form. -/
theorem ofJson?_toJson {e : Extraction} (h : e.FitsWords) : ofJson? e.toJson = some e := by
  unfold ofJson?
  refine bind_of_eq_some rfl ?_
  refine bind_of_eq_some (rfl : Json.asArray? (.array _) = some _) ?_
  refine bind_of_eq_some (Json.asString?_string e.file) ?_
  refine bind_of_eq_some e.language.ofJson?_toJson ?_
  refine bind_of_eq_some (Json.asNat64?_ofNat h.count) ?_
  refine bind_of_eq_some (mapM_map_eq_some fun f hf => f.ofJson?_toJson (h.functions f hf)) ?_
  rfl

/-- A failure is not read as an extraction: it has no list of functions. -/
theorem ofJson?_failed (file error : String) :
    ofJson? (Report.failed file error).toJson = none := rfl

end Extraction

namespace Report

/-- The numbers in a report fit in 64 bits. -/
def FitsWords : Report → Prop
  | extracted e => e.FitsWords
  | failed _ _ => True

theorem ofJson?_failed (file error : String) :
    ofJson? (failed file error).toJson = some (failed file error) := rfl

/-- A report comes back from its JSON form. -/
theorem ofJson?_toJson {r : Report} (h : r.FitsWords) : ofJson? r.toJson = some r := by
  cases r with
  | extracted e =>
    have hread : Extraction.ofJson? (extracted e).toJson = some e := Extraction.ofJson?_toJson h
    rw [ofJson?, hread]
  | failed file error => exact ofJson?_failed file error

/-- What is read from the form of an extraction is an extraction: the form has no error. -/
theorem exists_of_ofJson?_extracted {e : Extraction} {r : Report}
    (h : ofJson? (extracted e).toJson = some r) : ∃ e', r = extracted e' := by
  unfold ofJson? at h
  split at h
  · next e' _ =>
    cases h
    exact ⟨e', rfl⟩
  · cases h

end Report

/-! ### Room for the reader -/

namespace Json

variable {depth : Nat}

theorem within_ofStrings (ss : List String) : Within (depth + 1) (ofStrings ss) := by
  refine .array ?_
  intro j hj
  obtain ⟨s, -, rfl⟩ := List.mem_map.1 hj
  exact .string depth s

theorem within_ofOption {α : Type} {write : α → Json} {a : Option α}
    (h : ∀ x, Within depth (write x)) : Within depth (ofOption write a) := by
  cases a with
  | none => exact .null depth
  | some x => exact h x

theorem reread_ofNat {n : Nat} (h : IsWord n) : (ofNat n).reread = ofNat n := by
  rw [ofNat, reread, rereadInteger, if_pos]
  refine ⟨?_, ?_⟩
  · omega
  · exact_mod_cast h

theorem reread_integer {i : Int} (h : IsSignedWord i) : (integer i).reread = integer i := by
  rw [reread, rereadInteger, if_pos ⟨h.1, h.2.trans (by decide)⟩]

theorem reread_ofStrings (ss : List String) : (ofStrings ss).reread = ofStrings ss := by
  have hstrings : reread ∘ string = string := funext reread_string
  rw [ofStrings, reread, List.map_map, hstrings]

theorem reread_ofOption {α : Type} {write : α → Json} {a : Option α}
    (h : ∀ x ∈ a, (write x).reread = write x) :
    (ofOption write a).reread = ofOption write a := by
  cases a with
  | none => exact reread_null
  | some x => exact h x rfl

theorem reread_ofOption_string (a : Option String) :
    (ofOption string a).reread = ofOption string a :=
  reread_ofOption fun s _ => reread_string s

end Json

open Json (Within)

theorem Language.reread_toJson (l : Language) : l.toJson.reread = l.toJson :=
  Json.reread_string l.name

theorem FunctionRecord.within_toJson (f : FunctionRecord) (depth : Nat) :
    Within (depth + 2) f.toJson := by
  refine .object ?_
  have htext (a : Option String) : Within (depth + 1) (.ofOption .string a) :=
    Json.within_ofOption fun s => .string _ s
  have hlanguage : Within (depth + 1) (.ofOption Language.toJson f.language) :=
    Json.within_ofOption fun l => .string _ l.name
  have hcount : Within (depth + 1) (.ofOption .ofNat f.docstringLineCount) :=
    Json.within_ofOption fun n => .integer _ n
  have hnat (n : Nat) : Within (depth + 1) (.ofNat n) := .integer _ n
  simp only [List.forall_mem_cons]
  simp [htext, hlanguage, hcount, hnat, Json.within_ofStrings, Within.string, Within.bool,
    Within.integer]

/-- The numbers of a record that fit in 64 bits are read as they are. -/
theorem FunctionRecord.reread_toJson {f : FunctionRecord} (h : f.FitsWords) :
    f.toJson.reread = f.toJson := by
  have hlanguage : (Json.ofOption Language.toJson f.language).reread = .ofOption _ f.language :=
    Json.reread_ofOption fun l _ => l.reread_toJson
  have hcount : (Json.ofOption .ofNat f.docstringLineCount).reread = .ofOption _ _ :=
    Json.reread_ofOption fun n hn => Json.reread_ofNat (h.docstringLineCount n hn)
  rw [toJson, Json.reread]
  simp only [List.map_cons, List.map_nil, hlanguage, hcount, Json.reread_string, Json.reread_bool,
    Json.reread_ofOption_string, Json.reread_ofStrings, Json.reread_ofNat h.fullLineCount,
    Json.reread_ofNat h.lineCount, Json.reread_integer h.startLine, Json.reread_integer h.endLine]

namespace Report

theorem within_toJson (r : Report) (depth : Nat) : Within (depth + 4) r.toJson := by
  cases r with
  | extracted e =>
    have hfunctions : Within (depth + 3) (.array (e.functions.map FunctionRecord.toJson)) := by
      refine .array ?_
      intro j hj
      obtain ⟨f, -, rfl⟩ := List.mem_map.1 hj
      exact f.within_toJson depth
    have hnat (n : Nat) : Within (depth + 3) (.ofNat n) := .integer _ n
    refine .object ?_
    simp only [List.forall_mem_cons]
    simp [hfunctions, hnat, Within.string, Language.toJson]
  | failed file error =>
    refine .object ?_
    simp only [List.forall_mem_cons]
    simp [Within.string]

/-- The numbers in a report that fit in 64 bits are read as they are. -/
theorem reread_toJson {r : Report} (h : r.FitsWords) : r.toJson.reread = r.toJson := by
  cases r with
  | extracted e =>
    have hfunctions : (Json.array (e.functions.map FunctionRecord.toJson)).reread =
        .array (e.functions.map FunctionRecord.toJson) := by
      rw [Json.reread, List.map_map]
      exact congrArg Json.array
        (List.map_congr_left fun f hf => f.reread_toJson (h.functions f hf))
    change (Extraction.toJson e).reread = e.toJson
    rw [Extraction.toJson, Json.reread]
    simp only [List.map_cons, List.map_nil, Json.reread_string, hfunctions,
      e.language.reread_toJson, Json.reread_ofNat h.count]
  | failed file error =>
    rw [toJson, Json.reread]
    simp only [List.map_cons, List.map_nil, Json.reread_string]

end Report

namespace CommandLine

/-- What is read from the array of reports that a scan writes. -/
theorem jsonRead?_showReports (reports : List Report) : Json.read? (showReports .json reports) =
    some (.array (reports.map fun r => r.toJson.reread)) := by
  have hwithin : Within Json.maxDepth (.array (reports.map Report.toJson)) := by
    refine .array ?_
    intro j hj
    obtain ⟨r, -, rfl⟩ := List.mem_map.1 hj
    exact r.within_toJson 122
  have hread : Json.read? (showReports .json reports) =
      some (Json.array (reports.map Report.toJson)).reread :=
    Json.read?_indented hwithin fun c hc => .inr (.inl (List.mem_singleton.1 hc))
  rw [hread, Json.reread, List.map_map]
  rfl

/-- The reports that a scan writes in JSON are read back as they were, each as what it was: a
failure is no extraction, and an extraction is read as nothing else. -/
theorem read?_writeReports {reports : List Report} (h : ∀ r ∈ reports, r.FitsWords) :
    Report.read? (Run.writeReports .json reports).outcome.2 = some reports ∧
      (∀ file error, Extraction.ofJson? (Report.failed file error).toJson = none) ∧
      ∀ e r, Report.ofJson? (Report.extracted e).toJson = some r → ∃ e', r = .extracted e' := by
  refine ⟨?_, Extraction.ofJson?_failed, fun e r => Report.exists_of_ofJson?_extracted⟩
  have hsame : (reports.map fun r => r.toJson.reread) = reports.map Report.toJson :=
    List.map_congr_left fun r hr => Report.reread_toJson (h r hr)
  rw [(Run.writes_writeReports .json reports).outcome_eq]
  unfold Report.read?
  refine bind_of_eq_some (jsonRead?_showReports reports) ?_
  rw [hsame]
  exact mapM_map_eq_some fun r hr => r.ofJson?_toJson (h r hr)

/-- An extraction with one function whose lines are unknown, and a failure. -/
def mixedReports : List Report :=
  [.extracted ⟨"a.py", .python, 1, [{ name := some "f\n\"" }]⟩, .failed "b.go" "no parser"]

theorem fitsWords_of_mem_mixedReports {r : Report} (h : r ∈ mixedReports) : r.FitsWords := by
  obtain rfl | rfl : r = _ ∨ r = _ := by simpa [mixedReports] using h
  · have hrecord : FunctionRecord.FitsWords { name := some "f\n\"" } := by
      constructor <;> simp [IsWord, IsSignedWord]
    exact ⟨by simp [IsWord], by simpa using hrecord⟩
  · trivial

theorem read?_writeReports_mixedReports : (∀ r ∈ mixedReports, r.FitsWords) ∧
    Report.read? (Run.writeReports .json mixedReports).outcome.2 = some mixedReports :=
  ⟨fun _ => fitsWords_of_mem_mixedReports,
    (read?_writeReports fun _ => fitsWords_of_mem_mixedReports).1⟩

end CommandLine

end Glossator
