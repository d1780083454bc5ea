import Glossator.Proofs.Config.Toml

/-!
# Partial configurations

A configuration file may leave out settings and whole sections, and may hold unknown ones. What it
writes takes the place of the defaults.

* `Config.Written`: some of the settings.
* `Config.Writes`: a document writes these settings and no others.
* `Config.parse_of_writes`: what is read from such a document.
* `Config.Written.writes_render`: a text for any choice of settings.
-/

set_option autoImplicit false

namespace Glossator

open Toml

namespace Config

/-- Some of the settings. -/
structure Written where
  maxFileSize : Option Nat
  contentFallback : Option Bool
  enabled : Option Bool
  baseUrl : Option String
  timeoutSeconds : Option Nat
  level : Option String

/-- The configuration with these settings, and the defaults for the others. -/
def Written.config (w : Written) : Config :=
  let default : Config := {}
  { parsing :=
      { maxFileSize := w.maxFileSize.getD default.parsing.maxFileSize
        contentFallback := w.contentFallback.getD default.parsing.contentFallback }
    service :=
      { enabled := w.enabled.getD default.service.enabled
        baseUrl := w.baseUrl.getD default.service.baseUrl
        timeoutSeconds := w.timeoutSeconds.getD default.service.timeoutSeconds }
    logging := { level := w.level.getD default.logging.level } }

/-- What a document says of a setting; nothing if it lacks the section. -/
def said? (fields : List (Text × Toml)) (part name : String) : Option Toml :=
  match fields.lookup part.toList with
  | some (.table settings) => settings.lookup name.toList
  | _ => none

/-- A document writes some of the settings. Its sections are tables, and it may hold others. -/
structure Writes (fields : List (Text × Toml)) (w : Written) : Prop where
  tables : ∀ part ∈ ["parsing", "backend", "logging"], ∀ v, fields.lookup part.toList = some v →
    ∃ settings, v = .table settings
  maxFileSize : said? fields "parsing" "max_file_size" =
    w.maxFileSize.map fun n => .scalar (.integer n)
  contentFallback : said? fields "parsing" "content_detection_fallback" =
    w.contentFallback.map fun b => .scalar (.boolean b)
  enabled : said? fields "backend" "enabled" = w.enabled.map fun b => .scalar (.boolean b)
  baseUrl : said? fields "backend" "base_url" = w.baseUrl.map fun s => .scalar (.string s.toList)
  timeoutSeconds : said? fields "backend" "timeout_secs" =
    w.timeoutSeconds.map fun n => .scalar (.integer n)
  level : said? fields "logging" "level" = w.level.map fun s => .scalar (.string s.toList)

variable {fields : List (Text × Toml)} {w : Written}

/-! ### Reading a partial document -/

theorem asNat?_integer (n : Nat) : asNat? (.scalar (.integer n)) = some n := rfl

theorem asBool?_boolean (b : Bool) : asBool? (.scalar (.boolean b)) = some b := rfl

/-- A setting that is written is read, and one that is not keeps its default. -/
theorem setting_eq {α : Type} {settings : List (Text × Toml)} {name : String} {written : Option α}
    {write : α → Toml} {read : Toml → Option α}
    (h : settings.lookup name.toList = written.map write) (hread : ∀ x, read (write x) = some x)
    (default : α) :
    setting (fun name => settings.lookup name.toList) name default read =
      some (written.getD default) := by
  rw [setting, h]
  cases written with
  | none => rfl
  | some x => exact hread x

/-- A section that is missing says nothing, and one that is there is a table. -/
theorem Writes.section_cases (h : Writes fields w) (part : String)
    (hpart : part ∈ ["parsing", "backend", "logging"]) :
    (fields.lookup part.toList = none ∧ ∀ name, said? fields part name = none) ∨
      ∃ settings, fields.lookup part.toList = some (.table settings) ∧
        ∀ name, said? fields part name = settings.lookup name.toList := by
  cases hlookup : fields.lookup part.toList with
  | none => exact .inl ⟨rfl, fun name => by simp [said?, hlookup]⟩
  | some v =>
    obtain ⟨settings, rfl⟩ := h.tables part hpart v hlookup
    exact .inr ⟨settings, rfl, fun name => by simp [said?, hlookup]⟩

theorem Writes.parsing (h : Writes fields w) :
    setting (fun name => fields.lookup name.toList) "parsing" {} ParsingSettings.ofToml? =
      some w.config.parsing := by
  have hsize := h.maxFileSize
  have hfallback := h.contentFallback
  rcases h.section_cases "parsing" (by decide) with ⟨hnone, hsaid⟩ | ⟨settings, hsome, hsaid⟩
  · rw [hsaid, eq_comm, Option.map_eq_none_iff] at hsize hfallback
    rw [setting, hnone]
    simp [Written.config, hsize, hfallback]
  · rw [hsaid] at hsize hfallback
    rw [setting, hsome]
    simp only [ParsingSettings.ofToml?, settings?, setting_eq hsize asNat?_integer,
      setting_eq hfallback asBool?_boolean, Option.bind_eq_bind, Option.bind_some]
    rfl

theorem Writes.service (h : Writes fields w) :
    setting (fun name => fields.lookup name.toList) "backend" {} ServiceSettings.ofToml? =
      some w.config.service := by
  have henabled := h.enabled
  have hurl := h.baseUrl
  have htimeout := h.timeoutSeconds
  rcases h.section_cases "backend" (by decide) with ⟨hnone, hsaid⟩ | ⟨settings, hsome, hsaid⟩
  · rw [hsaid, eq_comm, Option.map_eq_none_iff] at henabled hurl htimeout
    rw [setting, hnone]
    simp [Written.config, henabled, hurl, htimeout]
  · rw [hsaid] at henabled hurl htimeout
    rw [setting, hsome]
    simp only [ServiceSettings.ofToml?, settings?, setting_eq henabled asBool?_boolean,
      setting_eq hurl asText?_string, setting_eq htimeout asNat?_integer, Option.bind_eq_bind,
      Option.bind_some]
    rfl

theorem Writes.logging (h : Writes fields w) :
    setting (fun name => fields.lookup name.toList) "logging" {} LoggingSettings.ofToml? =
      some w.config.logging := by
  have hlevel := h.level
  rcases h.section_cases "logging" (by decide) with ⟨hnone, hsaid⟩ | ⟨settings, hsome, hsaid⟩
  · rw [hsaid, eq_comm, Option.map_eq_none_iff] at hlevel
    rw [setting, hnone]
    simp [Written.config, hlevel]
  · rw [hsaid] at hlevel
    rw [setting, hsome]
    simp only [LoggingSettings.ofToml?, settings?, setting_eq hlevel asText?_string,
      Option.bind_eq_bind, Option.bind_some]
    rfl

/-- What a partial document is read as: the settings it writes, and the defaults for the others. -/
theorem Writes.ofToml?_eq (h : Writes fields w) : ofToml? (.table fields) = some w.config := by
  simp only [ofToml?, settings?, h.parsing, h.service, h.logging, Option.bind_eq_bind,
    Option.bind_some]

/-- A partial document gives a configuration unless one of its limits is zero. -/
theorem Writes.parse_eq {t : Text} (hread : Toml.read? t = some fields) (h : Writes fields w) :
    parse t =
      if w.maxFileSize = some 0 then .error (.config (.notPositive "parsing.max_file_size"))
      else if w.timeoutSeconds = some 0 then
        .error (.config (.notPositive "backend.timeout_secs"))
      else .ok w.config := by
  rw [parse, hread, Option.bind_some, h.ofToml?_eq]
  have hsize : w.config.parsing.maxFileSize = 0 ↔ w.maxFileSize = some 0 := by
    cases hw : w.maxFileSize <;> simp [Written.config, hw]
  have htimeout : w.config.service.timeoutSeconds = 0 ↔ w.timeoutSeconds = some 0 := by
    cases hw : w.timeoutSeconds <;> simp [Written.config, hw]
  simp only [validated, fault?, hsize, htimeout]
  split <;> split <;> simp_all

/-! ### Writing a partial document -/

/-- A section with the given settings; none is written without settings. -/
def part (name : String) (settings : List (Text × Scalar)) : List Section :=
  if settings.isEmpty then [] else [⟨name.toList, settings⟩]

/-- A setting, if it is written. -/
def entry {α : Type} (name : String) (write : α → Scalar) (written : Option α) :
    List (Text × Scalar) :=
  (written.map fun x => (name.toList, write x)).toList

/-- The settings of the sections, each with further settings behind them. -/
def Written.parsing (w : Written) (further : List (Text × Scalar)) : List (Text × Scalar) :=
  entry "max_file_size" (fun n : Nat => .integer n) w.maxFileSize ++
    (entry "content_detection_fallback" .boolean w.contentFallback ++ further)

@[inherit_doc Written.parsing]
def Written.service (w : Written) (further : List (Text × Scalar)) : List (Text × Scalar) :=
  entry "enabled" .boolean w.enabled ++
    (entry "base_url" (fun s => .string s.toList) w.baseUrl ++
      (entry "timeout_secs" (fun n : Nat => .integer n) w.timeoutSeconds ++ further))

@[inherit_doc Written.parsing]
def Written.logging (w : Written) (further : List (Text × Scalar)) : List (Text × Scalar) :=
  entry "level" (fun s => .string s.toList) w.level ++ further

/-- The sections that write these settings. -/
def Written.sections (w : Written) (further : List (Text × Scalar)) : List Section :=
  part "parsing" (w.parsing further) ++ (part "backend" (w.service further) ++
    part "logging" (w.logging further))

/-- The numbers that are written fit in 64 bits with a sign. -/
def Written.FitsInteger (w : Written) : Prop :=
  (∀ n ∈ w.maxFileSize, IsIntegerRange n) ∧ ∀ n ∈ w.timeoutSeconds, IsIntegerRange n

/-- The names that a configuration knows. -/
def knownNames : List Text :=
  ["parsing", "backend", "logging", "max_file_size", "content_detection_fallback", "enabled",
    "base_url", "timeout_secs", "level"].map String.toList

/-- What a file may hold beside the known settings: further settings in its sections, and other
sections. -/
structure IsUnknown (further : List (Text × Scalar)) (others : List Section) : Prop where
  names : ∀ x ∈ further, IsName x.1 ∧ x.1 ∉ knownNames
  values : ∀ x ∈ further, x.2.IsWritable
  nodup : (further.map Prod.fst).Nodup
  sections : ∀ s ∈ others, s.IsWritable ∧ s.name ∉ knownNames
  nodup_sections : (others.map Section.name).Nodup

variable {further settings : List (Text × Scalar)} {others rest : List Section}

/-- The values of settings. -/
def valuesOf (settings : List (Text × Scalar)) : List (Text × Toml) :=
  settings.map fun (name, v) => (name, .scalar v)

theorem IsUnknown.name_notMem (h : IsUnknown further others) {name : String}
    (hname : name.toList ∈ knownNames) : name.toList ∉ further.map Prod.fst := by
  intro hmem
  obtain ⟨x, hx, heq⟩ := List.mem_map.1 hmem
  exact (h.names x hx).2 (heq ▸ hname)

theorem IsUnknown.section_notMem (h : IsUnknown further others) {name : String}
    (hname : name.toList ∈ knownNames) : name.toList ∉ others.map Section.name := by
  intro hmem
  obtain ⟨s, hs, heq⟩ := List.mem_map.1 hmem
  exact (h.sections s hs).2 (heq ▸ hname)

/-! ### What sections say -/

theorem names_part_append (name : String) (settings : List (Text × Scalar)) (rest : List Section) :
    ((part name settings ++ rest).map Section.name).Sublist
      (name.toList :: rest.map Section.name) := by
  cases settings <;> simp [part]

theorem names_entry_append {α : Type} (name : String) (write : α → Scalar) (written : Option α)
    (settings : List (Text × Scalar)) :
    ((entry name write written ++ settings).map Prod.fst).Sublist
      (name.toList :: settings.map Prod.fst) := by
  cases written <;> simp [entry]

theorem notMem_part {name name' : String} (hne : name'.toList ≠ name.toList)
    (h : name'.toList ∉ rest.map Section.name) :
    name'.toList ∉ (part name settings ++ rest).map Section.name := fun hmem =>
  absurd ((names_part_append name settings rest).subset hmem)
    (List.not_mem_cons_of_ne_of_not_mem hne h)

theorem notMem_entry {α : Type} {name name' : String} {write : α → Scalar} {written : Option α}
    (hne : name'.toList ≠ name.toList) (h : name'.toList ∉ settings.map Prod.fst) :
    name'.toList ∉ (entry name write written ++ settings).map Prod.fst := fun hmem =>
  absurd ((names_entry_append name write written settings).subset hmem)
    (List.not_mem_cons_of_ne_of_not_mem hne h)

/-- What a section says that no later section repeats. -/
theorem said?_part {name : String} (h : name.toList ∉ rest.map Section.name) (key : String) :
    said? ((part name settings ++ rest).map Section.toToml) name key =
      (valuesOf settings).lookup key.toList := by
  have hrest : (rest.map Section.toToml).lookup name.toList = none :=
    lookup_eq_none (by simpa [Section.toToml] using h)
  cases settings with
  | nil => simp [said?, part, hrest, valuesOf]
  | cons x settings => simp [said?, part, Section.toToml, valuesOf]

theorem said?_part_of_ne {name name' : String} (h : name'.toList ≠ name.toList) (key : String) :
    said? ((part name settings ++ rest).map Section.toToml) name' key =
      said? (rest.map Section.toToml) name' key := by
  have hne : (name'.toList == name.toList) = false := by simpa using h
  cases settings with
  | nil => rfl
  | cons x settings => simp [said?, part, Section.toToml, List.lookup_cons, hne]

theorem lookup_entry {α : Type} {name : String} {write : α → Scalar} {written : Option α}
    (h : name.toList ∉ settings.map Prod.fst) :
    (valuesOf (entry name write written ++ settings)).lookup name.toList =
      written.map fun x => .scalar (write x) := by
  have hsettings : (valuesOf settings).lookup name.toList = none :=
    lookup_eq_none (by simpa [valuesOf] using h)
  cases written with
  | none => simpa [entry, valuesOf] using hsettings
  | some x => simp [entry, valuesOf]

theorem lookup_entry_of_ne {α : Type} {name name' : String} {write : α → Scalar}
    {written : Option α} (h : name'.toList ≠ name.toList) :
    (valuesOf (entry name write written ++ settings)).lookup name'.toList =
      (valuesOf settings).lookup name'.toList := by
  have hne : (name'.toList == name.toList) = false := by simpa using h
  cases written <;> simp [entry, valuesOf, List.lookup_cons, hne]

theorem exists_table_of_lookup {ss : List Section} {name : Text} {v : Toml}
    (h : (ss.map Section.toToml).lookup name = some v) : ∃ settings, v = .table settings := by
  obtain ⟨before, rest, hfields, -⟩ := List.lookup_eq_some_iff.1 h
  have hmem : (name, v) ∈ ss.map Section.toToml := by simp [hfields]
  obtain ⟨s, -, hs⟩ := List.mem_map.1 hmem
  exact ⟨_, (Prod.mk.inj hs).2.symm⟩

/-- Unknown settings and unknown sections are passed over. -/
theorem Written.writes_sections (w : Written) (h : IsUnknown further others) :
    Writes ((w.sections further ++ others).map Section.toToml) w := by
  have hlogging (key : String) :
      said? ((w.sections further ++ others).map Section.toToml) "logging" key =
        (valuesOf (w.logging further)).lookup key.toList := by
    rw [sections, List.append_assoc, List.append_assoc, said?_part_of_ne (by decide),
      said?_part_of_ne (by decide), said?_part (h.section_notMem (by decide))]
  have hservice (key : String) :
      said? ((w.sections further ++ others).map Section.toToml) "backend" key =
        (valuesOf (w.service further)).lookup key.toList := by
    rw [sections, List.append_assoc, List.append_assoc, said?_part_of_ne (by decide),
      said?_part (notMem_part (by decide) (h.section_notMem (by decide)))]
  have hparsing (key : String) :
      said? ((w.sections further ++ others).map Section.toToml) "parsing" key =
        (valuesOf (w.parsing further)).lookup key.toList := by
    rw [sections, List.append_assoc, List.append_assoc,
      said?_part (notMem_part (by decide)
        (notMem_part (by decide) (h.section_notMem (by decide))))]
  refine ⟨fun name _ v hv => exists_table_of_lookup hv, ?_, ?_, ?_, ?_, ?_, ?_⟩
  · rw [hparsing, parsing, lookup_entry (notMem_entry (by decide) (h.name_notMem (by decide)))]
  · rw [hparsing, parsing, lookup_entry_of_ne (by decide),
      lookup_entry (h.name_notMem (by decide))]
  · rw [hservice, service, lookup_entry (notMem_entry (by decide)
      (notMem_entry (by decide) (h.name_notMem (by decide))))]
  · rw [hservice, service, lookup_entry_of_ne (by decide),
      lookup_entry (notMem_entry (by decide) (h.name_notMem (by decide)))]
  · rw [hservice, service, lookup_entry_of_ne (by decide), lookup_entry_of_ne (by decide),
      lookup_entry (h.name_notMem (by decide))]
  · rw [hlogging, logging, lookup_entry (h.name_notMem (by decide))]

/-! ### The text of a partial document -/

/-- The setting can be written under the name of its own. -/
def CanWrite (x : Text × Scalar) : Prop := IsName x.1 ∧ x.2.IsWritable

theorem isName_of_mem_knownNames {name : Text} (h : name ∈ knownNames) : IsName name := by
  have hall : ∀ name ∈ knownNames, name ≠ [] ∧ ∀ c ∈ name, isBare c = true := by
    simp [knownNames, isBare]
  exact ⟨(hall name h).1, (hall name h).2⟩

theorem canWrite_entry {α : Type} {name : String} {write : α → Scalar} {written : Option α}
    (hname : name.toList ∈ knownNames) (hwrite : ∀ x ∈ written, (write x).IsWritable)
    (h : ∀ x ∈ settings, CanWrite x) : ∀ x ∈ entry name write written ++ settings, CanWrite x := by
  cases written with
  | none => exact h
  | some v =>
    exact List.forall_mem_cons.2 ⟨⟨isName_of_mem_knownNames hname, hwrite v rfl⟩, h⟩

theorem nodup_entry {α : Type} {name : String} {write : α → Scalar} {written : Option α}
    (hname : name.toList ∉ settings.map Prod.fst) (h : (settings.map Prod.fst).Nodup) :
    ((entry name write written ++ settings).map Prod.fst).Nodup :=
  (List.nodup_cons.2 ⟨hname, h⟩).sublist (names_entry_append name write written settings)

theorem isWritable_part {name : String} (hname : name.toList ∈ knownNames)
    (hsettings : ∀ x ∈ settings, CanWrite x) (hnodup : (settings.map Prod.fst).Nodup)
    (h : ∀ s ∈ rest, s.IsWritable) : ∀ s ∈ part name settings ++ rest, s.IsWritable := by
  cases settings with
  | nil => exact h
  | cons x more =>
    have hsection : Section.IsWritable ⟨name.toList, x :: more⟩ :=
      ⟨isName_of_mem_knownNames hname, fun y hy => (hsettings y hy).1,
        fun y hy => (hsettings y hy).2, hnodup⟩
    exact List.forall_mem_cons.2 ⟨hsection, h⟩

theorem nodup_part {name : String} (hname : name.toList ∉ rest.map Section.name)
    (h : (rest.map Section.name).Nodup) : ((part name settings ++ rest).map Section.name).Nodup :=
  (List.nodup_cons.2 ⟨hname, h⟩).sublist (names_part_append name settings rest)

/-- The sections that write the settings can be written. -/
theorem Written.isWritable_sections (hfits : w.FitsInteger) (h : IsUnknown further others) :
    ∀ s ∈ w.sections further ++ others, s.IsWritable := by
  have hfurther : ∀ x ∈ further, CanWrite x := fun x hx => ⟨(h.names x hx).1, h.values x hx⟩
  rw [sections, List.append_assoc, List.append_assoc]
  refine isWritable_part (by decide) ?_ ?_ (isWritable_part (by decide) ?_ ?_
    (isWritable_part (by decide) ?_ ?_ fun s hs => (h.sections s hs).1))
  · exact canWrite_entry (by decide) hfits.1
      (canWrite_entry (by decide) (fun _ _ => trivial) hfurther)
  · exact nodup_entry (notMem_entry (by decide) (h.name_notMem (by decide)))
      (nodup_entry (h.name_notMem (by decide)) h.nodup)
  · exact canWrite_entry (by decide) (fun _ _ => trivial)
      (canWrite_entry (by decide) (fun _ _ => trivial)
        (canWrite_entry (by decide) hfits.2 hfurther))
  · exact nodup_entry (notMem_entry (by decide) (notMem_entry (by decide)
        (h.name_notMem (by decide))))
      (nodup_entry (notMem_entry (by decide) (h.name_notMem (by decide)))
        (nodup_entry (h.name_notMem (by decide)) h.nodup))
  · exact canWrite_entry (by decide) (fun _ _ => trivial) hfurther
  · exact nodup_entry (h.name_notMem (by decide)) h.nodup

theorem Written.nodup_sections (w : Written) (h : IsUnknown further others) :
    ((w.sections further ++ others).map Section.name).Nodup := by
  rw [sections, List.append_assoc, List.append_assoc]
  exact nodup_part (notMem_part (by decide) (notMem_part (by decide)
    (h.section_notMem (by decide)))) (nodup_part (notMem_part (by decide)
      (h.section_notMem (by decide))) (nodup_part (h.section_notMem (by decide)) h.nodup_sections))

/-- A text that writes any choice of settings, beside unknown ones, reads as a document that writes
them. -/
theorem Written.exists_writes_render (hfits : w.FitsInteger) (h : IsUnknown further others) :
    ∃ fields, Toml.read? (Toml.render (w.sections further ++ others)) = some fields ∧
      Writes fields w :=
  ⟨_, read?_render (w.isWritable_sections hfits h) (w.nodup_sections h), w.writes_sections h⟩

end Config

end Glossator
