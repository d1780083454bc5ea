import Glossator.Config.Toml
import Glossator.Proofs.Toml.Document

/-!
# Configurations in TOML and back

The text of a configuration is read as the configuration, whatever its strings are.

* `Config.parse_render`: a configuration comes back from its text, if it is usable.
-/

set_option autoImplicit false

namespace Glossator

open Toml

namespace Toml

/-! ### Settings by name -/

theorem setting_cons {α : Type} (name name' : String) (v : Toml) (rest : List (Text × Toml))
    (default : α) (read : Toml → Option α) :
    setting (fun name => ((name'.toList, v) :: rest).lookup name.toList) name default read =
      if name = name' then read v
      else setting (fun name => rest.lookup name.toList) name default read := by
  by_cases h : name = name'
  · subst h
    simp [setting]
  · have hne : (name.toList == name'.toList) = false := by
      rw [beq_eq_false_iff_ne]
      exact fun heq => h (String.toList_inj.1 heq)
    simp only [setting, List.lookup_cons, hne, if_neg h]

@[simp] theorem asText?_string (s : String) : asText? (scalar (.string s.toList)) = some s := by
  simp [asText?, asString?]

end Toml

theorem ParsingSettings.ofToml?_table (s : ParsingSettings) :
    ofToml? (.table [("max_file_size".toList, .scalar (.integer s.maxFileSize)),
      ("content_detection_fallback".toList, .scalar (.boolean s.contentFallback))]) = some s := by
  simp only [ofToml?, settings?, setting_cons, String.reduceEq, reduceIte, Option.bind_eq_bind,
    Option.bind_some]
  rfl

theorem ServiceSettings.ofToml?_table (s : ServiceSettings) :
    ofToml? (.table [("enabled".toList, .scalar (.boolean s.enabled)),
      ("base_url".toList, .scalar (.string s.baseUrl.toList)),
      ("timeout_secs".toList, .scalar (.integer s.timeoutSeconds))]) = some s := by
  simp only [ofToml?, settings?, setting_cons, String.reduceEq, reduceIte, Option.bind_eq_bind,
    Option.bind_some, asText?_string]
  rfl

theorem LoggingSettings.ofToml?_table (s : LoggingSettings) :
    ofToml? (.table [("level".toList, .scalar (.string s.level.toList))]) = some s := by
  simp only [ofToml?, settings?, setting_cons, reduceIte, Option.bind_eq_bind, Option.bind_some,
    asText?_string]

namespace Config

/-- The sections of a configuration are read as the configuration. -/
theorem ofToml?_sections (c : Config) :
    ofToml? (.table (c.sections.map Section.toToml)) = some c := by
  simp only [ofToml?, settings?, sections, Section.toToml, List.map_cons, List.map_nil,
    setting_cons, String.reduceEq, reduceIte, Option.bind_eq_bind, Option.bind_some,
    ParsingSettings.ofToml?_table, ServiceSettings.ofToml?_table, LoggingSettings.ofToml?_table]

/-- Both numbers of the configuration can be written. -/
def FitsInteger (c : Config) : Prop :=
  IsIntegerRange c.parsing.maxFileSize ∧ IsIntegerRange c.service.timeoutSeconds

theorem isWritable_sections {c : Config} (h : c.FitsInteger) : ∀ s ∈ c.sections, s.IsWritable := by
  simp only [sections, List.forall_mem_cons, List.not_mem_nil, false_implies, implies_true,
    and_true]
  refine ⟨⟨⟨by simp, by simp [isBare]⟩, ?_, ?_, by simp⟩,
    ⟨⟨by simp, by simp [isBare]⟩, ?_, ?_, by simp⟩, ⟨⟨by simp, by simp [isBare]⟩, ?_, ?_, by simp⟩⟩
  all_goals
    simp only [List.forall_mem_cons, List.not_mem_nil, false_implies, implies_true, and_true]
  · exact ⟨⟨by simp, by simp [isBare]⟩, ⟨by simp, by simp [isBare]⟩⟩
  · exact ⟨h.1, trivial⟩
  · exact ⟨⟨by simp, by simp [isBare]⟩, ⟨by simp, by simp [isBare]⟩, ⟨by simp, by simp [isBare]⟩⟩
  · exact ⟨trivial, trivial, h.2⟩
  · exact ⟨by simp, by simp [isBare]⟩
  · trivial

theorem nodup_sections (c : Config) : (c.sections.map Section.name).Nodup := by
  simp [sections]

/-- A configuration comes back from its text, if it is usable. -/
theorem parse_render {c : Config} (h : c.FitsInteger) :
    parse (Toml.render c.sections) = c.validated := by
  rw [parse, read?_render (isWritable_sections h) (nodup_sections c), Option.bind_some,
    ofToml?_sections]

end Config

end Glossator
