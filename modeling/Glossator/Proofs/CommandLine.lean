import Glossator.Proofs.Report

/-!
# Commands on several paths

A scan of several paths never fails and reports what the scans of the paths one by one report. So
in text its output is the outputs put together, and in JSON its array the arrays put together.

* `CommandLine.run_extract_composes`: the command as a whole, together with that a command that
  fails has written nothing.
-/

set_option autoImplicit false

namespace Glossator

namespace Location

/-- A directory can be walked. -/
theorem exists_walk_eq_ok {l : Location} {path : Text} (h : l.hasDirectory path = true) :
    ∃ files, l.walk path = .ok files := by
  cases hfind : l.find path with
  | error e =>
    rw [hasDirectory, hfind] at h
    exact absurd h Bool.false_ne_true
  | ok found =>
    rw [walk, hfind]
    split
    · exact ⟨[], rfl⟩
    · exact ⟨_, rfl⟩

end Location

/-- Every path has reports: of one that leads nowhere, that it failed. -/
theorem Engine.exists_extractAny_eq_ok (e : Engine) (here : Location) (path : Text) :
    ∃ reports, e.extractAny here path = .ok reports := by
  unfold extractAny
  split
  · next hdirectory =>
    obtain ⟨files, hwalk⟩ := here.exists_walk_eq_ok hdirectory
    rw [extractDirectory, hwalk]
    exact ⟨_, rfl⟩
  · exact ⟨_, rfl⟩

namespace CommandLine

variable {e : Engine} {here : Location}

/-- The reports of a path. -/
def found (e : Engine) (here : Location) (path : Text) : List Report :=
  (e.extractAny here path).toOption.getD []

theorem extractAny_eq_ok (path : Text) : e.extractAny here path = .ok (found e here path) := by
  obtain ⟨reports, hok⟩ := e.exists_extractAny_eq_ok here path
  rw [found, hok]
  rfl

/-- A scan of several paths reports what is found at one after the other. -/
theorem scan_eq (e : Engine) (here : Location) (paths : List Text) :
    scan e here paths = .ok (paths.flatMap (found e here)) := by
  induction paths with
  | nil => rfl
  | cons path paths ih =>
    rw [scan, extractAny_eq_ok, ih]
    rfl

/-- What a scan writes. -/
theorem outcome_extract (paths : List Text) (format : Format) :
    (run e here (.extract paths format)).outcome =
      (.ok (), showReports format (paths.flatMap (found e here))) := by
  have hwrites : (run e here (.extract paths format)).Writes
      (showReports format (paths.flatMap (found e here))) := by
    intro written
    rw [run, scan_eq]
    exact Run.writes_writeReports format _ written
  exact hwrites.outcome_eq

/-- What is read from the output of a scan in JSON. -/
theorem jsonRead?_extract (paths : List Text) :
    Json.read? (run e here (.extract paths .json)).outcome.2 =
      some (.array (paths.flatMap fun path => (found e here path).map fun r => r.toJson.reread)) := by
  rw [outcome_extract, jsonRead?_showReports, List.map_flatMap]

/-- Reading items one by one reads several lists of items put together list by list. -/
theorem mapM_flatMap {α β γ : Type} (read : β → Option γ) (items : α → List β) (as : List α) :
    (as.flatMap items).mapM read =
      (as.mapM fun a => (items a).mapM read).map List.flatten := by
  induction as with
  | nil => rfl
  | cons a as ih =>
    rw [List.flatMap_cons, List.mapM_append, ih, List.mapM_cons]
    cases (items a).mapM read with
    | none => rfl
    | some found =>
      cases as.mapM fun a => (items a).mapM read with
      | none => rfl
      | some rest => rfl

/-- A scan of several paths ends well. Its output in text is the outputs of the single paths in
order; the array in its output in JSON is made of the arrays of the single paths, as plain values
and as reports. A command that fails, of whatever kind, has written nothing. -/
theorem run_extract_composes (e : Engine) (here : Location) :
    (∀ paths, (∀ format, (run e here (.extract paths format)).outcome.1 = .ok ()) ∧
      (run e here (.extract paths .text)).outcome.2 =
        paths.flatMap (fun path => (run e here (.extract [path] .text)).outcome.2) ∧
      (∃ arrays : Text → List Json,
        (∀ path, Json.read? (run e here (.extract [path] .json)).outcome.2 =
          some (.array (arrays path))) ∧
        Json.read? (run e here (.extract paths .json)).outcome.2 =
          some (.array (paths.flatMap arrays))) ∧
      Report.read? (run e here (.extract paths .json)).outcome.2 =
        (paths.mapM fun path =>
          Report.read? (run e here (.extract [path] .json)).outcome.2).map List.flatten) ∧
    ∀ command causes, (run e here command).outcome.1 = .error causes →
      (run e here command).outcome.2 = [] := by
  refine ⟨fun paths => ⟨fun format => ?_, ?_, ⟨fun path => (found e here path).map fun r =>
    r.toJson.reread, fun path => ?_, ?_⟩, ?_⟩, fun command causes => ?_⟩
  · rw [outcome_extract]
  · simp only [outcome_extract, showReports, List.flatMap_assoc, List.flatMap_singleton]
  · rw [jsonRead?_extract, List.flatMap_singleton]
  · exact jsonRead?_extract paths
  · simp only [Report.read?, jsonRead?_extract, List.flatMap_singleton]
    exact mapM_flatMap _ _ _
  · exact (endsClean_run e here command).outcome_eq

end CommandLine

end Glossator
