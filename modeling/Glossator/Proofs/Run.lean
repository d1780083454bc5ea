import Glossator.CommandLine.Output

/-!
# Runs

What a run writes is put together from what its parts write. A run that fails writes nothing: all
that can fail comes before the first text is written.

* `CommandLine.writes_writeReports`: what is written of reports in a format.
* `CommandLine.endsClean_run`: no command leaves anything behind when it fails.
-/

set_option autoImplicit false

namespace Glossator.CommandLine

namespace Run

variable {α : Type}

/-- How a run ends and what is written by then, given what was written before it. -/
def after (run : Run α) (written : String) : Except (List String) α × String :=
  StateT.run (ExceptT.run run) written

/-- The run ends well and writes a text. -/
def Writes (run : Run Unit) (t : Text) : Prop :=
  ∀ written, run.after written = (.ok (), written ++ String.ofList t)

/-- If the run fails, it has written nothing. -/
def EndsClean (run : Run α) : Prop :=
  ∀ written causes, (run.after written).1 = .error causes → (run.after written).2 = written

theorem Writes.outcome_eq {run : Run Unit} {t : Text} (h : run.Writes t) :
    run.outcome = (.ok (), t) := by
  have hafter := h ""
  rw [String.empty_append] at hafter
  change ((run.after "").1, (run.after "").2.toList) = _
  rw [hafter, String.toList_ofList]

theorem Writes.endsClean {run : Run Unit} {t : Text} (h : run.Writes t) : run.EndsClean := by
  intro written causes hfails
  rw [h written] at hfails
  cases hfails

theorem EndsClean.outcome_eq {run : Run α} (h : run.EndsClean) {causes : List String}
    (hfails : run.outcome.1 = .error causes) : run.outcome.2 = [] :=
  congrArg String.toList (h "" causes hfails)

theorem writes_nothing : Writes (pure ()) [] := by
  intro written
  change _ = (Except.ok (), written ++ "")
  rw [String.append_empty]
  rfl

theorem writes_write (t : Text) : Writes (write t) t := fun _ => rfl

theorem after_bind {β : Type} (first : Run α) (next : α → Run β) (written : String) :
    (first >>= next).after written = match first.after written with
      | (.ok a, written) => (next a).after written
      | (.error causes, written) => (.error causes, written) := by
  simp only [after, ExceptT.run_bind, StateT.run_bind]
  cases (ExceptT.run first).run written with
  | mk result written =>
    cases result <;> rfl

/-- One run after another writes one text after the other. -/
theorem Writes.bind {first : Run Unit} {next : Unit → Run Unit} {t u : Text} (h : first.Writes t)
    (hnext : (next ()).Writes u) : Writes (first >>= next) (t ++ u) := by
  intro written
  rw [after_bind, h written]
  change (next ()).after _ = _
  rw [hnext, String.append_assoc, String.ofList_append]

theorem writes_forM {α : Type} {write : α → Run Unit} {text : α → Text}
    (h : ∀ a, (write a).Writes (text a)) (as : List α) :
    Writes (as.forM write) (as.flatMap text) := by
  induction as with
  | nil => exact writes_nothing
  | cons a as ih => exact (h a).bind ih

theorem writes_writeReport (r : Report) : (writeReport r).Writes (reportLines r) := by
  cases r with
  | extracted e =>
    exact (writes_write _).bind (writes_forM (fun f => writes_write (functionLine f)) e.functions)
  | failed file error => exact writes_write (failureLine file error)

/-- Reports are written as they are shown in the format. -/
theorem writes_writeReports (format : Format) (reports : List Report) :
    (writeReports format reports).Writes (showReports format reports) := by
  cases format with
  | json => exact (writes_write _).bind (writes_write ['\n'])
  | text => exact writes_forM writes_writeReport reports

/-- What is there or not is known before anything is written. -/
theorem endsClean_orEnd {ε β : Type} {messages : ε → List String} {a : Except ε α}
    {next : α → Run β} (h : ∀ x, (next x).EndsClean) : (orEnd messages a >>= next).EndsClean := by
  cases a with
  | ok x => exact h x
  | error e => exact fun written causes _ => rfl

end Run

open Run

/-- A command that fails has written nothing. -/
theorem endsClean_run (e : Engine) (here : Location) (command : Command) :
    (run e here command).EndsClean := by
  cases command with
  | extract paths format =>
    exact endsClean_orEnd fun reports => (writes_writeReports format reports).endsClean
  | comment file isDryRun =>
    refine endsClean_orEnd fun content => endsClean_orEnd fun request => ?_
    cases isDryRun with
    | true => exact ((writes_write _).bind (writes_write ['\n'])).endsClean
    | false => exact endsClean_orEnd fun comment => (writes_write _).endsClean
  | languages =>
    exact (writes_forM (fun l => writes_write (languageLine l)) Engine.languages).endsClean

end Glossator.CommandLine
