import Glossator.Config.Discovery
import Glossator.Proofs.Config.Toml
import Glossator.Proofs.FileTree
import Glossator.Proofs.Text.Utf8

/-!
# Saving and loading a configuration

A configuration that is saved is the one that is loaded, unless it cannot be written or is not
usable, and both are reported.

* `Config.load_save`: what becomes of a configuration that is saved and loaded.
-/

set_option autoImplicit false

namespace Glossator.Config

variable {c : Config} {here : Location} {path : Text}

theorem isIntegerRange_natCast (n : Nat) : Toml.IsIntegerRange n ↔ n ≤ 2 ^ 63 - 1 := by
  unfold Toml.IsIntegerRange
  omega

theorem fitsInteger_iff : c.FitsInteger ↔
    ¬(2 ^ 63 - 1 < c.parsing.maxFileSize ∨ 2 ^ 63 - 1 < c.service.timeoutSeconds) := by
  rw [FitsInteger, isIntegerRange_natCast, isIntegerRange_natCast, not_or, Nat.not_lt, Nat.not_lt]

theorem render_of_fitsInteger (h : c.FitsInteger) : c.render = .ok (Toml.render c.sections) :=
  if_pos h

theorem save_of_not_fitsInteger (h : ¬c.FitsInteger) :
    c.save here path = (.error (.config .unwritable), here) := by
  have hrender : c.render = .error (.config .unwritable) := if_neg h
  rw [save, hrender]

/-- How a configuration is saved whose numbers can be written. -/
theorem save_cases (h : c.FitsInteger) (here : Location) (path : Text) :
    (∃ cause, here.write path (Utf8.encode (Toml.render c.sections)) = .error cause ∧
      c.save here path = (.error (.io cause), here)) ∨
    ∃ here', here.write path (Utf8.encode (Toml.render c.sections)) = .ok here' ∧
      c.save here path = (.ok (), here') := by
  rw [save, render_of_fitsInteger h]
  dsimp only
  cases here.write path (Utf8.encode (Toml.render c.sections)) with
  | error cause => exact .inl ⟨cause, rfl, rfl⟩
  | ok here' => exact .inr ⟨here', rfl, rfl⟩

/-- A configuration that was written is loaded, if it is usable. -/
theorem load_of_write {root : FileTree} {here' : Location} (hhere : here.IsIn root)
    (h : c.FitsInteger)
    (hwrite : here.write path (Utf8.encode (Toml.render c.sections)) = .ok here') :
    load here' path = c.validated := by
  have htext : here'.readText path = .ok (Toml.render c.sections) := by
    simp [Location.readText, Location.read_write hhere hwrite, bind, Except.bind]
  rw [load, htext]
  exact parse_render h

/-- Saving fails for the configuration exactly if one of its numbers does not fit in 64 bits with a
sign, and whenever it fails nothing has changed. It succeeds if both fit and a file can be written
at the path. Loading what was saved gives the configuration back, or names the first of its numbers
that is zero. -/
theorem load_save (c : Config) {root : FileTree} {here : Location} (hhere : here.IsIn root)
    (path : Text) :
    ((∃ cause, (c.save here path).1 = .error (.config cause)) ↔
      2 ^ 63 - 1 < c.parsing.maxFileSize ∨ 2 ^ 63 - 1 < c.service.timeoutSeconds) ∧
    (∀ e, (c.save here path).1 = .error e → (c.save here path).2 = here) ∧
    ((c.save here path).1 = .ok () ↔
      ¬(2 ^ 63 - 1 < c.parsing.maxFileSize ∨ 2 ^ 63 - 1 < c.service.timeoutSeconds) ∧
        (here.write path []).isOk = true) ∧
    ((c.save here path).1 = .ok () → load (c.save here path).2 path =
      if c.parsing.maxFileSize = 0 then .error (.config (.notPositive "parsing.max_file_size"))
      else if c.service.timeoutSeconds = 0 then
        .error (.config (.notPositive "backend.timeout_secs"))
      else .ok c) := by
  by_cases hfits : c.FitsInteger
  · have hsmall := fitsInteger_iff.1 hfits
    have hwritable := Location.isOk_write here path [] (Utf8.encode (Toml.render c.sections))
    obtain ⟨cause, hwrite, hsave⟩ | ⟨here', hwrite, hsave⟩ := save_cases hfits here path
    · -- the file system refuses the file, whatever its content
      rw [hwrite] at hwritable
      rw [hsave, hwritable]
      refine ⟨⟨?_, fun hlarge => absurd hlarge hsmall⟩, fun _ _ => rfl, ⟨?_, ?_⟩, ?_⟩
      · rintro ⟨cause, hcause⟩
        cases hcause
      · intro hok
        cases hok
      · rintro ⟨-, hok⟩
        cases hok
      · intro hok
        cases hok
    · rw [hwrite] at hwritable
      rw [hsave, hwritable]
      refine ⟨⟨?_, fun hlarge => absurd hlarge hsmall⟩, ?_, ⟨fun _ => ⟨hsmall, rfl⟩, fun _ => rfl⟩,
        fun _ => ?_⟩
      · rintro ⟨cause, hcause⟩
        cases hcause
      · intro e he
        cases he
      · rw [load_of_write hhere hfits hwrite, validated, fault?]
        split <;> split <;> simp_all
  · -- nothing is rendered, so nothing is written
    have hlarge := not_not.1 (mt fitsInteger_iff.2 hfits)
    rw [save_of_not_fitsInteger hfits]
    refine ⟨⟨fun _ => hlarge, fun _ => ⟨_, rfl⟩⟩, fun _ _ => rfl, ⟨?_, ?_⟩, ?_⟩
    · intro hok
      cases hok
    · rintro ⟨hsmall, -⟩
      exact absurd hlarge hsmall
    · intro hok
      cases hok

theorem load_save_default :
    (save {} ⟨.directory [], []⟩ "a.toml".toList).1 = .ok () ∧
      load (save {} ⟨.directory [], []⟩ "a.toml".toList).2 "a.toml".toList = .ok {} := by
  have hhere : Location.IsIn (.directory []) ⟨.directory [], []⟩ := .outermost
  obtain ⟨-, -, hsaves, hloads⟩ := load_save {} hhere "a.toml".toList
  have hsaved := hsaves.2 ⟨by decide, by decide +kernel⟩
  exact ⟨hsaved, hloads hsaved⟩

end Glossator.Config
