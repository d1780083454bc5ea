import Glossator.Detection.Extension
import Glossator.Proofs.Path

/-!
# What extension detection finds

The language of a file is told by what stands behind the last dot of its name, in small letters.
Nothing else of the path counts: neither its directories nor the case of its letters.

* `Detection.ofExtension?_eq_some_iff`: the language of an extension.
* `Detection.byFileName?_spec`: the language of a path, and what leaves it as it is.
-/

set_option autoImplicit false

namespace Glossator.Detection

variable {l : Language}

/-- Each extension is listed once. -/
theorem nodup_extensions : (extensions.map Prod.fst).Nodup := by decide

/-- The listed extensions are in small letters, and none of their letters is a k. -/
theorem isPlainSmall_extensions : ∀ x ∈ extensions, ∀ c ∈ x.1.toList, IsPlainSmall c := by
  simp [extensions, IsPlainSmall]

/-- The language of an extension is the one listed for it in small letters, whatever decides where
words end. -/
theorem ofExtension?_eq_some_iff (endsWord : Text → Text → Bool) (e : Text) :
    ofExtension? e = some l ↔ (String.ofList (Text.lower endsWord e), l) ∈ extensions := by
  have hlower {x : String × Language} (hx : x ∈ extensions) :
      String.ofList (Text.lower endsWord e) = x.1 ↔ e.map Char.toLower = x.1.toList := by
    rw [← String.toList_inj, String.toList_ofList]
    exact Text.lower_eq_iff endsWord e (isPlainSmall_extensions x hx)
  unfold ofExtension?
  rw [Option.map_eq_some_iff]
  constructor
  · rintro ⟨x, hx, rfl⟩
    have hmem := List.mem_of_find?_eq_some hx
    have hsame := List.find?_some hx
    rw [beq_iff_eq] at hsame
    rwa [(hlower hmem).2 hsame.symm]
  · intro hmem
    have hsame := (hlower hmem).1 rfl
    obtain ⟨x, hx⟩ := Option.isSome_iff_exists.1
      (List.find?_isSome (p := fun x => x.1.toList == e.map Char.toLower) |>.2
        ⟨_, hmem, beq_iff_eq.2 hsame.symm⟩)
    have hfound := List.find?_some hx
    rw [beq_iff_eq, hsame, String.toList_inj] at hfound
    have heq := List.inj_on_of_nodup_map nodup_extensions (List.mem_of_find?_eq_some hx) hmem hfound
    exact ⟨x, hx, by rw [heq]⟩

/-- The language of a path is the one listed for what stands, in small letters, behind the last dot
of its last component, with something before the dot. A directory in front of a name leaves it as it
is, and so does the case of the letters A to Z. -/
theorem byFileName?_spec :
    (∀ (endsWord : Text → Text → Bool) (path : Text) (l : Language), byFileName? path = some l ↔
      ∃ c s e, Path.IsLastComponent path c ∧ c ≠ ['.', '.'] ∧ c = s ++ '.' :: e ∧ s ≠ [] ∧
        '.' ∉ e ∧ (String.ofList (Text.lower endsWord e), l) ∈ extensions) ∧
    (∀ directory name : Text, name ≠ [] → name ≠ ['.'] → '/' ∉ name →
      byFileName? (directory ++ '/' :: name) = byFileName? name) ∧
    ∀ path path' : Text, path.map Char.toLower = path'.map Char.toLower →
      byFileName? path = byFileName? path' := by
  refine ⟨fun endsWord path l => ?_, fun directory name hnil hhere hslash => ?_,
    fun path path' h => ?_⟩
  · rw [byFileName?, Option.bind_eq_some_iff]
    simp only [Path.extension?_eq_some_iff, ofExtension?_eq_some_iff endsWord]
    constructor
    · rintro ⟨e, ⟨c, s, hlast, hup, hname, hs, hdot⟩, he⟩
      exact ⟨c, s, e, hlast, hup, hname, hs, hdot, he⟩
    · rintro ⟨c, s, e, hlast, hup, hname, hs, hdot, he⟩
      exact ⟨e, ⟨c, s, hlast, hup, hname, hs, hdot⟩, he⟩
  · rw [byFileName?, byFileName?, Path.extension?_append_slash directory hslash]
    exact not_or.2 ⟨hnil, hhere⟩
  · have hlower (path : Text) : byFileName? (path.map Char.toLower) = byFileName? path := by
      rw [byFileName?, byFileName?, Path.extension?_map_toLower, Option.bind_map]
      congr 1
      funext e
      simp [ofExtension?, Function.comp_def]
    rw [← hlower path, h, hlower path']

/-- A path with directories and capital letters. -/
theorem byFileName?_spec_capitals :
    byFileName? "src/../deep.d/HELLO.CPP".toList = byFileName? "hello.cpp".toList ∧
      byFileName? "hello.cpp".toList = some .cpp := by
  obtain ⟨hiff, hdirectory, hcase⟩ := byFileName?_spec
  refine ⟨?_, ?_⟩
  · exact (hdirectory "src/../deep.d".toList "HELLO.CPP".toList (by decide) (by decide)
      (by decide)).trans (hcase _ _ (by decide +kernel))
  · refine (hiff (fun _ _ => false) _ _).2 ⟨"hello.cpp".toList, "hello".toList, "cpp".toList,
      ⟨by decide, not_or.2 (by decide), [], [], .inl rfl, by simp, rfl⟩, by decide, rfl, by decide,
      by decide, by decide +kernel⟩

end Glossator.Detection
