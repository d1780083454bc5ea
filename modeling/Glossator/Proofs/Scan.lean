import Glossator.Engine
import Glossator.Proofs.Walk

/-!
# Scans of directories

The reports of a directory are those of the recognised files below it, one for each, in the order of
their ways. Each is the report that its path gives by itself; so it depends on the content of that
one file, and on no other file and no order of entries.

* `Engine.extractDirectory_eq`: what a scan reports, and what the reports depend on.
-/

set_option autoImplicit false

namespace Glossator

open Glossator.Path (joinAll)

namespace FileTree

instance : Std.Asymm Before where
  asymm _ _ h := List.lt_asymm h

/-- Ways in order are determined by which they are. -/
theorem eq_of_pairwise_before {ways ways' : List (List Text)} (h : ways.Pairwise Before)
    (h' : ways'.Pairwise Before) (hmem : ∀ way, way ∈ ways ↔ way ∈ ways') : ways = ways' :=
  h.eq_of_mem_iff h' hmem

end FileTree

namespace Engine

open FileTree (Before)

variable {e : Engine} {root : FileTree} {here found : Location} {dir : Text}

/-- The report of a file is that of its content. -/
theorem reportAt_of_read {path : Text} {content : Bytes} (h : here.read path = .ok content) :
    e.reportAt here path = e.report (String.ofList path) content := by
  rw [reportAt, extractFile, h, report]

/-- The ways of the recognised files below a directory are in order. -/
structure AreRecognised (dir : Text) (tree : FileTree) (ways : List (List Text)) : Prop where
  ordered : ways.Pairwise Before
  mem_iff : ∀ way, way ∈ ways ↔
    (tree.contentAt? way).isSome ∧ (Detection.byFileName? (joinAll dir way)).isSome

theorem AreRecognised.eq {tree tree' : FileTree} {ways ways' : List (List Text)}
    (h : AreRecognised dir tree ways) (h' : AreRecognised dir tree' ways')
    (hsame : ∀ way, (tree'.contentAt? way).isSome = (tree.contentAt? way).isSome) : ways' = ways :=
  FileTree.eq_of_pairwise_before h'.ordered h.ordered fun way => by
    rw [h'.mem_iff, h.mem_iff, hsame]

/-- A scan reports the recognised files of a directory; a directory that is called by a hyphen is
not scanned. -/
theorem exists_areRecognised (e : Engine) (hroot : root.Plain) (hhere : here.IsIn root)
    (hfind : here.find dir = .ok found) : ∃ ways, AreRecognised dir found.node ways ∧
      e.extractDirectory here dir =
        .ok (if dir = ['-'] then [] else ways.map fun way => e.reportAt here (joinAll dir way)) := by
  have hfound := hhere.find hfind
  have hplain := (hfound.plain hroot).1
  obtain ⟨ways, hordered, hmem, hwalk⟩ := hplain.exists_ways
  refine ⟨ways.filter fun way => (Detection.byFileName? (joinAll dir way)).isSome,
    ⟨hordered.filter _, fun way => by rw [List.mem_filter, hmem]⟩, ?_⟩
  by_cases hyphen : dir = ['-']
  · rw [extractDirectory, Location.walk, if_pos hyphen, if_pos hyphen]
    rfl
  · rw [extractDirectory, Location.walk, if_neg hyphen, if_neg hyphen, hfind]
    dsimp only
    rw [hwalk dir found.scopes (hfound.allSilent hroot), List.filter_map, List.map_map]
    refine congrArg Except.ok (List.map_congr_left fun way hway => ?_)
    have hcontent := (hmem way).1 (List.mem_of_mem_filter hway)
    obtain ⟨content, hcontent⟩ := Option.isSome_iff_exists.1 hcontent
    rw [reportAt_of_read (Location.read_joinAll hfind hplain hcontent), Function.comp_apply,
      hcontent]
    rfl

/-- A scan succeeds. There is one report for each recognised file below the directory, in the order
of the ways to the files, and each is what the path of the file gives by itself. Another tree with
files at the same ways, in whatever order it lists them, has its reports at the same places, and the
same report for each file of the same content. -/
theorem extractDirectory_eq (e : Engine) (hroot : root.Plain) (hhere : here.IsIn root)
    (hfind : here.find dir = .ok found) : ∃ ways : List (List Text), ways.Pairwise Before ∧
    (∀ way, way ∈ ways ↔
      (found.node.contentAt? way).isSome ∧ (Detection.byFileName? (joinAll dir way)).isSome) ∧
    e.extractDirectory here dir =
      .ok (if dir = ['-'] then [] else ways.map fun way => e.reportAt here (joinAll dir way)) ∧
    ∀ {root' : FileTree} {here' found' : Location}, root'.Plain → here'.IsIn root' →
      here'.find dir = .ok found' →
      (∀ way, (found'.node.contentAt? way).isSome = (found.node.contentAt? way).isSome) →
      e.extractDirectory here' dir =
        .ok (if dir = ['-'] then [] else ways.map fun way => e.reportAt here' (joinAll dir way)) ∧
      ∀ way ∈ ways, found'.node.contentAt? way = found.node.contentAt? way →
        e.reportAt here' (joinAll dir way) = e.reportAt here (joinAll dir way) := by
  obtain ⟨ways, hways, hreports⟩ := exists_areRecognised e hroot hhere hfind
  refine ⟨ways, hways.ordered, hways.mem_iff, hreports, ?_⟩
  intro root' here' found' hroot' hhere' hfind' hsame
  obtain ⟨ways', hways', hreports'⟩ := exists_areRecognised e hroot' hhere' hfind'
  obtain rfl := hways.eq hways' hsame
  refine ⟨hreports', fun way hway hcontents => ?_⟩
  have hcontent := ((hways.mem_iff way).1 hway).1
  obtain ⟨content, hcontent⟩ := Option.isSome_iff_exists.1 hcontent
  have hplain := ((hhere.find hfind).plain hroot).1
  have hplain' := ((hhere'.find hfind').plain hroot').1
  rw [reportAt_of_read (Location.read_joinAll hfind hplain hcontent),
    reportAt_of_read (Location.read_joinAll hfind' hplain' (hcontents.trans hcontent))]

/-- A directory with a file that is not recognised as source and one that is. -/
def sampleDirectory : FileTree :=
  .directory [("b.py".toList, .file []), (".a".toList, .file [120])]

/-- The same files, listed the other way round, one with another content. -/
def sampleDirectory' : FileTree :=
  .directory [(".a".toList, .file []), ("b.py".toList, .file [])]

theorem plain_sampleDirectory : sampleDirectory.Plain ∧ sampleDirectory'.Plain := by
  have hpy : Path.IsName "b.py".toList := by constructor <;> decide
  have hhidden : Path.IsName ".a".toList := by constructor <;> decide
  constructor
  · refine .directory (by decide) ?_ (by constructor <;> rfl) ?_
    · simpa using ⟨hpy, hhidden⟩
    · simp [FileTree.Plain.file]
  · refine .directory (by decide) ?_ (by constructor <;> rfl) ?_
    · simpa using ⟨hhidden, hpy⟩
    · simp [FileTree.Plain.file]

theorem sameFiles_sampleDirectory (way : List Text) : (sampleDirectory'.contentAt? way).isSome =
    (sampleDirectory.contentAt? way).isSome := by
  cases way with
  | nil => rfl
  | cons name way =>
    simp only [sampleDirectory, sampleDirectory', FileTree.contentAt?, FileTree.entry?,
      FileTree.entries, FileTree.lookup_cons]
    by_cases hpy : name = "b.py".toList
    · subst hpy
      cases way <;> rfl
    · by_cases hhidden : name = ".a".toList
      · subst hhidden
        cases way <;> rfl
      · rw [if_neg hpy, if_neg hhidden, if_neg hpy, if_neg hhidden]

theorem extractDirectory_eq_sampleDirectory : ∃ ways : List (List Text),
    (∀ way, way ∈ ways ↔ (sampleDirectory.contentAt? way).isSome ∧
      (Detection.byFileName? (joinAll ['.'] way)).isSome) ∧
    extractDirectory ⟨{}, none⟩ ⟨sampleDirectory, []⟩ ['.'] =
      .ok (ways.map fun way => reportAt ⟨{}, none⟩ ⟨sampleDirectory, []⟩ (joinAll ['.'] way)) ∧
    extractDirectory ⟨{}, none⟩ ⟨sampleDirectory', []⟩ ['.'] =
      .ok (ways.map fun way => reportAt ⟨{}, none⟩ ⟨sampleDirectory', []⟩ (joinAll ['.'] way)) := by
  obtain ⟨hplain, hplain'⟩ := plain_sampleDirectory
  have hfind : Location.find ⟨sampleDirectory, []⟩ ['.'] = .ok ⟨sampleDirectory, []⟩ := rfl
  obtain ⟨ways, -, hmem, hreports, hother⟩ :=
    extractDirectory_eq ⟨{}, none⟩ hplain .outermost hfind
  exact ⟨ways, hmem, hreports, (hother hplain' .outermost rfl sameFiles_sampleDirectory).1⟩

end Engine

end Glossator
