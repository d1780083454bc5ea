import Glossator.Proofs.FileTree
import Glossator.Proofs.Path
import Glossator.Proofs.Text.Utf8
import Glossator.Walk

/-!
# Walking trees without ignore rules

In a tree that holds no ignore rules a walk meets every file once. A file is known by its way, the
names that lead to it; the ways come in the order of the bytes of their names, so that the files of
a directory are met together.

* `FileTree.Plain`: the trees that a walk sees as they are.
* `FileTree.Plain.exists_ways`: what a walk of such a tree meets, and in which order.
* `Location.read_joinAll`: the path of a file that is met leads to the file.
-/

set_option autoImplicit false

namespace Glossator

/-! ### Paths -/

namespace Path

/-- What an entry of a directory can be called. -/
structure IsName (name : Text) : Prop where
  ne_nil : name ≠ []
  slash_notMem : '/' ∉ name
  ne_here : name ≠ ['.']
  ne_up : name ≠ ['.', '.']

/-- The path of what names lead to from a path. -/
def joinAll (path : Text) (way : List Text) : Text := way.foldl join path

/-- A name is joined as one more component, in place of the empty one behind a slash at the end. -/
theorem components_join {path name : Text} (hpath : path ≠ []) (h : '/' ∉ name) :
    ∃ before, components (join path name) = before ++ [name] ∧
      (components path = before ∨ components path = before ++ [[]]) := by
  rcases List.eq_nil_or_concat path with rfl | ⟨front, c, rfl⟩
  · exact absurd rfl hpath
  rw [List.concat_eq_append]
  by_cases hc : c = '/'
  · subst hc
    refine ⟨components front, ?_, .inr (components_append_slash front List.not_mem_nil)⟩
    rw [← components_append_slash front h]
    simp [join]
  · refine ⟨components (front ++ [c]), ?_, .inl rfl⟩
    rw [← components_append_slash (front ++ [c]) h]
    simp [join, hc]

theorem exists_join_eq_cons (c : Char) (path name : Text) :
    ∃ rest, join (c :: path) name = c :: rest := by
  unfold join
  split
  · exact ⟨path ++ name, rfl⟩
  · exact ⟨path ++ '/' :: name, rfl⟩

end Path

open Glossator.Path (IsName joinAll)

/-! ### Ways -/

namespace FileTree

/-- The content of the file that names lead to. -/
def contentAt? : List Text → FileTree → Option Bytes
  | [], file content => some content
  | [], directory _ => none
  | name :: way, tree => (tree.entry? name).bind (contentAt? way)

/-- No file in the directory holds ignore rules for what is below it. -/
structure Unruled (dir : FileTree) : Prop where
  ignore : dir.contentAt? [".ignore".toList] = none
  gitignore : dir.contentAt? [".gitignore".toList] = none
  exclude : dir.contentAt? [".git".toList, "info".toList, "exclude".toList] = none

/-- A tree as it can be on a disk, its directories in any order, without ignore rules. -/
inductive Plain : FileTree → Prop
  | file (content : Bytes) : Plain (file content)
  | directory {entries : List (Text × FileTree)} (distinct : (entries.map Prod.fst).Nodup)
    (named : ∀ entry ∈ entries, IsName entry.1) (unruled : (FileTree.directory entries).Unruled)
    (inner : ∀ entry ∈ entries, Plain entry.2) : Plain (directory entries)

theorem lookup_eq_some_iff {entries : List (Text × FileTree)}
    (h : (entries.map Prod.fst).Nodup) {name : Text} {tree : FileTree} :
    entries.lookup name = some tree ↔ (name, tree) ∈ entries := by
  induction entries with
  | nil => simp
  | cons entry entries ih =>
    obtain ⟨m, t⟩ := entry
    rw [List.map_cons, List.nodup_cons] at h
    rw [lookup_cons, List.mem_cons, ← ih h.2, Prod.mk.injEq]
    split
    · next heq =>
      subst heq
      have hnone : entries.lookup name ≠ some tree := by
        rw [Ne, ih h.2]
        exact fun hmem => h.1 (List.mem_map.2 ⟨(name, tree), hmem, rfl⟩)
      simp [hnone, eq_comm]
    · next hne => simp [hne]

theorem Plain.entry {tree sub : FileTree} {name : Text} (h : tree.Plain)
    (hentry : tree.entry? name = some sub) : IsName name ∧ sub.Plain := by
  cases h with
  | file content => cases hentry
  | directory distinct named unruled inner =>
    have hmem := (lookup_eq_some_iff distinct).1 hentry
    exact ⟨named _ hmem, inner _ hmem⟩

/-- One way comes before another one: at the first name where they differ, by the bytes of the
names. -/
def Before (way way' : List Text) : Prop := way.map Utf8.encode < way'.map Utf8.encode

theorem before_cons_self {name : Text} {way way' : List Text} (h : Before way way') :
    Before (name :: way) (name :: way') :=
  List.cons_lt_cons_iff.2 (.inr ⟨rfl, h⟩)

theorem before_cons_of_lt {name name' : Text} (h : name < name') (way way' : List Text) :
    Before (name :: way) (name' :: way') :=
  List.cons_lt_cons_iff.2 (.inl (Utf8.encode_lt_encode h))

end FileTree

/-! ### Scopes without rules -/

namespace Ignore

/-- No rules hold below the directory. -/
structure Scope.IsSilent (s : Scope) : Prop where
  always : s.always = []
  tracked : s.tracked = []
  excluded : s.excluded = []

theorem contentAt?_of_foldl {path : List String} {node : Option FileTree} {content : Bytes}
    (h : path.foldl (fun node name => node.bind fun t => t.entry? name.toList) node =
      some (.file content)) :
    node.bind (FileTree.contentAt? (path.map String.toList)) = some content := by
  induction path generalizing node with
  | nil =>
    cases h
    rfl
  | cons name path ih =>
    rw [← ih h, Option.bind_assoc]
    rfl

theorem rulesOf_eq_nil {dir : FileTree} {path : List String}
    (h : dir.contentAt? (path.map String.toList) = none) : rulesOf dir path = [] := by
  unfold rulesOf
  split
  · next content hfile =>
    have hcontent := contentAt?_of_foldl hfile
    rw [Option.bind_some, h] at hcontent
    cases hcontent
  · rfl

theorem isSilent_ofDirectory {dir : FileTree} (h : dir.Unruled) :
    (Scope.ofDirectory dir).IsSilent :=
  ⟨rulesOf_eq_nil h.ignore, rulesOf_eq_nil h.gitignore, rulesOf_eq_nil h.exclude⟩

theorem firstVerdict_eq_silent {rules : Scope → Rules} (isDirectory : Bool)
    {scopes : List (Scope × Bytes)} (h : ∀ s ∈ scopes, rules s.1 = []) :
    firstVerdict rules isDirectory scopes = .silent := by
  unfold firstVerdict
  induction scopes with
  | nil => rfl
  | cons s scopes ih =>
    obtain ⟨scope, path⟩ := s
    have hs : Verdict.silent.or ((rules scope).verdict path isDirectory) = .silent := by
      rw [show rules scope = [] from h (scope, path) List.mem_cons_self]
      rfl
    rw [List.foldl_cons]
    dsimp only
    rw [hs]
    exact ih fun s' hs' => h s' (List.mem_cons_of_mem _ hs')

theorem mem_of_mem_insideRepository {scopes : List (Scope × Bytes)} {s : Scope × Bytes}
    (h : s ∈ insideRepository scopes) : s ∈ scopes := by
  unfold insideRepository at h
  split at h
  · rcases List.mem_append.1 h with h | h
    · exact (List.takeWhile_sublist _).subset h
    · exact (List.dropWhile_sublist _).subset (List.mem_of_mem_take h)
  · cases h

/-- Without rules nothing is left out. -/
theorem excludes_eq_false {scopes : List (Scope × Bytes)} (h : ∀ s ∈ scopes, s.1.IsSilent)
    (isDirectory : Bool) : excludes scopes isDirectory = false := by
  have halways := firstVerdict_eq_silent isDirectory fun s hs => (h s hs).always
  have htracked := firstVerdict_eq_silent isDirectory
    fun s hs => (h s (mem_of_mem_insideRepository hs)).tracked
  have hexcluded := firstVerdict_eq_silent isDirectory
    fun s hs => (h s (mem_of_mem_insideRepository hs)).excluded
  simp only [excludes, halways, htracked, hexcluded]
  rfl

end Ignore

/-! ### What a walk meets -/

namespace FileTree

open Ignore (Scope)

/-- The scopes around what a walk has reached have no rules. -/
def AllSilent (scopes : List (Scope × Text)) : Prop := ∀ s ∈ scopes, s.1.IsSilent

theorem AllSilent.inner {scopes : List (Scope × Text)} (h : AllSilent scopes) (name : Text) :
    AllSilent (Ignore.inner scopes name) := by
  intro s hs
  obtain ⟨s', hs', rfl⟩ := List.mem_map.1 hs
  exact h s' hs'

/-- Where no rules hold, every entry is walked. -/
theorem walkEntries_eq {scopes : List (Scope × Text)} (h : AllSilent scopes) (path : Text)
    (entries : List (Text × FileTree)) : walkEntries path scopes entries =
      entries.map fun entry => (entry.1,
        walkFrom (Path.join path entry.1) (Ignore.inner scopes entry.1) entry.2) := by
  induction entries with
  | nil => rw [walkEntries, List.map_nil]
  | cons entry entries ih =>
    obtain ⟨name, tree⟩ := entry
    rw [walkEntries, ih, Ignore.excludes_eq_false, List.map_cons]
    · rfl
    · intro s hs
      obtain ⟨s', hs', rfl⟩ := List.mem_map.1 hs
      exact h.inner name s' hs'

theorem inOrder_iff {α : Type} {a b : Text × α} : inOrder a b = true ↔ a.1 ≤ b.1 := by
  rw [← not_lt]
  exact decide_eq_true_iff

/-- Entries that are called differently are in strict order when they are sorted. -/
theorem pairwise_mergeSort_inOrder {entries : List (Text × FileTree)}
    (h : (entries.map Prod.fst).Nodup) :
    (entries.mergeSort inOrder).Pairwise fun a b => a.1 < b.1 := by
  have hle : (entries.mergeSort inOrder).Pairwise fun a b => inOrder a b = true := by
    refine List.pairwise_mergeSort ?_ ?_ entries
    · intro a b c hab hbc
      rw [inOrder_iff] at hab hbc ⊢
      exact hab.trans hbc
    · intro a b
      rw [Bool.or_eq_true, inOrder_iff, inOrder_iff]
      exact le_total a.1 b.1
  have hne : (entries.mergeSort inOrder).Pairwise fun a b => a.1 ≠ b.1 :=
    List.pairwise_map.1 (((List.mergeSort_perm _ _).map Prod.fst).nodup_iff.2 h)
  exact hle.imp₂ (fun a b hle hne => lt_of_le_of_ne (inOrder_iff.1 hle) hne) hne

/-- A walk of a tree without rules meets each file once, in the order of their ways; where the tree
is, and what is around it, has no part in that. -/
theorem Plain.exists_ways {tree : FileTree} (h : tree.Plain) : ∃ ways : List (List Text),
    ways.Pairwise Before ∧ (∀ way, way ∈ ways ↔ (tree.contentAt? way).isSome) ∧
      ∀ path scopes, AllSilent scopes → tree.walkFrom path scopes =
        ways.map fun way => ⟨joinAll path way, (tree.contentAt? way).getD []⟩ := by
  induction h with
  | file content =>
    refine ⟨[[]], List.pairwise_singleton _ _, ?_, fun path scopes _ => by rw [walkFrom]; rfl⟩
    intro way
    cases way with
    | nil => simp [contentAt?]
    | cons name way => simp [contentAt?, entry?, entries]
  | @directory entries distinct named unruled inner ih =>
    choose! ways hordered hmem hwalk using ih
    have hcontent {entry : Text × FileTree} (hentry : entry ∈ entries) (way : List Text) :
        (FileTree.directory entries).contentAt? (entry.1 :: way) = entry.2.contentAt? way := by
      have hlookup : FileTree.entry? (.directory entries) entry.1 = some entry.2 :=
        (lookup_eq_some_iff distinct).2 hentry
      rw [contentAt?, hlookup, Option.bind_some]
    refine ⟨(entries.mergeSort inOrder).flatMap fun entry => (ways entry).map (entry.1 :: ·),
      ?_, ?_, ?_⟩
    · rw [List.pairwise_flatMap]
      refine ⟨fun entry hentry => ?_, ?_⟩
      · have hinner := hordered entry (List.mem_mergeSort.1 hentry)
        exact List.pairwise_map.2 (hinner.imp before_cons_self)
      · refine (pairwise_mergeSort_inOrder distinct).imp ?_
        intro a b hlt way hway way' hway'
        obtain ⟨w, -, rfl⟩ := List.mem_map.1 hway
        obtain ⟨w', -, rfl⟩ := List.mem_map.1 hway'
        exact before_cons_of_lt hlt w w'
    · intro way
      constructor
      · intro hway
        obtain ⟨entry, hentry, hway⟩ := List.mem_flatMap.1 hway
        obtain ⟨w, hw, rfl⟩ := List.mem_map.1 hway
        rw [hcontent (List.mem_mergeSort.1 hentry), ← hmem entry (List.mem_mergeSort.1 hentry)]
        exact hw
      · intro hway
        cases way with
        | nil => cases hway
        | cons name w =>
          obtain ⟨content, hcontent'⟩ := Option.isSome_iff_exists.1 hway
          obtain ⟨sub, hsub, hw⟩ := Option.bind_eq_some_iff.1 hcontent'
          have hentry : (name, sub) ∈ entries := (lookup_eq_some_iff distinct).1 hsub
          have hmem' : w ∈ ways (name, sub) := by
            rw [hmem _ hentry, hw]
            rfl
          exact List.mem_flatMap.2
            ⟨(name, sub), List.mem_mergeSort.2 hentry, List.mem_map.2 ⟨w, hmem', rfl⟩⟩
    · intro path scopes hsilent
      have hsilent' :
          AllSilent ((Scope.ofDirectory (FileTree.directory entries), []) :: scopes) := by
        intro s hs
        rcases List.mem_cons.1 hs with rfl | hs
        · exact Ignore.isSilent_ofDirectory unruled
        · exact hsilent s hs
      have hsort (files : Text × FileTree → List WalkedFile) :
          (entries.map fun entry => (entry.1, files entry)).mergeSort inOrder =
            (entries.mergeSort inOrder).map fun entry => (entry.1, files entry) := by
        refine (List.map_mergeSort ?_).symm
        exact fun _ _ _ _ => rfl
      rw [walkFrom, walkEntries_eq hsilent', hsort, List.flatMap_map, List.map_flatMap]
      refine List.flatMap_congr fun entry hentry => ?_
      have hentry' := List.mem_mergeSort.1 hentry
      rw [hwalk entry hentry' _ _ (hsilent'.inner entry.1), List.map_map]
      refine List.map_congr_left fun way _ => ?_
      rw [Function.comp_apply, hcontent hentry']
      rfl

end FileTree

/-! ### Places -/

namespace Location

variable {root : FileTree} {l m found : Location} {path name : Text}

theorem IsIn.plain (hl : IsIn root l) (hroot : root.Plain) :
    l.node.Plain ∧ ∀ d ∈ l.around, d.1.Plain ∧ d.1.isDirectory := by
  induction hl with
  | outermost => exact ⟨hroot, fun d hd => nomatch hd⟩
  | @entry l name node hl hentry ih =>
    refine ⟨(ih.1.entry hentry).2, ?_⟩
    intro d hd
    rcases List.mem_cons.1 hd with rfl | hd
    · refine ⟨ih.1, ?_⟩
      cases hnode : l.node with
      | file content =>
        rw [hnode] at hentry
        cases hentry
      | directory entries => rfl
    · exact ih.2 d hd

theorem IsIn.allSilent (hl : IsIn root l) (hroot : root.Plain) : FileTree.AllSilent l.scopes := by
  have haround := (hl.plain hroot).2
  unfold scopes
  generalize l.around = around at haround
  induction around with
  | nil => exact fun s hs => nomatch hs
  | cons d around ih =>
    have hrest := ih fun d' hd' => haround d' (List.mem_cons_of_mem d hd')
    obtain ⟨dir, name⟩ := d
    obtain ⟨hplain, hdirectory⟩ := haround (dir, name) List.mem_cons_self
    intro s hs
    rcases List.mem_cons.1 hs with rfl | hs
    · cases hplain with
      | file content => cases hdirectory
      | directory _ _ unruled _ => exact Ignore.isSilent_ofDirectory unruled
    · exact hrest.inner name s hs

theorem IsIn.find (hl : IsIn root l) (h : l.find path = .ok found) : IsIn root found := by
  cases path with
  | nil => cases h
  | cons c path => exact (hl.startOf c).foldlM h

/-- A name leads to an entry of a directory, and nowhere else. -/
theorem step_eq_ok_iff_of_isName (hname : IsName name) : l.step name = .ok m ↔
    ∃ node, l.node.entry? name = some node ∧ m = ⟨node, (l.node, name) :: l.around⟩ := by
  rw [step_eq_ok_iff]
  constructor
  · rintro ⟨-, ⟨hhere, -⟩ | ⟨hup, -⟩ | ⟨-, hentry⟩⟩
    · exact absurd hhere (not_or.2 ⟨hname.ne_nil, hname.ne_here⟩)
    · exact absurd hup hname.ne_up
    · exact hentry
  · rintro ⟨node, hentry, rfl⟩
    have hdirectory : l.node.isDirectory = true := by
      cases hnode : l.node with
      | file content =>
        rw [hnode] at hentry
        cases hentry
      | directory entries => rfl
    exact ⟨hdirectory, .inr (.inr ⟨⟨hname.ne_nil, hname.ne_here, hname.ne_up⟩, node, hentry, rfl⟩)⟩

/-- An empty component stays in a directory. -/
theorem step_nil_eq_ok_iff : l.step [] = .ok m ↔ l.node.isDirectory = true ∧ m = l := by
  simp [step_eq_ok_iff]

/-- A name joined to the path of a directory is looked up there. -/
theorem find_join_iff (hname : IsName name) (hpath : path ≠ []) :
    l.find (Path.join path name) = .ok m ↔ ∃ k, l.find path = .ok k ∧ k.step name = .ok m := by
  obtain ⟨c, path, rfl⟩ := List.exists_cons_of_ne_nil hpath
  obtain ⟨before, hjoin, hbefore⟩ := Path.components_join hpath hname.slash_notMem
  obtain ⟨rest, hrest⟩ := Path.exists_join_eq_cons c path name
  rw [hrest] at hjoin ⊢
  change (Path.components (c :: rest)).foldlM step (l.startOf c) = .ok m ↔
    ∃ k, (Path.components (c :: path)).foldlM step (l.startOf c) = .ok k ∧ k.step name = .ok m
  rw [hjoin, foldlM_concat_eq_ok_iff]
  rcases hbefore with hsame | hslash
  · rw [hsame]
  · -- behind a slash at the end comes an empty component, which leads nowhere else
    rw [hslash]
    simp only [foldlM_concat_eq_ok_iff, step_nil_eq_ok_iff]
    constructor
    · rintro ⟨k, hway, hstep⟩
      exact ⟨k, ⟨k, hway, (step_eq_ok_iff.1 hstep).1, rfl⟩, hstep⟩
    · rintro ⟨k, ⟨_, hway, -, rfl⟩, hstep⟩
      exact ⟨k, hway, hstep⟩

/-- The path of a file that is met leads to the file. -/
theorem read_joinAll (h : l.find path = .ok found) (hplain : found.node.Plain)
    {way : List Text} {content : Bytes} (hway : found.node.contentAt? way = some content) :
    l.read (joinAll path way) = .ok content := by
  induction way generalizing path found with
  | nil =>
    obtain ⟨node, around⟩ := found
    cases node with
    | directory entries => cases hway
    | file c =>
      cases hway
      rw [joinAll, List.foldl_nil, read, h]
  | cons name way ih =>
    obtain ⟨sub, hsub, hrest⟩ := Option.bind_eq_some_iff.1 hway
    obtain ⟨hname, hplain'⟩ := hplain.entry hsub
    have hpath : path ≠ [] := by
      rintro rfl
      cases h
    have hfind : l.find (Path.join path name) =
        .ok ⟨sub, (found.node, name) :: found.around⟩ :=
      (find_join_iff hname hpath).2 ⟨found, h, (step_eq_ok_iff_of_isName hname).2 ⟨sub, hsub, rfl⟩⟩
    exact ih hfind hplain' hrest

end Location

end Glossator
