import Glossator.Engine
import Glossator.Proofs.Config.Discovery
import Glossator.Proofs.Config.Partial
import Glossator.Proofs.Walk

/-!
# Loading a configuration

A file gives the settings it writes and the defaults for the others, and a directory gives the first
of its files of a usual name. Whatever is loaded can be used.

* `Location.entryAt?`: what is in a directory under a name.
* `Config.loadFrom_of_entry`: the first usual name that is there decides, with what is there.
* `Config.Usable`: the limits of a configuration are positive.
* `Config.load_spec`: partial files, directories, and what all ways of loading give.
-/

set_option autoImplicit false

namespace Glossator

namespace Location

open Glossator.Path (IsName)

variable {here l m : Location} {dir name : Text} {node : FileTree}

/-- What is under a name in the directory at a path; the empty path stands for the place itself. -/
def entryAt? (here : Location) (dir name : Text) : Option FileTree :=
  match if dir = [] then .ok here else here.find dir with
  | .ok l => l.node.entry? name
  | .error _ => none

/-- Where a name in a directory leads. -/
theorem find_join_eq_ok_iff (hname : IsName name) : here.find (Path.join dir name) = .ok m ↔
    ∃ l, (if dir = [] then .ok here else here.find dir) = .ok l ∧ l.step name = .ok m := by
  by_cases hdir : dir = []
  · subst hdir
    have hfind : here.find (Path.join [] name) = here.step name := by
      obtain ⟨c, path, rfl⟩ := List.exists_cons_of_ne_nil hname.ne_nil
      have hc : c ≠ '/' := fun hc => hname.slash_notMem (hc ▸ List.mem_cons_self)
      have hcomponents : Path.components (c :: path) = [c :: path] :=
        Text.splitAt_eq_singleton fun d hd => decide_eq_false fun hslash =>
          hname.slash_notMem (hslash ▸ hd)
      change (Path.components (c :: path)).foldlM step (if c = '/' then here.top else here) = _
      rw [hcomponents, if_neg hc, List.foldlM_cons]
      cases here.step (c :: path) <;> rfl
    simp [hfind]
  · rw [if_neg hdir, find_join_iff hname hdir]

/-- A name leads to what the directory has under it. -/
theorem entryAt?_eq_some_iff (hname : IsName name) : here.entryAt? dir name = some node ↔
    ∃ around, here.find (Path.join dir name) = .ok ⟨node, around⟩ := by
  simp only [find_join_eq_ok_iff hname, step_eq_ok_iff_of_isName hname, entryAt?]
  cases if dir = [] then Except.ok here else here.find dir with
  | error e => simp
  | ok l =>
    constructor
    · intro h
      exact ⟨_, l, rfl, node, h, rfl⟩
    · rintro ⟨around, k, hk, node', hentry, heq⟩
      cases hk
      cases heq
      exact hentry

theorem hasPath_join (hname : IsName name) :
    here.hasPath (Path.join dir name) = (here.entryAt? dir name).isSome := by
  rw [Bool.eq_iff_iff, Option.isSome_iff_exists]
  simp only [entryAt?_eq_some_iff hname, hasPath]
  cases h : here.find (Path.join dir name) with
  | error e => simp [Except.isOk, Except.toBool]
  | ok l => exact iff_of_true rfl ⟨l.node, l.around, rfl⟩

end Location

namespace Config

variable {here : Location} {path dir : Text} {c : Config} {node : FileTree} {name : String}
  {before after : List String}

/-! ### What a directory gives -/

/-- The configuration in what is found under a usual name. -/
def ofEntry : FileTree → Except Error Config
  | .file content =>
    match Utf8.decode? content with
    | some t => parse t
    | none => .error (.io .invalidUtf8)
  | .directory _ => .error (.io .isADirectory)

theorem load_of_find {around : List (FileTree × Text)} (h : here.find path = .ok ⟨node, around⟩) :
    load here path = ofEntry node := by
  cases node with
  | file content =>
    cases hdecode : Utf8.decode? content <;>
      simp [load, Location.readText, Location.read, h, ofEntry, hdecode, bind, Except.bind]
  | directory entries =>
    simp [load, Location.readText, Location.read, h, ofEntry, bind, Except.bind]

theorem isName_of_mem_fileNames (h : name ∈ fileNames) : Path.IsName name.toList := by
  have hall : ∀ name ∈ fileNames, name.toList ≠ [] ∧ '/' ∉ name.toList ∧ name.toList ≠ ['.'] ∧
      name.toList ≠ ['.', '.'] := by
    decide
  obtain ⟨hnil, hslash, hhere, hup⟩ := hall name h
  exact ⟨hnil, hslash, hhere, hup⟩

/-- The first usual name that is there decides, whatever is there. -/
theorem loadFrom_of_entry (hnames : fileNames = before ++ name :: after)
    (hbefore : ∀ n ∈ before, here.entryAt? dir n.toList = none)
    (hentry : here.entryAt? dir name.toList = some node) :
    loadFrom here dir = load here (Path.join dir name.toList) ∧
      load here (Path.join dir name.toList) = ofEntry node := by
  have hpath (n : String) (hn : n ∈ fileNames) :
      here.hasPath (Path.join dir n.toList) = (here.entryAt? dir n.toList).isSome :=
    Location.hasPath_join (isName_of_mem_fileNames hn)
  have hname : name ∈ fileNames := by simp [hnames]
  refine ⟨?_, ?_⟩
  · have hfind : (fileNames.map fun n => Path.join dir n.toList).find? here.hasPath =
        some (Path.join dir name.toList) := by
      rw [hnames, List.map_append, List.map_cons, List.find?_append, List.find?_cons_of_pos,
        List.find?_eq_none.2, Option.none_or]
      · simp only [List.forall_mem_map]
        intro n hn
        rw [hpath n (by simp [hnames, hn]), hbefore n hn]
        simp
      · rw [hpath name hname, hentry]
        rfl
    rw [loadFrom, hfind]
  · obtain ⟨around, hfind⟩ :=
      (Location.entryAt?_eq_some_iff (isName_of_mem_fileNames hname)).1 hentry
    exact load_of_find hfind

/-- Without any of the usual names there are the defaults. -/
theorem loadFrom_of_forall (h : ∀ n ∈ fileNames, here.entryAt? dir n.toList = none) :
    loadFrom here dir = .ok {} := by
  have hfind : (fileNames.map fun n => Path.join dir n.toList).find? here.hasPath = none := by
    rw [List.find?_eq_none]
    simp only [List.forall_mem_map]
    intro n hn
    rw [Location.hasPath_join (isName_of_mem_fileNames hn), h n hn]
    simp
  rw [loadFrom, hfind]

/-! ### What all ways of loading give -/

/-- The limits of the configuration are positive. -/
def Usable (c : Config) : Prop := 0 < c.parsing.maxFileSize ∧ 0 < c.service.timeoutSeconds

theorem usable_default : Usable {} := ⟨by decide, by decide⟩

theorem usable_of_load (h : load here path = .ok c) : c.Usable := by
  have hvalidated {c' : Config} (h : c'.validated = .ok c) : c.Usable := by
    unfold validated at h
    split at h
    · cases h
    · next hfault =>
      cases h
      exact c.fault?_eq_none_iff.1 hfault
  unfold load at h
  split at h
  · unfold parse at h
    split at h
    · cases h
    · exact hvalidated h
  · cases h

theorem usable_of_loadFrom (h : loadFrom here dir = .ok c) : c.Usable := by
  unfold loadFrom at h
  split at h
  · exact usable_of_load h
  · cases h
    exact usable_default

theorem usable_of_find {path : Option Text} (h : find here path = .ok c) : c.Usable := by
  cases path with
  | none => exact usable_of_loadFrom h
  | some path =>
    unfold find at h
    dsimp only at h
    split at h
    · exact usable_of_load h
    · cases h
      exact usable_default

end Config

open Config in
/-- A file gives the settings it writes, in any choice and beside unknown ones, and the defaults for
the others, unless a limit it writes is zero. A directory gives what is under the first usual name
that it has, be that usable or not, and the defaults if it has none. What is loaded by any way has
positive limits. -/
theorem Config.load_spec :
    (∀ (here : Location) (path t : Text) (fields : List (Text × Toml)) (w : Written),
      here.readText path = .ok t → Toml.read? t = some fields → Writes fields w →
      load here path =
        if w.maxFileSize = some 0 then .error (.config (.notPositive "parsing.max_file_size"))
        else if w.timeoutSeconds = some 0 then
          .error (.config (.notPositive "backend.timeout_secs"))
        else .ok w.config) ∧
    (∀ (w : Written) (further : List (Text × Toml.Scalar)) (others : List Toml.Section),
      w.FitsInteger → IsUnknown further others →
      ∃ fields, Toml.read? (Toml.render (w.sections further ++ others)) = some fields ∧
        Writes fields w) ∧
    (∀ (here : Location) (dir : Text) (before after : List String) (name : String)
      (node : FileTree), fileNames = before ++ name :: after →
      (∀ n ∈ before, here.entryAt? dir n.toList = none) →
      here.entryAt? dir name.toList = some node →
      loadFrom here dir = load here (Path.join dir name.toList) ∧
        load here (Path.join dir name.toList) = ofEntry node) ∧
    (∀ (here : Location) (dir : Text), (∀ n ∈ fileNames, here.entryAt? dir n.toList = none) →
      loadFrom here dir = .ok {}) ∧
    (∀ (here : Location) (path : Text) (c : Config), load here path = .ok c → c.Usable) ∧
    (∀ (here : Location) (dir : Text) (c : Config), loadFrom here dir = .ok c → c.Usable) ∧
    (∀ (here : Location) (path : Option Text) (c : Config), find here path = .ok c → c.Usable) ∧
    ∀ (exchange : Http.Exchange) (here : Location) (path : Option Text) (e : Engine),
      Engine.ofConfigPath exchange here path = .ok e → e.config.Usable := by
  refine ⟨fun here path t fields w htext hread hwrites => ?_,
    fun w further others hfits hunknown => w.exists_writes_render hfits hunknown,
    fun here dir before after name node hnames hbefore hentry =>
      loadFrom_of_entry hnames hbefore hentry,
    fun here dir h => loadFrom_of_forall h, fun here path c h => usable_of_load h,
    fun here dir c h => usable_of_loadFrom h, fun here path c h => usable_of_find h,
    fun exchange here path e h => ?_⟩
  · rw [load, htext]
    exact hwrites.parse_eq hread
  · unfold Engine.ofConfigPath at h
    cases hfind : find here path with
    | error cause =>
      rw [hfind] at h
      cases h
    | ok c =>
      rw [hfind] at h
      cases h
      exact usable_of_find hfind

namespace Config

/-- One setting out of six. -/
def timeoutOnly : Written where
  maxFileSize := none
  contentFallback := none
  enabled := none
  baseUrl := none
  timeoutSeconds := some 5
  level := none

/-- A file with one known setting, an unknown one and an unknown section. -/
def timeoutFile : Text :=
  Toml.render (timeoutOnly.sections [("retries".toList, .integer 2)] ++ [⟨"proxy".toList, []⟩])

/-- A directory with that file under the second of the usual names, and with a directory under the
third. -/
def timeoutPlace : Location :=
  ⟨.directory [(".commentsmith.toml".toList, .directory []),
    ("commentsmith.toml".toList, .file (Utf8.encode timeoutFile))], []⟩

theorem load_spec_timeoutPlace :
    loadFrom timeoutPlace ['.'] = .ok { service := { timeoutSeconds := 5 } } ∧
      (∃ e, Engine.ofConfigPath (fun _ _ => .error "") timeoutPlace none = .ok e ∧
        e.config.Usable) ∧
      loadFrom timeoutPlace ['x'] = .ok {} := by
  obtain ⟨hpartial, htext, hfirst, hnone, -, -, -, hengine⟩ := load_spec
  have hfits : timeoutOnly.FitsInteger := by
    simp [Written.FitsInteger, timeoutOnly, Toml.IsIntegerRange]
  have hunknown : IsUnknown [("retries".toList, .integer 2)] [⟨"proxy".toList, []⟩] := by
    refine ⟨?_, ?_, by simp, ?_, by simp⟩
    · exact List.forall_mem_singleton.2
        ⟨⟨by simp, by simp [Toml.isBare]⟩, by simp [knownNames]⟩
    · exact List.forall_mem_singleton.2 (by simp [Toml.Scalar.IsWritable, Toml.IsIntegerRange])
    · exact List.forall_mem_singleton.2
        ⟨⟨⟨by simp, by simp [Toml.isBare]⟩, by simp, by simp, by simp⟩, by simp [knownNames]⟩
  obtain ⟨fields, hread, hwrites⟩ := htext timeoutOnly _ _ hfits hunknown
  obtain ⟨hcandidate, -⟩ := hfirst timeoutPlace ['.'] ["Commentsmith.toml"]
    [".commentsmith.toml"] "commentsmith.toml" (.file (Utf8.encode timeoutFile)) rfl
    (by decide +kernel) rfl
  have hfile : timeoutPlace.readText (Path.join ['.'] "commentsmith.toml".toList) =
      .ok timeoutFile := by
    have hbytes : timeoutPlace.read (Path.join ['.'] "commentsmith.toml".toList) =
        .ok (Utf8.encode timeoutFile) := rfl
    rw [Location.readText, hbytes]
    simp [bind, Except.bind]
  have hloaded := hpartial timeoutPlace _ _ fields timeoutOnly hfile hread hwrites
  rw [← hcandidate] at hloaded
  obtain ⟨e, he⟩ : ∃ e, Engine.ofConfigPath (fun _ _ => .error "") timeoutPlace none = .ok e := by
    have hfind : find timeoutPlace none = _ := hloaded
    rw [Engine.ofConfigPath, hfind]
    exact ⟨_, rfl⟩
  exact ⟨hloaded, ⟨e, he, hengine _ _ _ e he⟩, hnone _ _ (by decide +kernel)⟩

end Config

end Glossator
