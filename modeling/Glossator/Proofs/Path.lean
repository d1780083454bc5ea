import Glossator.Path
import Glossator.Proofs.Text.Join
import Glossator.Proofs.Text.LowerCase

/-!
# What a path names

A path is cut at its slashes. The last component that is neither empty nor a single dot names the
file, unless it goes up; its extension is what stands behind its last dot.

* `Path.IsLastComponent`: a component with only slashes and single dots behind it.
* `Path.fileName?_eq_some_iff`, `Path.extension?_eq_some_iff`: the file name and its extension.
* `Path.extension?_append_slash`: a directory in front changes nothing.
* `Path.extension?_map_toLower`: extensions keep the case of the path.
-/

set_option autoImplicit false

namespace Glossator.Path

variable {path name c e : Text}

/-- The components that name nothing: empty ones and single dots. -/
def IsIdle (c : Text) : Prop := c = [] ∨ c = ['.']

/-- The last component of a path that names something: it stands at the start or behind a slash, and
behind it are only slashes with nothing or a single dot after each. -/
structure IsLastComponent (path c : Text) : Prop where
  slash_notMem : '/' ∉ c
  not_idle : ¬ IsIdle c
  placed : ∃ (directory : Text) (idle : List Text),
    (directory = [] ∨ directory.getLast? = some '/') ∧ (∀ t ∈ idle, IsIdle t) ∧
      path = directory ++ c ++ idle.flatMap ('/' :: ·)

/-! ### Components -/

theorem components_append_slash (path : Text) (h : '/' ∉ name) :
    components (path ++ '/' :: name) = components path ++ [name] := by
  unfold components
  have hname : ∀ c ∈ name, decide (c = '/') = false := by
    intro c hc
    rw [decide_eq_false_iff_not]
    rintro rfl
    exact h hc
  rw [Text.splitAt_append_cons (decide_eq_true rfl), Text.splitAt_eq_singleton hname]

/-- Each slash at the end of a path opens a component. -/
theorem components_append_flatMap (path : Text) {more : List Text} (h : ∀ t ∈ more, '/' ∉ t) :
    components (path ++ more.flatMap ('/' :: ·)) = components path ++ more := by
  induction more generalizing path with
  | nil => simp
  | cons t more ih =>
    rw [List.flatMap_cons, ← List.append_assoc, ih _ fun u hu => h u (List.mem_cons_of_mem t hu),
      components_append_slash path (h t List.mem_cons_self), List.append_assoc,
      List.singleton_append]

/-- A path is read back from the components around one of them. -/
theorem eq_of_components {before after : List Text}
    (h : components path = before ++ c :: after) :
    path = before.flatMap (· ++ ['/']) ++ c ++ after.flatMap ('/' :: ·) := by
  rw [← Text.join_splitAt '/' path]
  change Text.join ['/'] (components path) = _
  rw [h]
  clear h
  induction before with
  | nil => exact Text.join_cons ['/'] c after
  | cons b before ih =>
    cases before <;> simp_all [Text.join_cons]

/-- The last part of a path that stands at the start or behind a slash is its last component. -/
theorem exists_components_append {directory : Text} (h : '/' ∉ name)
    (hdirectory : directory = [] ∨ directory.getLast? = some '/') :
    ∃ before, components (directory ++ name) = before ++ [name] := by
  rcases hdirectory with rfl | hlast
  · refine ⟨[], Text.splitAt_eq_singleton fun c hc => decide_eq_false ?_⟩
    rintro rfl
    exact h hc
  · obtain ⟨front, rfl⟩ := List.getLast?_eq_some_iff.1 hlast
    refine ⟨components front, ?_⟩
    rw [List.append_assoc, List.singleton_append, components_append_slash front h]

/-! ### File names -/

/-- The component behind which all are idle names the file, unless it goes up. -/
theorem fileName?_eq {before idle : List Text} (h : components path = before ++ c :: idle)
    (hc : ¬ IsIdle c) (hidle : ∀ t ∈ idle, IsIdle t) :
    fileName? path = if c = ['.', '.'] then none else some c := by
  have hdrop : ((components path).reverse.dropWhile fun c => c == [] || c == ['.']) =
      c :: before.reverse := by
    rw [h, List.reverse_append, List.reverse_cons, List.append_assoc,
      List.dropWhile_append_of_pos (by simpa [IsIdle] using hidle), List.singleton_append,
      List.dropWhile_cons_of_neg (by simpa [IsIdle] using hc)]
  rw [fileName?, hdrop]
  simp

/-- A path with a file name has a component that is not idle, with idle ones behind it. -/
theorem exists_components_of_fileName? (h : fileName? path = some c) :
    ∃ before idle, components path = before ++ c :: idle ∧ ¬ IsIdle c ∧ (∀ t ∈ idle, IsIdle t) ∧
      c ≠ ['.', '.'] := by
  have hsplit := List.takeWhile_append_dropWhile (p := fun c => c == [] || c == ['.'])
    (l := (components path).reverse)
  have hhead := List.head?_dropWhile_not (fun c => c == [] || c == ['.']) (components path).reverse
  unfold fileName? at h
  cases hdrop : (components path).reverse.dropWhile fun c => c == [] || c == ['.'] with
  | nil =>
    rw [hdrop] at h
    cases h
  | cons last before =>
    rw [hdrop] at h hsplit hhead
    obtain ⟨hup, rfl⟩ : ¬ (last == ['.', '.']) = true ∧ last = c := by simpa using h
    refine ⟨before.reverse,
      ((components path).reverse.takeWhile fun c => c == [] || c == ['.']).reverse, ?_, ?_, ?_, ?_⟩
    · have hlist := congrArg List.reverse hsplit
      simpa using hlist.symm
    · simpa [IsIdle] using hhead
    · intro t ht
      have hidle := List.mem_takeWhile_imp (List.mem_reverse.1 ht)
      simpa [IsIdle] using hidle
    · simpa using hup

/-- What names a file: the last component, unless it goes up. -/
theorem fileName?_eq_some_iff :
    fileName? path = some c ↔ IsLastComponent path c ∧ c ≠ ['.', '.'] := by
  constructor
  · intro h
    obtain ⟨before, idle, hcomponents, hc, hidle, hup⟩ := exists_components_of_fileName? h
    have hslash : '/' ∉ c := by
      intro hmem
      have hpiece : c ∈ components path := by simp [hcomponents]
      have hnot := Text.eq_false_of_mem_splitAt hpiece '/' hmem
      simp at hnot
    refine ⟨⟨hslash, hc, before.flatMap (· ++ ['/']), idle, ?_, hidle,
      eq_of_components hcomponents⟩, hup⟩
    rcases List.eq_nil_or_concat before with rfl | ⟨front, b, rfl⟩
    · exact .inl rfl
    · exact .inr (by simp)
  · rintro ⟨⟨hslash, hc, directory, idle, hdirectory, hidle, rfl⟩, hup⟩
    obtain ⟨before, hbefore⟩ := exists_components_append hslash hdirectory
    have hplain : ∀ t ∈ idle, '/' ∉ t := by
      intro t ht
      rcases hidle t ht with rfl | rfl <;> simp
    have hcomponents := components_append_flatMap (directory ++ c) hplain
    rw [hbefore, List.append_assoc before, List.singleton_append] at hcomponents
    rw [fileName?_eq hcomponents hc hidle, if_neg hup]

/-! ### Extensions -/

theorem extensionOfName?_eq_some_iff : extensionOfName? name = some e ↔
    ∃ s, s ≠ [] ∧ '.' ∉ e ∧ name = s ++ '.' :: e := by
  constructor
  · intro h
    have hsplit := List.takeWhile_append_dropWhile (p := (· ≠ '.')) (l := name.reverse)
    have hhead := List.head?_dropWhile_not (· ≠ '.') name.reverse
    have hplain : '.' ∉ name.reverse.takeWhile (· ≠ '.') := by
      intro hdot
      have hne := List.mem_takeWhile_imp hdot
      simp at hne
    rw [extensionOfName?] at h
    generalize name.reverse.takeWhile (· ≠ '.') = behind at hsplit hplain h
    generalize name.reverse.dropWhile (· ≠ '.') = front at hsplit hhead
    obtain ⟨hlt, he⟩ := Option.ite_none_right_eq_some.1 h
    obtain rfl := Option.some.inj he
    obtain rfl : (behind ++ front).reverse = name := by rw [hsplit, List.reverse_reverse]
    cases front with
    | nil => simp at hlt
    | cons dot front =>
      obtain rfl : dot = '.' := by simpa using hhead
      refine ⟨front.reverse, ?_, fun hdot => hplain (List.mem_reverse.1 hdot), by simp⟩
      intro hnil
      simp [List.reverse_eq_nil_iff.1 hnil] at hlt
  · rintro ⟨s, hs, he, rfl⟩
    have hplain : ∀ c ∈ e.reverse, decide (c ≠ '.') = true := by
      intro c hc
      rw [decide_eq_true_iff]
      rintro rfl
      exact he (List.mem_reverse.1 hc)
    have hbehind : ((s ++ '.' :: e).reverse.takeWhile (· ≠ '.')).reverse = e := by
      rw [List.reverse_append, List.reverse_cons, List.append_assoc,
        List.takeWhile_append_of_pos hplain]
      simp
    have hlength := List.length_pos_iff.2 hs
    rw [extensionOfName?, hbehind, if_pos (by simp; omega)]

/-- The extension of a path: what stands behind the last dot of its last component. -/
theorem extension?_eq_some_iff : extension? path = some e ↔
    ∃ c s, IsLastComponent path c ∧ c ≠ ['.', '.'] ∧ c = s ++ '.' :: e ∧ s ≠ [] ∧ '.' ∉ e := by
  rw [extension?, Option.bind_eq_some_iff]
  constructor
  · rintro ⟨c, hc, he⟩
    obtain ⟨hlast, hup⟩ := fileName?_eq_some_iff.1 hc
    obtain ⟨s, hs, hdot, hname⟩ := extensionOfName?_eq_some_iff.1 he
    exact ⟨c, s, hlast, hup, hname, hs, hdot⟩
  · rintro ⟨c, s, hlast, hup, hname, hs, hdot⟩
    exact ⟨c, fileName?_eq_some_iff.2 ⟨hlast, hup⟩,
      extensionOfName?_eq_some_iff.2 ⟨s, hs, hdot, hname⟩⟩

/-- A directory in front of a name that is not idle changes nothing. -/
theorem extension?_append_slash (directory : Text) (h : '/' ∉ name) (hname : ¬ IsIdle name) :
    extension? (directory ++ '/' :: name) = extension? name := by
  obtain ⟨before, hbefore⟩ : ∃ before, components name = before ++ [name] :=
    exists_components_append h (.inl rfl)
  rw [extension?, extension?,
    fileName?_eq (components_append_slash directory h) hname (List.forall_mem_nil _),
    fileName?_eq hbefore hname (List.forall_mem_nil _)]

/-! ### The case of letters -/

theorem components_map_toLower (path : Text) :
    components (path.map Char.toLower) = (components path).map (·.map Char.toLower) :=
  Text.splitAt_map (fun c => by simp [toLower_eq_iff (d := '/') (by decide)]) path

theorem map_toLower_eq_dots_iff (name : Text) (n : Nat) :
    name.map Char.toLower = List.replicate n '.' ↔ name = List.replicate n '.' := by
  simp [List.eq_replicate_iff, toLower_eq_iff (d := '.') (by decide)]

theorem isIdle_map_toLower : IsIdle (c.map Char.toLower) ↔ IsIdle c :=
  or_congr List.map_eq_nil_iff (map_toLower_eq_dots_iff c 1)

theorem fileName?_map_toLower (path : Text) :
    fileName? (path.map Char.toLower) = (fileName? path).map (·.map Char.toLower) := by
  have hidle (c : Text) : (c.map Char.toLower == [] || c.map Char.toLower == ['.']) =
      (c == [] || c == ['.']) := by
    rw [Bool.eq_iff_iff]
    simpa [IsIdle] using isIdle_map_toLower (c := c)
  rw [fileName?, fileName?, components_map_toLower, ← List.map_reverse, List.dropWhile_map]
  simp only [Function.comp_def, hidle]
  cases (components path).reverse.dropWhile fun c => c == [] || c == ['.'] with
  | nil => rfl
  | cons name before =>
    have hup := map_toLower_eq_dots_iff name 2
    simp only [List.map_cons, beq_iff_eq]
    split <;> split <;> simp_all

theorem extensionOfName?_map_toLower (name : Text) :
    extensionOfName? (name.map Char.toLower) =
      (extensionOfName? name).map (·.map Char.toLower) := by
  have hdot (c : Char) : decide (c.toLower ≠ '.') = decide (c ≠ '.') := by
    simp [toLower_eq_iff (d := '.') (by decide)]
  rw [extensionOfName?, extensionOfName?, ← List.map_reverse, List.takeWhile_map]
  simp only [Function.comp_def, hdot, ← List.map_reverse, List.length_map]
  split <;> rfl

/-- Lowering the letters of a path lowers those of its extension. -/
theorem extension?_map_toLower (path : Text) :
    extension? (path.map Char.toLower) = (extension? path).map (·.map Char.toLower) := by
  rw [extension?, extension?, fileName?_map_toLower]
  cases fileName? path with
  | none => rfl
  | some name => exact extensionOfName?_map_toLower name

end Glossator.Path
