import Mathlib
import Glossator.FileTree

/-!
# Places in a file tree

A place in a tree is where names lead from the outermost directory. A file that is written is read
back by the same path, as the way to its directory is what it was.

* `Location.step_insert`: a step that was possible before a file was put in a directory leads to
  the same place after that.
* `Location.read_write`: a file that is written is read back.
-/

set_option autoImplicit false

namespace Glossator

/-! ### Trees -/

namespace FileTree

variable {leaf tree sub : FileTree} {name : Text} {way names : List Text}

theorem lookup_cons (n m : Text) (tree : FileTree) (entries : List (Text × FileTree)) :
    ((m, tree) :: entries).lookup n = if n = m then some tree else entries.lookup n := by
  by_cases h : n = m
  · simp [h]
  · rw [List.lookup_cons, beq_eq_false_iff_ne.2 h, if_neg h]

theorem lookup_setEntry (name : Text) (tree : FileTree) (entries : List (Text × FileTree))
    (n : Text) : (setEntry name tree entries).lookup n =
      if n = name then some tree else entries.lookup n := by
  induction entries with
  | nil => rw [setEntry, lookup_cons]
  | cons entry entries ih =>
    obtain ⟨m, t⟩ := entry
    rw [setEntry, lookup_cons]
    by_cases hm : m = name
    · subst hm
      rw [if_pos rfl, lookup_cons]
      split <;> rfl
    · rw [if_neg hm, lookup_cons, ih]
      grind

theorem entry?_insert (name : Text) (further : List Text) (n : Text) :
    entry? (insert leaf (name :: further) tree) n =
      if n = name then some (insert leaf further ((tree.entry? name).getD (directory [])))
      else tree.entry? n := lookup_setEntry ..

theorem isDirectory_afterInsert (hne : names ≠ way) (htree : tree.isDirectory = true) :
    (afterInsert leaf way names tree).isDirectory = true := by
  unfold afterInsert
  split
  · next further hfurther =>
    rw [List.isPrefixOf?_eq_some_iff_append_eq] at hfurther
    cases further with
    | nil => exact absurd (by simpa using hfurther) hne
    | cons name further => rfl
  · exact htree

/-- Behind an entry the way goes on. -/
theorem entry?_afterInsert (hne : names ≠ way) (hsub : tree.entry? name = some sub) :
    entry? (afterInsert leaf way names tree) name =
      some (afterInsert leaf way (names ++ [name]) sub) := by
  unfold afterInsert
  cases hprefix : names.isPrefixOf? way with
  | none =>
    have hprefix' : (names ++ [name]).isPrefixOf? way = none := by
      rw [Option.eq_none_iff_forall_ne_some] at hprefix ⊢
      intro further hfurther
      rw [List.isPrefixOf?_eq_some_iff_append_eq, List.append_assoc] at hfurther
      exact hprefix _ (List.isPrefixOf?_eq_some_iff_append_eq.2 hfurther)
    rw [hprefix']
    exact hsub
  | some further =>
    rw [List.isPrefixOf?_eq_some_iff_append_eq] at hprefix
    cases further with
    | nil => exact absurd (by simpa using hprefix) hne
    | cons n further =>
      dsimp only
      rw [entry?_insert]
      by_cases h : name = n
      · subst h
        have hprefix' : (names ++ [name]).isPrefixOf? way = some further := by
          rw [List.isPrefixOf?_eq_some_iff_append_eq, ← hprefix]
          simp
        rw [if_pos rfl, hprefix', hsub, Option.getD_some]
      · have hprefix' : (names ++ [name]).isPrefixOf? way = none := by
          rw [Option.eq_none_iff_forall_ne_some]
          intro further' hfurther
          rw [List.isPrefixOf?_eq_some_iff_append_eq, ← hprefix] at hfurther
          simp [h] at hfurther
        rw [if_neg h, hprefix', hsub]

end FileTree

/-! ### Places -/

namespace Location

variable {root node leaf : FileTree} {l m : Location} {name : Text} {way : List Text}

/-- The place is one in the tree. -/
inductive IsIn (root : FileTree) : Location → Prop
  | outermost : IsIn root ⟨root, []⟩
  | entry {l : Location} {name : Text} {node : FileTree} :
      IsIn root l → l.node.entry? name = some node → IsIn root ⟨node, (l.node, name) :: l.around⟩

theorem namesOf_cons (tree : FileTree) (name : Text) (around : List (FileTree × Text)) :
    namesOf ((tree, name) :: around) = namesOf around ++ [name] := by
  simp [namesOf]

/-- Names lead to one place. -/
theorem IsIn.eq_of_names_eq (hl : IsIn root l) (hm : IsIn root m) (h : l.names = m.names) :
    l = m := by
  induction hl generalizing m with
  | outermost =>
    cases hm with
    | outermost => rfl
    | entry => simp [names, namesOf] at h
  | @entry l name node _ hentry ih =>
    cases hm with
    | outermost => simp [names, namesOf] at h
    | @entry m name' node' hm hentry' =>
      rw [names, names, namesOf_cons, namesOf_cons] at h
      obtain ⟨hnames, hname⟩ := List.append_inj' h rfl
      cases ih hm hnames
      cases List.singleton_inj.1 hname
      rw [hentry] at hentry'
      cases hentry'
      rfl

theorem IsIn.top (h : IsIn root l) : l.top = ⟨root, []⟩ := by
  -- `top` reads the last of what is around a place, where the induction adds at the front
  have houtermost {l : Location} (h : IsIn root l) :
      (∃ name, l.around.getLast? = some (root, name)) ∨ l = ⟨root, []⟩ := by
    induction h with
    | outermost => exact .inr rfl
    | @entry l name node _ _ ih =>
      left
      rcases ih with ⟨n, hlast⟩ | rfl
      · exact ⟨n, by rw [List.getLast?_cons, hlast]; rfl⟩
      · exact ⟨name, rfl⟩
  unfold Location.top
  rcases houtermost h with ⟨name, hlast⟩ | rfl
  · rw [hlast]
  · rfl

/-- A step stays, goes up, or enters an entry. -/
theorem step_eq_ok_iff : l.step name = .ok m ↔ l.node.isDirectory = true ∧
    ((name = [] ∨ name = ['.']) ∧ m = l ∨
      name = ['.', '.'] ∧ (l.around = [] ∧ m = l ∨
        ∃ parent n around, l.around = (parent, n) :: around ∧ m = ⟨parent, around⟩) ∨
      (name ≠ [] ∧ name ≠ ['.'] ∧ name ≠ ['.', '.']) ∧ ∃ node, l.node.entry? name = some node ∧
        m = ⟨node, (l.node, name) :: l.around⟩) := by
  unfold step
  by_cases hdirectory : l.node.isDirectory = true
  · by_cases hhere : name = [] ∨ name = ['.']
    · rcases hhere with rfl | rfl <;> simpa [hdirectory] using eq_comm
    · by_cases hup : name = ['.', '.']
      · subst hup
        cases haround : l.around with
        | nil => simpa [hdirectory] using eq_comm
        | cons entry around =>
          obtain ⟨parent, n⟩ := entry
          simpa [hdirectory] using eq_comm
      · rw [not_or] at hhere
        cases hentry : l.node.entry? name with
        | none => simp [hdirectory, hhere, hup]
        | some node => simpa [hdirectory, hhere, hup] using eq_comm
  · simp [hdirectory]

/-- A way with a last step leads on by that step. -/
theorem foldlM_concat_eq_ok_iff : (way ++ [name]).foldlM step l = .ok m ↔
    ∃ k, way.foldlM step l = .ok k ∧ k.step name = .ok m := by
  rw [List.foldlM_append]
  cases way.foldlM step l with
  | error e => simp [bind, Except.bind]
  | ok k => cases h : k.step name <;> simp [bind, Except.bind, pure, Except.pure, h]

theorem IsIn.step (hl : IsIn root l) (h : l.step name = .ok m) : IsIn root m := by
  obtain ⟨-, ⟨-, rfl⟩ | ⟨-, ⟨-, rfl⟩ | ⟨parent, n, around, haround, rfl⟩⟩ |
    ⟨-, node, hentry, rfl⟩⟩ := step_eq_ok_iff.1 h
  · exact hl
  · exact hl
  · cases hl with
    | outermost => cases haround
    | entry hl _ =>
      cases haround
      exact hl
  · exact hl.entry hentry

/-! ### Writing -/

/-- The directory at the end of the way to a file, when no directory has its name. -/
structure MayHold (root : FileTree) (d : Location) (name : Text) : Prop where
  isIn : IsIn root d
  free : ∀ tree, d.node.entry? name = some tree → tree.isDirectory = false

/-- A directory is not where the file is put. -/
theorem MayHold.names_ne {d : Location} (hd : MayHold root d name) (hl : IsIn root l)
    (hdirectory : l.node.isDirectory = true) : l.names ≠ d.names ++ [name] := by
  intro heq
  cases hl with
  | outermost => simp [names, namesOf] at heq
  | @entry l name' node hl hentry =>
    rw [names, namesOf_cons] at heq
    obtain ⟨hnames, hname⟩ := List.append_inj' heq rfl
    cases hl.eq_of_names_eq hd.isIn hnames
    cases List.singleton_inj.1 hname
    rw [hd.free node hentry] at hdirectory
    cases hdirectory

/-- A step that was possible before a file was put in a directory leads to the same place after
that. -/
theorem MayHold.step_insert {d : Location} (hd : MayHold root d name) (hl : IsIn root l)
    {component : Text} (h : l.step component = .ok m) :
    (l.insert leaf (d.names ++ [name])).step component =
      .ok (m.insert leaf (d.names ++ [name])) := by
  obtain ⟨hdirectory, hgoes⟩ := step_eq_ok_iff.1 h
  -- the file is not put in the place of the directory, so that it stays one
  have hne := hd.names_ne hl hdirectory
  refine step_eq_ok_iff.2 ⟨FileTree.isDirectory_afterInsert hne hdirectory, ?_⟩
  obtain ⟨hhere, rfl⟩ | ⟨hup, ⟨haround, rfl⟩ | ⟨parent, n, around, haround, rfl⟩⟩ |
    ⟨hnames, node, hentry, rfl⟩ := hgoes
  · exact .inl ⟨hhere, rfl⟩
  · refine .inr (.inl ⟨hup, .inl ⟨?_, rfl⟩⟩)
    rw [insert, haround, aroundAfterInsert]
  · refine .inr (.inl ⟨hup, .inr ⟨_, n, _, ?_, rfl⟩⟩)
    rw [insert, haround, aroundAfterInsert]
    rfl
  · refine .inr (.inr ⟨hnames, _, FileTree.entry?_afterInsert hne hentry, ?_⟩)
    have hways : (⟨node, (l.node, component) :: l.around⟩ : Location).names =
      l.names ++ [component] := namesOf_cons ..
    rw [insert, hways]
    rfl

theorem MayHold.foldlM_insert {d : Location} (hd : MayHold root d name) (leaf : FileTree)
    (hl : IsIn root l) {components : List Text} (h : components.foldlM step l = .ok m) :
    components.foldlM step (l.insert leaf (d.names ++ [name])) =
      .ok (m.insert leaf (d.names ++ [name])) := by
  induction components generalizing l with
  | nil =>
    cases h
    rfl
  | cons component components ih =>
    rw [List.foldlM_cons] at h ⊢
    cases hstep : l.step component with
    | error e =>
      rw [hstep] at h
      cases h
    | ok l' =>
      rw [hstep] at h
      rw [hd.step_insert hl hstep]
      exact ih (hl.step hstep) h

theorem IsIn.foldlM {components : List Text} (hl : IsIn root l)
    (h : components.foldlM Location.step l = .ok m) : IsIn root m := by
  induction components generalizing l with
  | nil =>
    cases h
    exact hl
  | cons component components ih =>
    rw [List.foldlM_cons] at h
    cases hstep : l.step component with
    | error e =>
      rw [hstep] at h
      cases h
    | ok l' =>
      rw [hstep] at h
      exact ih (hl.step hstep) h

theorem top_insert (l : Location) (leaf : FileTree) (way : List Text) :
    (l.insert leaf way).top = l.top.insert leaf way := by
  have hlast (around : List (FileTree × Text)) : (aroundAfterInsert leaf way around).getLast? =
      around.getLast?.map fun (tree, name) => (.afterInsert leaf way [] tree, name) := by
    induction around with
    | nil => rfl
    | cons entry around ih =>
      cases around with
      | nil => rfl
      | cons entry' around =>
        rw [aroundAfterInsert] at ih ⊢
        rw [aroundAfterInsert, List.getLast?_cons_cons, List.getLast?_cons_cons, ih]
  unfold top
  rw [insert, hlast]
  cases hroot : l.around.getLast? with
  | none => rfl
  | some root => rfl

/-- The place that a path starts from. -/
def startOf (l : Location) (c : Char) : Location := if c = '/' then l.top else l

theorem IsIn.startOf (hl : IsIn root l) (c : Char) : IsIn root (l.startOf c) := by
  unfold Location.startOf
  split
  · rw [hl.top]
    exact .outermost
  · exact hl

/-- Where a file is written. -/
theorem exists_of_write {l' : Location} {c : Char} {path : Text} {content : Bytes}
    (h : l.write (c :: path) content = .ok l') :
    ∃ before name d, Path.components (c :: path) = before ++ [name] ∧
      (name ≠ [] ∧ name ≠ ['.'] ∧ name ≠ ['.', '.']) ∧
      before.foldlM step (l.startOf c) = .ok d ∧ d.node.isDirectory = true ∧
      (∀ tree, d.node.entry? name = some tree → tree.isDirectory = false) ∧
      l' = l.insert (.file content) (d.names ++ [name]) := by
  simp only [write, bind, Except.bind] at h
  split at h
  · cases h
  next name before hreverse =>
  split at h
  · cases h
  next d hd =>
  split at h
  · cases h
  next hdirectory =>
  split at h
  · cases h
  next hname =>
  simp only [Bool.or_eq_true, decide_eq_true_eq, not_or] at hname
  obtain ⟨⟨hdot, hdots⟩, hslash⟩ := hname
  -- a path that ends with a slash has been refused, so no empty name was dropped at its end
  have hlast : name ≠ [] ∧ (Path.components (c :: path)).reverse = name :: before := by
    rw [← List.head?_reverse] at hslash
    cases hcases : (Path.components (c :: path)).reverse with
    | nil =>
      rw [hcases] at hreverse
      cases hreverse
    | cons last rest =>
      rw [hcases, List.head?_cons] at hslash
      have hne : last ≠ [] := fun heq => hslash (congrArg some heq)
      rw [hcases, List.dropWhile_cons_of_neg (by simpa using hne)] at hreverse
      cases hreverse
      exact ⟨hne, rfl⟩
  obtain ⟨hnil, hcomponents⟩ := hlast
  refine ⟨before.reverse, name, d, ?_, ⟨hnil, hdot, hdots⟩, hd, by simpa using hdirectory, ?_⟩
  · rw [← List.reverse_reverse (Path.components (c :: path)), hcomponents, List.reverse_cons]
  split at h
  · cases h
  · next hentry =>
    cases h
    refine ⟨?_, rfl⟩
    intro tree htree
    cases tree with
    | file content => rfl
    | directory entries => exact absurd htree (hentry entries)

/-- Whether a file can be written does not depend on what is in it. -/
theorem isOk_write (l : Location) (path : Text) (content content' : Bytes) :
    (l.write path content).isOk = (l.write path content').isOk := by
  cases path with
  | nil => rfl
  | cons c path =>
    simp only [write, bind, Except.bind]
    cases (Path.components (c :: path)).reverse.dropWhile (·.isEmpty) with
    | nil => rfl
    | cons name before =>
      dsimp only
      cases before.reverse.foldlM step (if c = '/' then l.top else l) with
      | error e => rfl
      | ok d =>
        dsimp only
        split
        · rfl
        split
        · rfl
        split <;> rfl

/-- A file that is written is read back. -/
theorem read_write {l' : Location} {path : Text} {content : Bytes} (hl : IsIn root l)
    (h : l.write path content = .ok l') : l'.read path = .ok content := by
  cases path with
  | nil => cases h
  | cons c path =>
    obtain ⟨before, name, d, hcomponents, hname, hd, hdirectory, hfree, rfl⟩ := exists_of_write h
    have hholds : MayHold root d name := ⟨(hl.startOf c).foldlM hd, hfree⟩
    have hstart : (l.insert (.file content) (d.names ++ [name])).startOf c =
        (l.startOf c).insert (.file content) (d.names ++ [name]) := by
      unfold startOf
      split
      · exact top_insert ..
      · rfl
    -- the way to the directory is walked again in the new tree, then one step enters the file
    have hway := hholds.foldlM_insert (.file content) (hl.startOf c) hd
    have hnode : (d.insert (.file content) (d.names ++ [name])).node =
        FileTree.insert (.file content) [name] d.node := by
      have hprefix : d.names.isPrefixOf? (d.names ++ [name]) = some [name] :=
        List.isPrefixOf?_eq_some_iff_append_eq.2 rfl
      rw [insert, FileTree.afterInsert, hprefix]
    have hstep : (d.insert (.file content) (d.names ++ [name])).step name =
        .ok ⟨.file content, ((d.insert (.file content) (d.names ++ [name])).node, name) ::
          (d.insert (.file content) (d.names ++ [name])).around⟩ := by
      refine step_eq_ok_iff.2 ⟨by rw [hnode]; rfl, .inr (.inr ⟨hname, _, ?_, rfl⟩)⟩
      rw [hnode, FileTree.entry?_insert, if_pos rfl]
      rfl
    have hfind : (l.insert (.file content) (d.names ++ [name])).find (c :: path) =
        .ok ⟨.file content, ((d.insert (.file content) (d.names ++ [name])).node, name) ::
          (d.insert (.file content) (d.names ++ [name])).around⟩ := by
      change (Path.components (c :: path)).foldlM step (startOf _ c) = _
      rw [hcomponents, hstart]
      exact foldlM_concat_eq_ok_iff.2 ⟨_, hway, hstep⟩
    rw [read, hfind]

end Location

end Glossator
