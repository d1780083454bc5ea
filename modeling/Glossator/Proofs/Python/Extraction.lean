import Glossator.Proofs.Python.Docstring

/-!
# What is extracted from a Python text

Each function of a file is extracted once, in order, with the lines that it takes up. That is so for
every tree that stands in its text and looks like the tree of a Python file, and a parsed tree does.

* `Python.enumerates`: the records are those of the functions of the file.
* `Python.accounts`: each record accounts for the lines of its function.
-/

set_option autoImplicit false

namespace Glossator.Python

variable {t : Text} {n : Tree}

/-! ### Functions and records -/

/-- The records are those of the functions of the file, each function one record, in order. -/
structure Enumerates (t : Text) (root : Tree) (records : List FunctionRecord) : Prop where
  described : List.Forall₂ (Describes t) (functions root) records
  order : (functions root).Pairwise fun o o' => o.node.stop.offset ≤ o'.node.start.offset
  start_le_end : ∀ r ∈ records, r.startLine ≤ r.endLine
  lines : root.Every StatementsApart → records.Pairwise fun r r' => r.endLine < r'.startLine

theorem Enumerates.of_isPython (hplaced : n.Every (Tree.Placed t)) (hpython : n.Every IsPython)
    (hkind : n.kind = "module") : Enumerates t n (functionsOfBody (.ofText t) none n) := by
  have hrecords := forall₂_functionsOfBody (t := t) hpython hkind
  refine ⟨hrecords, ?_, ?_, ?_⟩
  · exact pairwise_functions hpython hkind (related_order hplaced hpython)
  · intro r hr
    obtain ⟨i, hi, rfl⟩ := List.getElem_of_mem hr
    have hi' : i < (functions n).length := by rwa [hrecords.length_eq]
    have hdescribes := (hrecords.get hi' hi).lines
    have hwithin := within_of_mem_functionsBelow (o := (functions n)[i]) hplaced hpython
      (List.getElem_mem hi')
    have hle := lineAt_le_codeEndLine hwithin.placed hwithin.lt
    rw [← hwithin.placed.here.start.row_add_one] at hle
    rw [List.get_eq_getElem, List.get_eq_getElem] at hdescribes
    rw [hdescribes.startLine, hdescribes.endLine]
    exact_mod_cast hle
  · intro hapart
    refine pairwise_of_forall₂ ?_ hrecords
      (pairwise_functions hpython hkind (related_lines hplaced hpython hapart))
    intro o o' r r' h h' hlt
    rw [h.lines.endLine, h'.lines.startLine]
    exact_mod_cast hlt

/-- The records that are read off the tree of a file are those of its functions; so are the records
of a text that has a tree, and a text without one has no records. -/
theorem enumerates (t : Text) :
    (∀ n : Tree, n.Every (Tree.Placed t) → n.Every IsPython → n.kind = "module" →
      Enumerates t n (functionsOfBody (.ofText t) none n)) ∧
    (∀ root, parse? t = some root → Enumerates t root (extract t)) ∧
    (parse? t = none → extract t = []) := by
  refine ⟨fun n => .of_isPython, fun root hparse => ?_, fun hparse => ?_⟩
  · obtain ⟨hkind, hplaced, hpython, -⟩ := isFile_of_parse? hparse
    rw [extract, hparse]
    exact .of_isPython hplaced hpython hkind
  · rw [extract, hparse]

/-! ### A file with a class -/

/-- A text with a decorated method in a class. -/
def classText : Text := "class A:\n  @d\n  def m(s):\n    \"M.\"\n    pass\n".toList

/-- The tree of that text. -/
def classFile : Tree :=
  let part (kind : String) (role : Option String) (start stop : Nat) (children : List Tree) :=
    Tree.node ⟨kind, true, role, classText.placeAt start, classText.placeAt stop⟩ children
  let token (kind : String) (start stop : Nat) : Tree :=
    .node ⟨kind, false, none, classText.placeAt start, classText.placeAt stop⟩ []
  let docstring := part "expression_statement" none 30 34
    [part "string" none 30 34
      [part "string_start" none 30 31 [], part "string_content" none 31 33 [],
        part "string_end" none 33 34 []]]
  let method := part "function_definition" (some "definition") 16 43
    [token "def" 16 19, part "identifier" (some "name") 20 21 [],
      part "parameters" (some "parameters") 21 24
        [token "(" 21 22, part "identifier" none 22 23 [], token ")" 23 24],
      token ":" 24 25,
      part "block" (some "body") 30 43
        [docstring, part "pass_statement" none 39 43 [token "pass" 39 43]]]
  part "module" none 0 44
    [part "class_definition" none 0 43
      [token "class" 0 5, part "identifier" (some "name") 6 7 [], token ":" 7 8,
        part "block" (some "body") 11 43
          [part "decorated_definition" none 11 43
            [part "decorator" none 11 13 [token "@" 11 12, part "identifier" none 12 13 []],
              method]]]]

theorem placed_classFile : classFile.Every (Tree.Placed classText) := by
  simp only [classFile, Tree.Every.node_iff, List.forall_mem_cons, List.not_mem_nil,
    false_implies, implies_true]
  decide +kernel

theorem isPython_classFile : classFile.Every IsPython := by
  simp only [classFile, Tree.Every.node_iff, List.forall_mem_cons, List.not_mem_nil,
    false_implies, implies_true, and_true]
  constructorm* _ ∧ _
  all_goals try exact .of_kind (by decide)
  · -- the class
    exact ⟨(absurd · (by decide)), fun _ => rfl, (absurd · (by decide)),
      fun _ => ⟨⟨_, rfl⟩, [_, _, _], _, [], rfl, rfl, rfl, by decide⟩, (absurd · (by decide)),
      (absurd · (by decide))⟩
  · -- the decorated definition
    exact ⟨(absurd · (by decide)), fun _ => rfl, (absurd · (by decide)), (absurd · (by decide)),
      fun _ => ⟨[_], _, [], rfl, rfl, .inr rfl, by decide⟩, (absurd · (by decide))⟩
  · -- the method
    exact ⟨(absurd · (by decide)), fun _ => rfl, fun _ => ⟨by decide +kernel, _, rfl⟩,
      (absurd · (by decide)), (absurd · (by decide)), (absurd · (by decide))⟩
  · -- the docstring
    exact ⟨(absurd · (by decide)), (absurd · (by decide)), (absurd · (by decide)),
      (absurd · (by decide)), (absurd · (by decide)),
      fun _ => .last rfl rfl (.last rfl rfl (.token rfl (by decide +kernel)))⟩

theorem functionsOfBody_classFile : ∃ r, functionsOfBody (.ofText classText) none classFile = [r] ∧
    r.qualifiedName = some "A.m" ∧ r.docstring = some "M." := by
  have hone {src : Source} {scope : Option ClassScope} {n c : Tree} (h : n.namedChildren = [c]) :
      functionsOfBody src scope n = functionsOf src scope [] c := by
    rw [functionsOfBody_eq, h, List.flatMap_singleton]
  rw [hone rfl, functionsOf_class rfl rfl rfl, hone rfl, functionsOf_decorated rfl rfl (by decide),
    functionsOf_function rfl]
  refine ⟨_, rfl, rfl, ?_⟩
  change Option.map _ (docstring? classText _) = _
  rw [docstring?]
  change Option.map _ (Option.bind (stringValue? _ _) _) = _
  rw [stringValue?]
  decide +kernel

theorem enumerates_classFile : ∃ r, r.qualifiedName = some "A.m" ∧
    Enumerates classText classFile [r] := by
  obtain ⟨r, hrecords, hname, -⟩ := functionsOfBody_classFile
  exact ⟨r, hname, hrecords ▸ (enumerates classText).1 classFile placed_classFile
    isPython_classFile rfl⟩

/-! ### Functions and lines -/

/-- The record accounts for the lines of the function. -/
def AccountsFor (t : Text) (o : Tree.Occurrence) (r : FunctionRecord) : Prop :=
  ∃ above head doc tail below, Accounts t o.node r above head doc tail below

theorem forall₂_accountsFor (hplaced : n.Every (Tree.Placed t)) (hpython : n.Every IsPython)
    (hkind : n.kind = "module") :
    List.Forall₂ (AccountsFor t) (functions n) (functionsOfBody (.ofText t) none n) := by
  have hrecords := forall₂_functionsOfBody (t := t) hpython hkind
  have hwithin : ∀ o ∈ functions n, Within t n o.node := fun o =>
    within_of_mem_functionsBelow hplaced hpython
  refine ((List.forall₂_and_left _ _).2 ⟨hwithin, hrecords⟩).imp ?_
  rintro o r ⟨hwithin, hdescribes⟩
  exact exists_accounts hwithin.placed hwithin.python hwithin.kind hdescribes.lines

/-- Each record that is read off the tree of a file accounts for the lines of its function, and so
does each record of a text. -/
theorem accounts (t : Text) :
    (∀ n : Tree, n.Every (Tree.Placed t) → n.Every IsPython → n.kind = "module" →
      List.Forall₂ (AccountsFor t) (functions n) (functionsOfBody (.ofText t) none n)) ∧
    List.Forall₂ (AccountsFor t) (functionsOfText t) (extract t) := by
  refine ⟨fun n => forall₂_accountsFor, (forall₂_extract t).imp fun o r h => ?_⟩
  exact exists_accounts h.placed h.python h.kind h.describes.lines

theorem accounts_classFile : ∃ o r, r.docstring = some "M." ∧ functions classFile = [o] ∧
    AccountsFor classText o r := by
  obtain ⟨r, hrecords, -, hdocstring⟩ := functionsOfBody_classFile
  have haccounts := (accounts classText).1 classFile placed_classFile isPython_classFile rfl
  rw [hrecords] at haccounts
  obtain ⟨o, rest, ho, hrest, heq⟩ := List.forall₂_cons_right_iff.1 haccounts
  cases hrest
  exact ⟨o, r, hdocstring, heq, ho⟩

end Glossator.Python
