import Glossator.Proofs.Python.Lines

/-!
# The functions that are extracted

A node occurs in a tree below the nodes around it. The functions of a file are the function
definitions that occur below nothing but class definitions, bodies of classes and decorated
definitions, apart from the root; each has a record, in order.

* `Python.functions`: the function definitions of a file.
* `Python.statement_induction`: how the statements of a file or of the body of a class lead to
  functions.
* `Python.forall₂_functionsOfBody`: each function has its record.
-/

set_option autoImplicit false

namespace Glossator.Python

/-! ### Functions of a file -/

/-- Below the root there are only class definitions, bodies of classes and decorated definitions. -/
def inClasses : List Tree → Bool
  | [] => false
  | [_] => true
  | n :: parent :: rest =>
    (n.kind == "class_definition" || n.kind == "decorated_definition" ||
      (parent.kind == "class_definition" && n.info.role == some "body")) &&
    inClasses (parent :: rest)

/-- The functions at or below a node. -/
def functionsBelow (above : List Tree) (n : Tree) : List Tree.Occurrence :=
  (n.occurrences above).filter fun o =>
    o.node.kind == "function_definition" && inClasses o.above

/-- The functions of a file. -/
def functions (root : Tree) : List Tree.Occurrence := functionsBelow [] root

/-- The statements of a file or of the body of a class stand below these nodes, or a definition
behind decorators does. -/
structure Opens (above : List Tree) : Prop where
  inClasses : inClasses above = true
  head : ∀ parent ∈ above.head?, parent.kind ≠ "class_definition"

open Text (lineAt)

variable {t : Text} {n : Tree} {above : List Tree}

theorem functionsBelow_eq (above : List Tree) (n : Tree) :
    functionsBelow above n =
      (if n.kind == "function_definition" && inClasses above then [⟨above, n⟩] else []) ++
        n.children.flatMap (functionsBelow (n :: above)) := by
  unfold functionsBelow
  rw [Tree.occurrences_eq, List.filter_cons, List.filter_flatMap]
  split <;> simp_all

theorem functions_eq (n : Tree) : functions n = n.children.flatMap (functionsBelow [n]) := by
  rw [functions, functionsBelow_eq, inClasses, Bool.and_false, if_neg Bool.false_ne_true,
    List.nil_append]

theorem functionsBelow_eq_nil (hne : above ≠ []) (h : inClasses above = false) (n : Tree) :
    functionsBelow above n = [] := by
  induction n using Tree.induction generalizing above with
  | h n ih =>
    obtain ⟨parent, rest, rfl⟩ := List.exists_cons_of_ne_nil hne
    rw [functionsBelow_eq, h, Bool.and_false, if_neg Bool.false_ne_true, List.nil_append,
      List.flatMap_eq_nil_iff]
    intro c hc
    apply ih c hc (List.cons_ne_nil n _)
    rw [inClasses, h, Bool.and_false]

theorem functionsBelow_of_closed (h : inClasses (n :: above) = false) :
    functionsBelow above n =
      if n.kind == "function_definition" && inClasses above then [⟨above, n⟩] else [] := by
  have hbelow : n.children.flatMap (functionsBelow (n :: above)) = [] :=
    List.flatMap_eq_nil_iff.2 fun c _ => functionsBelow_eq_nil (List.cons_ne_nil n above) h c
  rw [functionsBelow_eq, hbelow, List.append_nil]

/-! ### From statement to statement -/

theorem mem_definitionKinds {kind : String} :
    kind ∈ definitionKinds ↔ kind = "function_definition" ∨ kind = "class_definition" ∨
      kind = "decorated_definition" := by
  simp [definitionKinds]

/-- The functions of a node with functions below one child only are those of the child. -/
theorem functionsBelow_of_child (hkind : n.kind ≠ "function_definition") {before behind : List Tree}
    {c : Tree} (hchildren : n.children = before ++ c :: behind)
    (hothers : ∀ d ∈ before ++ behind, functionsBelow (n :: above) d = []) :
    functionsBelow above n = functionsBelow (n :: above) c := by
  have hbefore : before.flatMap (functionsBelow (n :: above)) = [] :=
    List.flatMap_eq_nil_iff.2 fun d hd => hothers d (List.mem_append_left _ hd)
  have hbehind : behind.flatMap (functionsBelow (n :: above)) = [] :=
    List.flatMap_eq_nil_iff.2 fun d hd => hothers d (List.mem_append_right _ hd)
  rw [functionsBelow_eq, beq_false_of_ne hkind, Bool.false_and, if_neg Bool.false_ne_true,
    List.nil_append, hchildren, List.flatMap_append, List.flatMap_cons, hbefore, hbehind,
    List.nil_append, List.append_nil]

/-- The functions of a class are those of the statements of its body. -/
theorem functionsBelow_class (hkind : n.kind = "class_definition")
    {before behind : List Tree} {body : Tree} (hparts : ClassParts n.children before body behind) :
    functionsBelow above n = body.children.flatMap (functionsBelow (body :: n :: above)) := by
  have hothers (c : Tree) (hc : c ∈ before ++ behind) : functionsBelow (n :: above) c = [] := by
    obtain ⟨hrole, hckind⟩ := hparts.others c hc
    simp only [mem_definitionKinds, not_or] at hckind
    obtain ⟨hfunction, hclass, hdecorated⟩ := hckind
    have hclosed : inClasses (c :: n :: above) = false := by
      simp [inClasses, hclass, hdecorated, hrole]
    simp [functionsBelow_of_closed hclosed, hfunction]
  rw [functionsBelow_of_child (hkind ▸ by decide) hparts.children_eq hothers,
    functionsBelow_eq (n :: above) body, hparts.kind]
  simp

namespace Opens

theorem ne_nil (h : Opens above) : above ≠ [] := by
  rintro rfl
  exact Bool.false_ne_true h.inClasses

/-- No function is below a node that is no class, no body of one and no decorated definition. -/
theorem inClasses_cons (h : Opens above) (n : Tree) :
    Python.inClasses (n :: above) =
      (n.kind == "class_definition" || n.kind == "decorated_definition") := by
  obtain ⟨parent, rest, rfl⟩ := List.exists_cons_of_ne_nil h.ne_nil
  have hparent := h.head parent rfl
  simp [Python.inClasses, h.inClasses, hparent]

theorem functionsBelow_other (h : Opens above) (hkind : n.kind ∉ definitionKinds) :
    functionsBelow above n = [] := by
  simp only [mem_definitionKinds, not_or] at hkind
  obtain ⟨hfunction, hclass, hdecorated⟩ := hkind
  have hclosed : Python.inClasses (n :: above) = false := by
    simp [h.inClasses_cons, hclass, hdecorated]
  simp [functionsBelow_of_closed hclosed, hfunction]

theorem functionsBelow_function (h : Opens above) (hkind : n.kind = "function_definition") :
    functionsBelow above n = [⟨above, n⟩] := by
  have hclosed : Python.inClasses (n :: above) = false := by
    simp [h.inClasses_cons, hkind]
  simp [functionsBelow_of_closed hclosed, hkind, h.inClasses]

theorem body (h : Opens above) (hkind : n.kind = "class_definition")
    {before behind : List Tree} {body : Tree} (hparts : ClassParts n.children before body behind) :
    Opens (body :: n :: above) := by
  obtain ⟨parent, rest, rfl⟩ := List.exists_cons_of_ne_nil h.ne_nil
  constructor
  · simp [Python.inClasses, hkind, hparts.role, h.inClasses]
  · intro parent hparent
    cases hparent
    rw [hparts.kind]
    decide

theorem decorated (h : Opens above) (hkind : n.kind = "decorated_definition") :
    Opens (n :: above) := by
  constructor
  · simp [h.inClasses_cons, hkind]
  · intro parent hparent
    cases hparent
    rw [hkind]
    decide

/-- The functions of a decorated definition are those of the definition. -/
theorem functionsBelow_decorated (h : Opens above) (hkind : n.kind = "decorated_definition")
    {before behind : List Tree} {definition : Tree}
    (hparts : DecoratedParts n.children before definition behind) :
    functionsBelow above n = functionsBelow (n :: above) definition := by
  apply functionsBelow_of_child (hkind ▸ by decide) hparts.children_eq
  exact fun c hc => (h.decorated hkind).functionsBelow_other (hparts.others c hc).2

end Opens

/-- What holds of the statements of a file or of the body of a class: of a function definition, of a
class definition from the statements of its body, of a decorated definition from the definition, and
of every other statement. -/
theorem statement_induction {motive : List Tree → Tree → Prop}
    (function : ∀ above n, Opens above → n.Every IsPython → n.kind = "function_definition" →
      motive above n)
    (classes : ∀ above n before body behind, Opens above → n.Every IsPython →
      n.kind = "class_definition" → ClassParts n.children before body behind →
      (∀ c ∈ body.children, motive (body :: n :: above) c) → motive above n)
    (decorated : ∀ above n before definition behind, Opens above → n.Every IsPython →
      n.kind = "decorated_definition" → DecoratedParts n.children before definition behind →
      motive (n :: above) definition → motive above n)
    (other : ∀ above n, Opens above → n.kind ∉ definitionKinds → motive above n)
    (hpython : n.Every IsPython) (hopens : Opens above) : motive above n := by
  have hboth : (∀ above, Opens above → motive above n) ∧
      ∀ c ∈ n.children, ∀ above, Opens above → motive above c := by
    clear hopens
    induction hpython with
    | @mk n here below ih =>
      refine ⟨?_, fun c hc => (ih c hc).1⟩
      intro above hopens
      have hpython : n.Every IsPython := .mk here below
      by_cases hfunction : n.kind = "function_definition"
      · exact function above n hopens hpython hfunction
      by_cases hclass : n.kind = "class_definition"
      · obtain ⟨-, before, body, behind, hparts⟩ := here.classParts hclass
        have hbody : body ∈ n.children := by simp [hparts.children_eq]
        apply classes above n before body behind hopens hpython hclass hparts
        intro c hc
        exact (ih body hbody).2 c hc _ (hopens.body hclass hparts)
      by_cases hdecorated : n.kind = "decorated_definition"
      · obtain ⟨before, definition, behind, hparts⟩ := here.decoratedParts hdecorated
        have hdefinition : definition ∈ n.children := by simp [hparts.children_eq]
        apply decorated above n before definition behind hopens hpython hdecorated hparts
        exact (ih definition hdefinition).1 _ (hopens.decorated hdecorated)
      · apply other above n hopens
        simp [mem_definitionKinds, hfunction, hclass, hdecorated]
  exact hboth.1 above hopens

/-! ### The records of functions -/

section Equations

variable {src : Source} {scope : Option ClassScope} {decorators : List Text}

theorem functionsOf_function (hkind : n.kind = "function_definition") :
    functionsOf src scope decorators n = (record? src scope decorators n).toList := by
  rw [functionsOf]
  simp [hkind]

theorem functionsOf_class (hkind : n.kind = "class_definition") {name body : Tree}
    (hname : n.child? "name" = some name) (hbody : n.child? "body" = some body) :
    functionsOf src scope decorators n =
      functionsOfBody src (some (classScope src scope name body)) body := by
  rw [functionsOf]
  simp only [hkind]
  split <;> simp_all

theorem functionsOf_decorated (hkind : n.kind = "decorated_definition") {definition : Tree}
    (hdefinition : n.child? "definition" = some definition)
    (hne : definition.kind ≠ "decorated_definition") :
    functionsOf src scope decorators n = functionsOf src scope
      ((n.namedChildren.filter (·.kind == "decorator")).map (decoratorText src.text))
      definition := by
  rw [functionsOf]
  simp only [hkind]
  split <;> simp_all

theorem functionsOf_other (hkind : n.kind ∉ definitionKinds) :
    functionsOf src scope decorators n = [] := by
  simp only [mem_definitionKinds, not_or] at hkind
  rw [functionsOf]
  split <;> simp_all

theorem functionsOfBody_eq (n : Tree) :
    functionsOfBody src scope n = n.namedChildren.flatMap (functionsOf src scope []) := by
  rw [functionsOfBody]
  unfold Tree.namedChildren
  rw [List.flatMap_subtype (g := functionsOf src scope []) (fun _ _ => rfl)]
  have hnamed : (n.children.attach.filter fun c => c.1.info.named).unattach =
      n.children.attach.unattach.filter fun c => c.info.named := by
    apply List.unattach_filter
    exact fun _ _ => rfl
  rw [hnamed, List.unattach_attach]

end Equations

/-! ### What a record says of its function -/

/-- The name of a definition. -/
def definitionName (source : Text) (definition : Tree) : Text :=
  ((definition.child? "name").map (Tree.text · source)).getD []

/-- The dedented docstring in the body of a definition. -/
def definitionDocstring? (source : Text) (definition : Tree) : Option Text :=
  ((definition.child? "body").bind (docstring? source)).map Docstring.value

/-- The classes around a node, the innermost first. -/
def enclosingClasses (above : List Tree) : List Tree :=
  above.filter fun n => n.kind == "class_definition"

/-- The names of definitions from the outermost on, joined by dots. -/
def dottedPath (source : Text) (definitions : List Tree) : Text :=
  Text.join ['.'] (definitions.reverse.map (definitionName source))

/-- The record is that of the function, in the classes around it. -/
structure Describes (t : Text) (o : Tree.Occurrence) (r : FunctionRecord) : Prop where
  name : r.name = some (String.ofList (definitionName t o.node))
  qualifiedName : r.qualifiedName =
    some (String.ofList (dottedPath t (o.node :: enclosingClasses o.above)))
  className : r.className =
    (enclosingClasses o.above).head?.map fun c => String.ofList (definitionName t c)
  classDescription : r.classDescription =
    ((enclosingClasses o.above).head?.bind (definitionDocstring? t)).map String.ofList
  isMethod : r.isMethod = true ↔ enclosingClasses o.above ≠ []
  isConstructor : r.isConstructor = true ↔
    enclosingClasses o.above ≠ [] ∧ definitionName t o.node = "__init__".toList
  lines : LineFields t o.node r

/-- The scope that the classes around a node open. -/
inductive ScopeOf (t : Text) : List Tree → Option ClassScope → Prop where
  | none : ScopeOf t [] none
  | some {c : Tree} {rest : List Tree} {scope : ClassScope} :
      scope.name = definitionName t c → scope.path = dottedPath t (c :: rest) →
      scope.description = definitionDocstring? t c → ScopeOf t (c :: rest) (some scope)

theorem dottedPath_singleton (t : Text) (c : Tree) : dottedPath t [c] = definitionName t c := by
  simp [dottedPath, Text.join]

theorem join_concat (a : Text) (names : List Text) (name : Text) :
    Text.join ['.'] (a :: names ++ [name]) = Text.join ['.'] (a :: names) ++ '.' :: name := by
  unfold Text.join
  induction names generalizing a with
  | nil => simp
  | cons b names ih => simpa using ih b

theorem dottedPath_cons (t : Text) (c d : Tree) (rest : List Tree) :
    dottedPath t (c :: d :: rest) = dottedPath t (d :: rest) ++ '.' :: definitionName t c := by
  unfold dottedPath
  rw [List.reverse_cons, List.map_append]
  cases hnames : ((d :: rest).reverse.map (definitionName t)) with
  | nil => simp at hnames
  | cons a names => exact join_concat a names (definitionName t c)

theorem describes_of_record? {o : Tree.Occurrence} {r : FunctionRecord}
    {scope : Option ClassScope} {decorators : List Text}
    (hscope : ScopeOf t (enclosingClasses o.above) scope)
    (hr : record? (.ofText t) scope decorators o.node = some r) : Describes t o r := by
  have hlines := lineFields_of_record? hr
  obtain ⟨name, hname, rfl⟩ := Option.map_eq_some_iff.1 hr
  have hnode : definitionName t o.node = name.text t := by simp [definitionName, hname]
  generalize hclasses : enclosingClasses o.above = classes at hscope
  cases hscope with
  | none =>
    refine ⟨?_, ?_, ?_, ?_, ?_, ?_, hlines⟩
    · rw [hnode]; rfl
    · rw [hclasses, dottedPath_singleton, hnode]; rfl
    · rw [hclasses]; rfl
    · rw [hclasses]; rfl
    · simp [hclasses]
    · simp [hclasses]
  | some hscopeName hpath hdescription =>
    refine ⟨?_, ?_, ?_, ?_, ?_, ?_, hlines⟩
    · rw [hnode]; rfl
    · rw [hclasses, dottedPath_cons, ← hpath, hnode]; rfl
    · simp [hclasses, hscopeName]
    · simp [hclasses, hdescription]
    · simp [hclasses]
    · simp only [hclasses, hnode]
      simp
      rfl

/-! ### Each function has its record -/

theorem exists_record? (src : Source) (scope : Option ClassScope) (decorators : List Text)
    {name : Tree} (hname : n.child? "name" = some name) :
    ∃ r, record? src scope decorators n = some r := by
  unfold record?
  rw [hname]
  exact ⟨_, rfl⟩

theorem scopeOf_class {outer : Option ClassScope}
    (hscope : ScopeOf t (enclosingClasses above) outer) {name body : Tree}
    (hname : n.child? "name" = some name) (hbody : n.child? "body" = some body) :
    ScopeOf t (n :: enclosingClasses above) (some (classScope (.ofText t) outer name body)) := by
  have hn : definitionName t n = name.text t := by simp [definitionName, hname]
  refine .some hn.symm ?_ ?_
  · generalize enclosingClasses above = classes at hscope
    cases hscope with
    | none =>
      rw [dottedPath_singleton, hn]
      rfl
    | some _ hpath _ =>
      rw [dottedPath_cons, ← hpath, hn]
      rfl
  · unfold definitionDocstring?
    rw [hbody]
    rfl

theorem ClassParts.child?_body {before behind : List Tree} {body : Tree}
    (h : ClassParts n.children before body behind) : n.child? "body" = some body :=
  Tree.child?_of_children_eq h.children_eq h.role fun c hc =>
    (h.others c (List.mem_append_left _ hc)).1

theorem DecoratedParts.child?_definition {before behind : List Tree} {definition : Tree}
    (h : DecoratedParts n.children before definition behind) :
    n.child? "definition" = some definition :=
  Tree.child?_of_children_eq h.children_eq h.role fun c hc =>
    (h.others c (List.mem_append_left _ hc)).1

section Records

variable {scope : Option ClassScope} {R : Tree.Occurrence → FunctionRecord → Prop}

/-- What holds of every record that is made of a node in its scope. -/
def HoldsOfRecords (t : Text) (R : Tree.Occurrence → FunctionRecord → Prop) : Prop :=
  ∀ ⦃o r scope decorators⦄, ScopeOf t (enclosingClasses o.above) scope →
    record? (.ofText t) scope decorators o.node = some r → R o r

/-- What is true of the statements of a body one by one is true of the body. -/
theorem forall₂_functionsOfBody_of (hpython : n.Every IsPython) (hopens : Opens (n :: above))
    (hchildren : ∀ c ∈ n.children, List.Forall₂ R (functionsBelow (n :: above) c)
      (functionsOf (.ofText t) scope [] c)) :
    List.Forall₂ R (n.children.flatMap (functionsBelow (n :: above)))
      (functionsOfBody (.ofText t) scope n) := by
  have hunnamed (c : Tree) (hc : c ∈ n.children) (hnamed : c.info.named = false) :
      functionsBelow (n :: above) c = [] := by
    apply hopens.functionsBelow_other
    intro hkind
    rw [(hpython.child hc).here.named hkind] at hnamed
    cases hnamed
  rw [functionsOfBody_eq, Tree.namedChildren]
  generalize n.children = children at hchildren hunnamed
  induction children with
  | nil => exact .nil
  | cons c rest ih =>
    have hrest := ih (fun d hd => hchildren d (List.mem_cons_of_mem c hd))
      (fun d hd => hunnamed d (List.mem_cons_of_mem c hd))
    rw [List.flatMap_cons, List.filter_cons]
    by_cases hnamed : c.info.named = true
    · rw [if_pos hnamed, List.flatMap_cons]
      exact List.rel_append (hchildren c List.mem_cons_self) hrest
    · rw [if_neg hnamed, hunnamed c List.mem_cons_self (Bool.eq_false_iff.2 hnamed)]
      exact hrest

theorem forall₂_functionsOf (hR : HoldsOfRecords t R) (hpython : n.Every IsPython)
    (hopens : Opens above) (hscope : ScopeOf t (enclosingClasses above) scope)
    (decorators : List Text) :
    List.Forall₂ R (functionsBelow above n) (functionsOf (.ofText t) scope decorators n) := by
  revert scope decorators
  refine statement_induction (motive := fun above n => ∀ {scope},
    ScopeOf t (enclosingClasses above) scope → ∀ decorators,
      List.Forall₂ R (functionsBelow above n)
        (functionsOf (.ofText t) scope decorators n)) ?_ ?_ ?_ ?_ hpython hopens
  · intro above n hopens hpython hkind scope hscope decorators
    obtain ⟨-, name, hname⟩ := hpython.here.function hkind
    obtain ⟨r, hr⟩ := exists_record? (.ofText t) scope decorators hname
    rw [hopens.functionsBelow_function hkind, functionsOf_function hkind, hr]
    exact .cons (hR hscope hr) .nil
  · intro above n before body behind hopens hpython hkind hparts ih scope hscope decorators
    obtain ⟨⟨name, hname⟩, -⟩ := hpython.here.classParts hkind
    have hbody := hparts.child?_body
    have hscope' : ScopeOf t (enclosingClasses (body :: n :: above))
        (some (classScope (.ofText t) scope name body)) := by
      have hclasses : enclosingClasses (body :: n :: above) = n :: enclosingClasses above := by
        simp [enclosingClasses, hparts.kind, hkind]
      rw [hclasses]
      exact scopeOf_class hscope hname hbody
    rw [functionsBelow_class hkind hparts, functionsOf_class hkind hname hbody]
    exact forall₂_functionsOfBody_of (hpython.child (mem_children_of_child? hbody))
      (hopens.body hkind hparts) fun c hc => ih c hc hscope' []
  · intro above n before definition behind hopens hpython hkind hparts ih scope hscope decorators
    have hne : definition.kind ≠ "decorated_definition" := by
      rcases hparts.kind with h | h
      all_goals
        rw [h]
        decide
    have hscope' : ScopeOf t (enclosingClasses (n :: above)) scope := by
      have hclasses : enclosingClasses (n :: above) = enclosingClasses above := by
        simp [enclosingClasses, hkind]
      rwa [hclasses]
    rw [hopens.functionsBelow_decorated hkind hparts,
      functionsOf_decorated hkind hparts.child?_definition hne]
    exact ih hscope' _
  · intro above n hopens hkind scope hscope decorators
    rw [hopens.functionsBelow_other hkind, functionsOf_other hkind]
    exact .nil

end Records

/-- The root of a file opens it. -/
theorem opens_root (hkind : n.kind = "module") : Opens [n] := by
  constructor
  · rfl
  · intro parent hparent
    cases hparent
    rw [hkind]
    decide

/-- What holds of records holds of each function of a file and its record, in order. -/
theorem forall₂_functionsOfBody_of_record {R : Tree.Occurrence → FunctionRecord → Prop}
    (hR : HoldsOfRecords t R) (hpython : n.Every IsPython) (hkind : n.kind = "module") :
    List.Forall₂ R (functions n) (functionsOfBody (.ofText t) none n) := by
  have hopens := opens_root hkind
  have hclasses : enclosingClasses [n] = [] := by simp [enclosingClasses, hkind]
  rw [functions_eq]
  apply forall₂_functionsOfBody_of hpython hopens
  intro c hc
  apply forall₂_functionsOf hR (hpython.child hc) hopens
  rw [hclasses]
  exact .none

/-- Each function of a file has its record, in order. -/
theorem forall₂_functionsOfBody (hpython : n.Every IsPython) (hkind : n.kind = "module") :
    List.Forall₂ (Describes t) (functions n) (functionsOfBody (.ofText t) none n) :=
  forall₂_functionsOfBody_of_record (fun _ _ _ _ => describes_of_record?) hpython hkind

/-! ### Where the functions stand -/

/-- A function within a node, code and all. -/
structure Within (t : Text) (n f : Tree) : Prop where
  kind : f.kind = "function_definition"
  placed : f.Every (Tree.Placed t)
  python : f.Every IsPython
  lt : f.start.offset < f.stop.offset
  start : n.start.offset ≤ f.start.offset
  stop : f.stop.offset ≤ n.stop.offset
  code : codeEndLine f ≤ codeEndLine n

theorem within_of_mem_functionsBelow (hplaced : n.Every (Tree.Placed t))
    (hpython : n.Every IsPython) {o : Tree.Occurrence} (ho : o ∈ functionsBelow above n) :
    Within t n o.node := by
  induction hplaced generalizing above with
  | @mk n here below ih =>
    rw [functionsBelow_eq, List.mem_append, List.mem_flatMap] at ho
    rcases ho with ho | ⟨c, hc, ho⟩
    · obtain ⟨hboth, ho⟩ := List.mem_ite_nil_right.1 ho
      obtain rfl := List.mem_singleton.1 ho
      have hkind : n.kind = "function_definition" := eq_of_beq (Bool.and_eq_true_iff.1 hboth).1
      exact ⟨hkind, .mk here below, hpython, (hpython.here.function hkind).1, le_rfl, le_rfl,
        le_rfl⟩
    · have hwithin := ih c hc (hpython.child hc) ho
      obtain ⟨hstart, hstop⟩ := here.inside c hc
      have hlt := hwithin.lt
      have hcstart := hwithin.start
      have hcstop := hwithin.stop
      have hcode : c ∈ codeChildren n.children := by
        refine mem_codeChildren.2 ⟨hc, ?_, by omega⟩
        intro hcomment
        rw [functionsBelow_eq, (hpython.child hc).here.comment hcomment, hcomment] at ho
        simp at ho
      exact ⟨hwithin.kind, hwithin.placed, hwithin.python, hlt, by omega, by omega,
        hwithin.code.trans (codeEndLine_le_of_mem (.mk here below) hcode)⟩

/-- The node is a file or the body of a class, or looks like one. -/
def IsBody (n : Tree) : Prop := n.kind = "module" ∨ n.kind = "block"

/-- The functions of different statements of a body are related. -/
def Related (R : Tree → Tree → Prop) (n : Tree) : Prop :=
  IsBody n → ∀ above, Opens (n :: above) → n.children.Pairwise fun c d =>
    ∀ o ∈ functionsBelow (n :: above) c, ∀ o' ∈ functionsBelow (n :: above) d, R o.node o'.node

/-- Functions are related if those of different statements of each body are. -/
theorem pairwise_functionsBelow {R : Tree → Tree → Prop} (hpython : n.Every IsPython)
    (hopens : Opens above) (hrelated : n.Every (Related R)) :
    (functionsBelow above n).Pairwise fun o o' => R o.node o'.node := by
  revert hrelated
  refine statement_induction (motive := fun above n => n.Every (Related R) →
    (functionsBelow above n).Pairwise fun o o' => R o.node o'.node) ?_ ?_ ?_ ?_ hpython hopens
  · intro above n hopens _ hkind _
    rw [hopens.functionsBelow_function hkind]
    exact List.pairwise_singleton _ _
  · intro above n before body behind hopens _ hkind hparts ih hrelated
    have hbody := hrelated.child (mem_children_of_child? hparts.child?_body)
    rw [functionsBelow_class hkind hparts, List.pairwise_flatMap]
    exact ⟨fun c hc => ih c hc (hbody.child hc),
      hbody.here (.inr hparts.kind) _ (hopens.body hkind hparts)⟩
  · intro above n before definition behind hopens _ hkind hparts ih hrelated
    rw [hopens.functionsBelow_decorated hkind hparts]
    exact ih (hrelated.child (mem_children_of_child? hparts.child?_definition))
  · intro above n hopens hkind _
    rw [hopens.functionsBelow_other hkind]
    exact .nil

theorem pairwise_functions {R : Tree → Tree → Prop} (hpython : n.Every IsPython)
    (hkind : n.kind = "module") (hrelated : n.Every (Related R)) :
    (functions n).Pairwise fun o o' => R o.node o'.node := by
  have hopens := opens_root hkind
  rw [functions_eq, List.pairwise_flatMap]
  exact ⟨fun c hc => pairwise_functionsBelow (hpython.child hc) hopens (hrelated.child hc),
    hrelated.here (.inl hkind) _ hopens⟩

/-- Two nodes share a line. -/
def ShareLine (a b : Tree) : Prop :=
  ∃ line, (lineSpan a).1 ≤ line ∧ line ≤ (lineSpan a).2 ∧ (lineSpan b).1 ≤ line ∧
    line ≤ (lineSpan b).2

/-- The statements of a body. -/
def statements (n : Tree) : List Tree := n.namedChildren.filter fun c => !c.isComment

/-- No two statements of the body share a line. -/
def StatementsApart (n : Tree) : Prop :=
  IsBody n → (statements n).Pairwise fun a b => ¬ShareLine a b

theorem related_order (hplaced : n.Every (Tree.Placed t)) (hpython : n.Every IsPython) :
    n.Every (Related fun f g => f.stop.offset ≤ g.start.offset) := by
  induction hplaced with
  | @mk n here below ih =>
    refine .mk ?_ fun c hc => ih c hc (hpython.child hc)
    intro _ above _
    refine here.ordered.imp_of_mem ?_
    intro c d hc hd hle o ho o' ho'
    have hwithin := within_of_mem_functionsBelow (below c hc) (hpython.child hc) ho
    have hwithin' := within_of_mem_functionsBelow (below d hd) (hpython.child hd) ho'
    exact hwithin.stop.trans (hle.trans hwithin'.start)

theorem related_lines (hplaced : n.Every (Tree.Placed t)) (hpython : n.Every IsPython)
    (hapart : n.Every StatementsApart) :
    n.Every (Related fun f g => codeEndLine f < g.start.row + 1) := by
  induction hplaced with
  | @mk n here below ih =>
    refine .mk ?_ fun c hc => ih c hc (hpython.child hc) (hapart.child hc)
    intro hbody above hopens
    have hchildren := hapart.here hbody
    unfold statements Tree.namedChildren at hchildren
    rw [List.filter_filter, List.pairwise_filter] at hchildren
    refine (here.ordered.and hchildren).imp_of_mem ?_
    rintro c d hc hd ⟨hle, hnot⟩ o ho o' ho'
    have hstatement (e : Tree) (he : e ∈ n.children) (o : Tree.Occurrence)
        (ho : o ∈ functionsBelow (n :: above) e) : (!e.isComment && e.info.named) = true := by
      have hdefinition : e.kind ∈ definitionKinds := by
        by_contra hother
        rw [hopens.functionsBelow_other hother] at ho
        exact List.not_mem_nil ho
      have hnamed := (hpython.child he).here.named hdefinition
      have hcomment : e.kind ≠ "comment" := by
        rintro heq
        rw [heq] at hdefinition
        revert hdefinition
        decide
      simp [hnamed, Tree.isComment, hcomment]
    have hwithin := within_of_mem_functionsBelow (below c hc) (hpython.child hc) ho
    have hwithin' := within_of_mem_functionsBelow (below d hd) (hpython.child hd) ho'
    have hclt : c.start.offset < c.stop.offset :=
      hwithin.start.trans_lt (hwithin.lt.trans_le hwithin.stop)
    have hdlt : d.start.offset < d.stop.offset :=
      hwithin'.start.trans_lt (hwithin'.lt.trans_le hwithin'.stop)
    have hcspan := lineSpan_eq (below c hc).here.start (below c hc).here.stop hclt
    have hdspan := lineSpan_eq (below d hd).here.start (below d hd).here.stop hdlt
    have hspans : lineAt t (c.stop.offset - 1) < lineAt t d.start.offset := by
      by_contra hge
      apply hnot (hstatement c hc o ho) (hstatement d hd o' ho')
      refine ⟨lineAt t d.start.offset, ?_, ?_, ?_, ?_⟩
      · rw [hcspan]
        exact Text.lineAt_mono (by omega)
      · rw [hcspan]
        exact Nat.le_of_not_lt hge
      · rw [hdspan]
      · rw [hdspan]
        exact Text.lineAt_mono (by omega)
    rw [hwithin'.placed.here.start.row_add_one]
    calc codeEndLine o.node ≤ codeEndLine c := hwithin.code
      _ ≤ lineAt t (c.stop.offset - 1) := codeEndLine_le_lineAt (below c hc) hclt
      _ < lineAt t d.start.offset := hspans
      _ ≤ lineAt t o'.node.start.offset := Text.lineAt_mono hwithin'.start

/-- What relates the members of one list relates those of a list that matches it. -/
theorem pairwise_of_forall₂ {α β : Type} {S : α → β → Prop} {R : α → α → Prop} {R' : β → β → Prop}
    (hR : ∀ a a' b b', S a b → S a' b' → R a a' → R' b b') {as : List α} {bs : List β}
    (hmatch : List.Forall₂ S as bs) (h : as.Pairwise R) : bs.Pairwise R' := by
  induction hmatch with
  | nil => exact .nil
  | @cons a b as bs hab hmatch ih =>
    obtain ⟨ha, has⟩ := List.pairwise_cons.1 h
    refine List.pairwise_cons.2 ⟨?_, ih has⟩
    intro b' hb'
    obtain ⟨i, hi, rfl⟩ := List.getElem_of_mem hb'
    have hi' : i < as.length := by rwa [hmatch.length_eq]
    exact hR a as[i] b bs[i] hab (hmatch.get hi' hi) (ha _ (List.getElem_mem hi'))

end Glossator.Python
