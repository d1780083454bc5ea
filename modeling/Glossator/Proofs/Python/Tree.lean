import Glossator.Proofs.Tree
import Glossator.Python.Extraction

/-!
# Trees of Python texts

What the nodes of the tree of a Python text look like, as far as extraction depends on it.

* `Python.IsPython`: what a node has for children, by its kind.
* `Python.EndsInCode`: a tree that ends with its last token.
-/

set_option autoImplicit false

namespace Glossator.Python

/-- The kinds of definitions, decorated or not. -/
def definitionKinds : List String :=
  ["function_definition", "class_definition", "decorated_definition"]

/-- The tree ends where the last of its tokens ends, and that is not a comment. -/
inductive EndsInCode : Tree → Prop where
  | token {n : Tree} : codeChildren n.children = [] → n.start.offset < n.stop.offset → EndsInCode n
  | last {n c : Tree} :
      (codeChildren n.children).getLast? = some c → c.stop = n.stop → EndsInCode c → EndsInCode n

/-- The body of a class is its only child in that role, and no other child is a definition. -/
structure ClassParts (children before : List Tree) (body : Tree) (behind : List Tree) : Prop where
  children_eq : children = before ++ body :: behind
  role : body.info.role = some "body"
  kind : body.kind = "block"
  others : ∀ c ∈ before ++ behind, c.info.role ≠ some "body" ∧ c.kind ∉ definitionKinds

/-- The definition behind decorators is the only child that is a definition. -/
structure DecoratedParts (children before : List Tree) (definition : Tree) (behind : List Tree) :
    Prop where
  children_eq : children = before ++ definition :: behind
  role : definition.info.role = some "definition"
  kind : definition.kind = "class_definition" ∨ definition.kind = "function_definition"
  others : ∀ c ∈ before ++ behind, c.info.role ≠ some "definition" ∧ c.kind ∉ definitionKinds

/-- What a node of a Python text looks like. -/
structure IsPython (n : Tree) : Prop where
  comment : n.kind = "comment" → n.children = []
  named : n.kind ∈ definitionKinds → n.info.named = true
  function : n.kind = "function_definition" →
    n.start.offset < n.stop.offset ∧ ∃ name, n.child? "name" = some name
  classParts : n.kind = "class_definition" →
    (∃ name, n.child? "name" = some name) ∧
      ∃ before body behind, ClassParts n.children before body behind
  decoratedParts : n.kind = "decorated_definition" →
    ∃ before definition behind, DecoratedParts n.children before definition behind
  statement : n.kind = "expression_statement" → EndsInCode n

/-- How a node looks matters for comments, for statements of an expression and for definitions. -/
theorem IsPython.of_kind {n : Tree}
    (hkind : n.kind ∉ "comment" :: "expression_statement" :: definitionKinds) : IsPython n := by
  simp only [List.mem_cons, not_or] at hkind
  obtain ⟨hcomment, hstatement, hdefinition⟩ := hkind
  have hkinds := hdefinition
  simp only [definitionKinds, List.mem_cons, List.not_mem_nil, or_false, not_or] at hkinds
  obtain ⟨hfunction, hclass, hdecorated⟩ := hkinds
  exact ⟨(absurd · hcomment), (absurd · hdefinition), (absurd · hfunction), (absurd · hclass),
    (absurd · hdecorated), (absurd · hstatement)⟩

end Glossator.Python
