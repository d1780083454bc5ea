import Glossator.Proofs.Grammar.Table
import Glossator.Proofs.Python.Token
import Glossator.Proofs.Python.Tree

/-!
# The productions of the Python grammar

What the nodes of Python trees look like is read off the productions of the grammar, all of which
are inspected.

* `Python.regular_grammar`: the grammar is regular.
* `Python.productionOk_of_mem`: the productions have the form that extraction relies on.
-/

set_option autoImplicit false

namespace Glossator.Python

open Grammar

/-! ### What is inspected -/

/-- The kinds of what may stand anywhere: comments and joined lines. -/
def looseKinds : List String := ["comment", "line_continuation"]

/-- The kinds of parameter lists and of parameters that are made of parts. -/
def parameterKinds : List String := ["parameters", "typed_parameter", "default_parameter",
  "typed_default_parameter", "list_splat_pattern", "dictionary_splat_pattern",
  "positional_separator", "keyword_separator"]

/-- Kinds of nodes that stand for the rules of these names only. -/
def reservedKinds : List String :=
  "expression_statement" :: "string" :: (looseKinds ++ definitionKinds ++ parameterKinds)

/-- Rules whose constructs end with a visible token. -/
def endingRules : List String := [
  "expression_statement", "expression", "assignment", "augmented_assignment", "yield",
  "comparison_operator", "not_operator", "boolean_operator", "lambda", "primary_expression",
  "conditional_expression", "named_expression", "as_pattern", "_right_hand_side", "type",
  "expression_list", "splat_type", "generic_type", "union_type", "constrained_type", "member_type",
  "await", "binary_operator", "string", "concatenated_string", "true", "false", "none",
  "unary_operator", "attribute", "subscript", "call", "list", "list_comprehension", "dictionary",
  "dictionary_comprehension", "set", "set_comprehension", "tuple", "parenthesized_expression",
  "generator_expression", "ellipsis", "list_splat_pattern", "pattern_list", "type_parameter",
  "argument_list", "pattern", "tuple_pattern", "list_pattern"]

/-- Tokens that may take up no text. -/
def emptyTokens : List String := [endOfText, "_newline", "_indent", "_dedent", "_string_content"]

/-- Tokens that may start with any character. -/
def innerTokens : List String := emptyTokens ++ ["escape_interpolation", "string_end",
  "_format_text", "escape_sequence", "_not_escape_sequence"]

/-- Tokens that the lexer knows by name. -/
def namedTokens : List String := ["identifier", "_newline", "_indent", "_dedent", "string_start",
  "_string_content", "escape_interpolation", "string_end", "integer", "float", "type_conversion",
  "_format_text", "escape_sequence", "_not_escape_sequence"]

/-- Tokens of no fixed spelling. -/
def valueTokens : List String := endOfText :: namedTokens

/-- The token is shown and takes up text. -/
def isSolid (name : String) : Bool := !name.startsWith "_" && !emptyTokens.contains name

/-- What a rule stands for ends with a visible token. -/
def endsVisibly : Rule → Bool
  | .literal name | .token name => isSolid name
  | .rule name => endingRules.contains name
  | .andThen _ b => endsVisibly b
  | .orElse a b => endsVisibly a && endsVisibly b
  | _ => false

/-- Constructs of the element end with a visible token. -/
def isEnding : Element → Bool
  | .literal name | .token name => isSolid name
  | .rule name => endingRules.contains name
  | .again body => endsVisibly body

/-- The step shows a tree at the end of which stands a visible token. -/
def isEndingStep (s : Step) : Bool :=
  isEnding s.element || s.shownAs.isSome && s.element.tokenName?.any (!emptyTokens.contains ·)

/-- The element has productions, or is a token. -/
def isKnown : Element → Bool
  | .rule name => grammar.rules.any fun r => r.1 == name && !grammar.inlined.contains name
  | .again body => (grammar.rules.flatMap fun r => r.2.repeated).contains body
  | .literal spelling =>
    spelling.toList.head?.any Token.isOpening && !valueTokens.contains spelling
  | .token name => namedTokens.contains name

/-- The element is known, and the step shows nothing of a reserved kind. -/
def isRegularStep (s : Step) : Bool :=
  isKnown s.element && s.shownAs.all (!reservedKinds.contains ·) &&
    s.element.tokenName?.all (!reservedKinds.contains ·)

/-- The step shows no tree in the role, and no definition. -/
def isAside (role : String) (s : Step) : Bool :=
  s.shownAs.isNone && match s.element with
    | .literal name | .token name => name.startsWith "_" || s.role != some role
    | .rule name =>
      s.role != some role && (grammar.showing (.rule name)).visible &&
        !definitionKinds.contains name
    | .again body => s.role.isNone && body == .rule "decorator"

/-- The step shows the body of a class. -/
def isBodyStep (s : Step) : Bool :=
  s.role == some "body" &&
    (s.shownAs == some "block" || s.shownAs.isNone && s.element == .rule "block")

/-- The step shows the definition behind decorators. -/
def isDefinitionStep (s : Step) : Bool :=
  s.role == some "definition" && s.shownAs.isNone &&
    (s.element == .rule "class_definition" || s.element == .rule "function_definition")

/-- The step shows a name. -/
def isNameStep (s : Step) : Bool :=
  s.role == some "name" && s.shownAs.isNone && s.element == .token "identifier"

/-- The step reads decorators. -/
def isDecoratorStep (s : Step) : Bool :=
  s.role.isNone && s.shownAs.isNone &&
    (s.element == .again (.rule "decorator") || s.element == .rule "decorator")

/-- The form of the productions of some elements. -/
def hasForm (e : Element) (steps : List Step) : Bool :=
  if e = .rule "function_definition" then
    steps.any isNameStep && steps.any fun s => s.element == .literal "def"
  else if e = .rule "class_definition" then
    steps.any isNameStep && steps.dropLast.all (isAside "body") && steps.getLast?.any isBodyStep
  else if e = .rule "decorated_definition" then
    steps.dropLast.all (isAside "definition") && steps.getLast?.any isDefinitionStep
  else if e = .again (.rule "decorator") then steps.all isDecoratorStep
  else !(looseKinds.map Element.rule).contains e

/-- A production of an element, as extraction relies on it. -/
def productionOk (e : Element) (steps : List Step) : Bool :=
  steps.length < Item.width && steps.all isRegularStep &&
    (!isEnding e || steps.getLast?.any isEndingStep) && hasForm e steps

/-- What is inspected of all productions at once. -/
def isInspected (all : Productions) : Bool :=
  decide (all.map Prod.fst).Nodup && all[0]?.any (fun x => x.2.contains []) &&
    all.all (fun x => x.2.all (productionOk x.1)) &&
    namedTokens.all fun name => all.elements.contains (.token name)

set_option maxRecDepth 20000 in
theorem isInspected_grammar : isInspected grammar.productions = true := by decide +kernel

/-- The parts of the inspection, on their own. -/
theorem isInspected_iff {all : Productions} : isInspected all = true ↔
    (all.map Prod.fst).Nodup ∧ (∃ x, all[0]? = some x ∧ [] ∈ x.2) ∧
      (∀ x ∈ all, ∀ steps ∈ x.2, productionOk x.1 steps = true) ∧
      ∀ name ∈ namedTokens, Element.token name ∈ all.elements := by
  simp only [isInspected, Bool.and_eq_true, decide_eq_true_eq, Option.any_eq_true,
    List.all_eq_true, List.contains_iff_mem, and_assoc]

/-- The productions have the form that extraction relies on. -/
theorem productionOk_of_mem : ∀ x ∈ grammar.productions, ∀ steps ∈ x.2,
    productionOk x.1 steps = true :=
  (isInspected_iff.1 isInspected_grammar).2.2.1

theorem token_mem_elements : ∀ name ∈ namedTokens,
    Element.token name ∈ Productions.elements grammar.productions :=
  (isInspected_iff.1 isInspected_grammar).2.2.2

/-! ### Regularity -/

theorem map_fst_productions (g : Description) : g.productions.map Prod.fst =
    ((g.rules.filter fun r => !g.inlined.contains r.1).map fun r => Element.rule r.1) ++
      ((g.rules.flatMap fun r => r.2.repeated).eraseDups).map Element.again := by
  simp [Description.productions, Function.comp_def]

theorem mem_of_isKnown {e : Element} (h : isKnown e = true) (hname : e.tokenName? = none) :
    e ∈ grammar.productions.map Prod.fst := by
  rw [map_fst_productions]
  cases e with
  | literal => cases hname
  | token => cases hname
  | rule name =>
    obtain ⟨r, hr, hboth⟩ := List.any_eq_true.1 h
    obtain ⟨heq, hkept⟩ := Bool.and_eq_true_iff.1 hboth
    rw [← eq_of_beq heq] at hkept
    refine List.mem_append_left _ (List.mem_map.2 ⟨r, List.mem_filter.2 ⟨hr, hkept⟩, ?_⟩)
    rw [eq_of_beq heq]
  | again body =>
    refine List.mem_append_right _ (List.mem_map_of_mem (List.mem_eraseDups.2 ?_))
    exact List.contains_iff_mem.1 h

theorem regular_grammar : grammar.Regular where
  nodup := (isInspected_iff.1 isInspected_grammar).1
  closed x hx steps hsteps s hs := by
    have hok := productionOk_of_mem x hx steps hsteps
    simp only [productionOk, Bool.and_eq_true, List.all_eq_true] at hok
    have hregular := hok.1.1.2 s hs
    simp only [isRegularStep, Bool.and_eq_true] at hregular
    exact mem_of_isKnown hregular.1.1
  first := (isInspected_iff.1 isInspected_grammar).2.1
  short x hx steps hsteps := by
    have hok := productionOk_of_mem x hx steps hsteps
    simp only [productionOk, Bool.and_eq_true, decide_eq_true_eq] at hok
    exact hok.1.1.1

/-! ### Productions of single rules -/

theorem productionOk_iff {e : Element} {steps : List Step} : productionOk e steps = true ↔
    steps.length < Item.width ∧ (∀ s ∈ steps, isRegularStep s = true) ∧
      (isEnding e = true → ∃ s, steps.getLast? = some s ∧ isEndingStep s = true) ∧
      hasForm e steps = true := by
  simp only [productionOk, Bool.and_eq_true, decide_eq_true_eq, List.all_eq_true, Bool.or_eq_true,
    Bool.not_eq_true', and_assoc]
  cases isEnding e <;> simp [Option.any_eq_true]

end Glossator.Python
