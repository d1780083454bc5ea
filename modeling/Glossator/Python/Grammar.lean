import Glossator.Grammar.Table

/-!
# The grammar of Python

The grammar admits more than any one version of Python does: the print and exec statements of
Python 2 beside the match and type statements of Python 3, repeated parameters, a return outside of
a function. A word that is a keyword somewhere is a name wherever the grammar has no use for the
keyword.
-/

set_option autoImplicit false

namespace Glossator.Python

open Grammar Grammar.Rule

/-- The start of a statement or expression as a rule of its own. -/
private def ref (name : String) : Rule := rule name

/-- Ranks of the operators and of other constructs that compete. -/
structure Ranks where
  lambda : Int := -2
  typedParameter : Int := -1
  conditional : Int := -1
  parenthesized : Int := 1
  or : Int := 10
  and : Int := 11
  not : Int := 12
  compare : Int := 13
  bitOr : Int := 14
  bitAnd : Int := 15
  bitXor : Int := 16
  shift : Int := 17
  plus : Int := 18
  times : Int := 19
  unary : Int := 20
  power : Int := 21
  call : Int := 22

/-- The ranks. -/
def ranks : Ranks := {}

private def expression : Rule := ref "expression"
private def primary : Rule := ref "primary_expression"
private def identifier : Rule := token "identifier"
private def keywordIdentifier : Rule := ref "keyword_identifier"
private def suite : Rule := ref "_suite"
private def typeRule : Rule := ref "type"

/-- A list with commas that may end in a comma. -/
private def commaListEnding (r : Rule) : Rule := commaList r ++ maybe ","

/-- Two or more with commas between, or one with a comma behind it. -/
private def severalWithCommas (r : Rule) : Rule :=
  r ++ (literal "," ||| (plus (literal "," ++ r) ++ maybe ","))

/-- A rule in rank order of its spelling. -/
private def refs (names : List String) : Rule := oneOf (names.map ref)

/-- An operation on two operands, grouped to the left. -/
private def leftOperator (rank : Int) (spelling : String) : Rule :=
  leftRanked rank (primary ++ literal spelling ++ primary)

/-- A starred target. -/
private def splatTarget : Rule :=
  oneOf [identifier, keywordIdentifier, ref "subscript", ref "attribute"]

/-- A splat in parentheses counts as an expression in parentheses. -/
private def parenthesizedSplat : Rule :=
  shownAs "parenthesized_expression" (ref "parenthesized_list_splat")

/-- Simple statements. -/
def simpleStatementRules : List (String × Rule) := [
  ("_simple_statements",
    separated ";" (ref "_simple_statement") ++ maybe ";" ++ token "_newline"),
  ("_simple_statement", refs [
    "future_import_statement", "import_statement", "import_from_statement", "print_statement",
    "assert_statement", "expression_statement", "return_statement", "delete_statement",
    "raise_statement", "pass_statement", "break_statement", "continue_statement",
    "global_statement", "nonlocal_statement", "exec_statement", "type_alias_statement"]),
  ("import_statement", literal "import" ++ ref "_import_list"),
  ("import_prefix", plus (literal ".")),
  ("relative_import", ref "import_prefix" ++ maybe (ref "dotted_name")),
  ("future_import_statement",
    literal "from" ++ literal "__future__" ++ literal "import" ++
      (ref "_import_list" ||| (literal "(" ++ ref "_import_list" ++ literal ")"))),
  ("import_from_statement",
    literal "from" ++ (ref "relative_import" ||| ref "dotted_name") ++ literal "import" ++
      oneOf [ref "wildcard_import", ref "_import_list",
        literal "(" ++ ref "_import_list" ++ literal ")"]),
  ("_import_list", commaListEnding (ref "dotted_name" ||| ref "aliased_import")),
  ("aliased_import", ref "dotted_name" ++ literal "as" ++ identifier),
  ("wildcard_import", literal "*"),
  ("print_statement",
    ranked 1 none
      (literal "print" ++ ref "chevron" ++ many (literal "," ++ expression) ++ maybe ",") |||
    ranked (-3) none (literal "print" ++ commaListEnding expression)),
  ("chevron", literal ">>" ++ expression),
  ("assert_statement", literal "assert" ++ commaList expression),
  ("expression_statement", oneOf [expression, commaListEnding expression, ref "assignment",
    ref "augmented_assignment", ref "yield"]),
  ("named_expression", ref "_named_expression_lhs" ++ literal ":=" ++ expression),
  ("_named_expression_lhs", identifier ||| keywordIdentifier),
  ("return_statement", literal "return" ++ maybe (ref "_expressions")),
  ("delete_statement", literal "del" ++ ref "_expressions"),
  ("_expressions", expression ||| ref "expression_list"),
  ("raise_statement",
    literal "raise" ++ maybe (ref "_expressions") ++ maybe (literal "from" ++ expression)),
  ("pass_statement", leftRanked 0 (literal "pass")),
  ("break_statement", leftRanked 0 (literal "break")),
  ("continue_statement", leftRanked 0 (literal "continue")),
  ("global_statement", literal "global" ++ commaList identifier),
  ("nonlocal_statement", literal "nonlocal" ++ commaList identifier),
  ("exec_statement",
    literal "exec" ++ (ref "string" ||| identifier) ++
      maybe (literal "in" ++ commaList expression)),
  ("type_alias_statement", literal "type" ++ typeRule ++ literal "=" ++ typeRule)]

/-- Compound statements. -/
def compoundStatementRules : List (String × Rule) := [
  ("_compound_statement", refs [
    "if_statement", "for_statement", "while_statement", "try_statement", "with_statement",
    "function_definition", "class_definition", "decorated_definition", "match_statement"]),
  ("if_statement",
    literal "if" ++ expression ++ literal ":" ++ suite ++ many (ref "elif_clause") ++
      maybe (ref "else_clause")),
  ("elif_clause", literal "elif" ++ expression ++ literal ":" ++ suite),
  ("else_clause", literal "else" ++ literal ":" ++ role "body" suite),
  ("match_statement",
    literal "match" ++ commaListEnding expression ++ literal ":" ++
      shownAs "block" (ref "_match_block")),
  ("_match_block",
    (token "_indent" ++ many (ref "case_clause") ++ token "_dedent") ||| token "_newline"),
  ("case_clause",
    literal "case" ++ commaListEnding (ref "case_pattern") ++ maybe (ref "if_clause") ++
      literal ":" ++ suite),
  ("for_statement",
    maybe "async" ++ literal "for" ++ ref "_left_hand_side" ++ literal "in" ++
      ref "_expressions" ++ literal ":" ++ role "body" suite ++ maybe (ref "else_clause")),
  ("while_statement",
    literal "while" ++ expression ++ literal ":" ++ role "body" suite ++
      maybe (ref "else_clause")),
  ("try_statement",
    literal "try" ++ literal ":" ++ role "body" suite ++ oneOf [
      plus (ref "except_clause") ++ maybe (ref "else_clause") ++ maybe (ref "finally_clause"),
      plus (ref "except_group_clause") ++ maybe (ref "else_clause") ++
        maybe (ref "finally_clause"),
      ref "finally_clause"]),
  ("except_clause",
    literal "except" ++
      maybe (expression ++ maybe ((literal "as" ||| literal ",") ++ expression)) ++
      literal ":" ++ suite),
  ("except_group_clause",
    literal "except*" ++ (expression ++ maybe (literal "as" ++ expression)) ++ literal ":" ++
      suite),
  ("finally_clause", literal "finally" ++ literal ":" ++ suite),
  ("with_statement",
    maybe "async" ++ literal "with" ++ ref "with_clause" ++ literal ":" ++ role "body" suite),
  ("with_clause",
    commaListEnding (ref "with_item") |||
      (literal "(" ++ commaListEnding (ref "with_item") ++ literal ")")),
  ("with_item", expression),
  ("function_definition",
    maybe "async" ++ literal "def" ++ role "name" identifier ++ maybe (ref "type_parameter") ++
      role "parameters" (ref "parameters") ++
      maybe (literal "->" ++ role "return_type" typeRule) ++ literal ":" ++ role "body" suite),
  ("class_definition",
    literal "class" ++ role "name" identifier ++ maybe (ref "type_parameter") ++
      role "superclasses" (maybe (ref "argument_list")) ++ literal ":" ++ role "body" suite),
  ("decorated_definition",
    plus (ref "decorator") ++
      role "definition" (ref "class_definition" ||| ref "function_definition")),
  ("decorator", literal "@" ++ expression ++ token "_newline"),
  ("_suite", oneOf [
    shownAs "block" (ref "_simple_statements"),
    token "_indent" ++ ref "block",
    shownAs "block" (token "_newline")]),
  ("block", many (ref "_statement") ++ token "_dedent")]

/-- Parameters, arguments and types. -/
def parameterRules : List (String × Rule) := [
  ("parameters", literal "(" ++ maybe (ref "_parameters") ++ literal ")"),
  ("lambda_parameters", ref "_parameters"),
  ("_parameters", commaListEnding (ref "parameter")),
  ("parameter", oneOf [
    identifier, ref "typed_parameter", ref "default_parameter", ref "typed_default_parameter",
    ref "list_splat_pattern", ref "tuple_pattern", ref "keyword_separator",
    ref "positional_separator", ref "dictionary_splat_pattern"]),
  ("default_parameter",
    role "name" (identifier ||| ref "tuple_pattern") ++ literal "=" ++ role "value" expression),
  ("typed_default_parameter",
    ranked ranks.typedParameter none
      (role "name" identifier ++ literal ":" ++ role "type" typeRule ++ literal "=" ++
        role "value" expression)),
  ("typed_parameter",
    ranked ranks.typedParameter none
      (oneOf [identifier, ref "list_splat_pattern", ref "dictionary_splat_pattern"] ++
        literal ":" ++ role "type" typeRule)),
  ("positional_separator", literal "/"),
  ("keyword_separator", literal "*"),
  ("list_splat_pattern", literal "*" ++ splatTarget),
  ("dictionary_splat_pattern", literal "**" ++ splatTarget),
  ("list_splat", literal "*" ++ expression),
  ("dictionary_splat", literal "**" ++ expression),
  ("parenthesized_list_splat",
    ranked ranks.parenthesized none
      (literal "(" ++ (parenthesizedSplat ||| ref "list_splat") ++ literal ")")),
  ("argument_list",
    literal "(" ++ maybe (commaList (oneOf [
      expression, ref "list_splat", ref "dictionary_splat", parenthesizedSplat,
      ref "keyword_argument"])) ++ maybe "," ++ literal ")"),
  ("keyword_argument", (identifier ||| keywordIdentifier) ++ literal "=" ++ expression),
  ("type_parameter", literal "[" ++ commaListEnding typeRule ++ literal "]"),
  ("type", oneOf [ranked 1 none expression, ref "splat_type", ref "generic_type", ref "union_type",
    ref "constrained_type", ref "member_type"]),
  ("splat_type", ranked 1 none ((literal "*" ||| literal "**") ++ identifier)),
  ("generic_type",
    ranked 1 none
      ((identifier ||| shownAs "identifier" (literal "type")) ++ ref "type_parameter")),
  ("union_type", leftRanked 0 (typeRule ++ literal "|" ++ typeRule)),
  ("constrained_type", rightRanked 0 (typeRule ++ literal ":" ++ typeRule)),
  ("member_type", typeRule ++ literal "." ++ identifier)]

/-- Patterns: the targets of assignments, and the patterns of match statements. -/
def patternRules : List (String × Rule) := [
  ("pattern", oneOf [
    identifier, keywordIdentifier, ref "subscript", ref "attribute", ref "list_splat_pattern",
    ref "tuple_pattern", ref "list_pattern"]),
  ("_patterns", commaListEnding (ref "pattern")),
  ("tuple_pattern", literal "(" ++ maybe (ref "_patterns") ++ literal ")"),
  ("list_pattern", literal "[" ++ maybe (ref "_patterns") ++ literal "]"),
  ("pattern_list", severalWithCommas (ref "pattern")),
  ("_left_hand_side", ref "pattern" ||| ref "pattern_list"),
  ("case_pattern",
    ranked 1 none (oneOf [shownAs "as_pattern" (ref "_as_pattern"), ref "keyword_pattern",
      ref "_simple_pattern"])),
  ("_simple_pattern",
    ranked 1 none (oneOf [
      ref "class_pattern", ref "splat_pattern", ref "union_pattern",
      shownAs "list_pattern" (ref "_list_pattern"), shownAs "tuple_pattern" (ref "_tuple_pattern"),
      ref "dict_pattern", ref "string", ref "concatenated_string", ref "true", ref "false",
      ref "none", maybe "-" ++ (token "integer" ||| token "float"), ref "complex_pattern",
      ref "dotted_name", literal "_"])),
  ("_as_pattern", ref "case_pattern" ++ literal "as" ++ identifier),
  ("union_pattern",
    rightRanked 0
      (ref "_simple_pattern" ++ plus (leftRanked 0 (literal "|" ++ ref "_simple_pattern")))),
  ("_list_pattern", literal "[" ++ maybe (commaListEnding (ref "case_pattern")) ++ literal "]"),
  ("_tuple_pattern", literal "(" ++ maybe (commaListEnding (ref "case_pattern")) ++ literal ")"),
  ("dict_pattern",
    literal "\x7b" ++ maybe (commaListEnding (ref "_key_value_pattern" ||| ref "splat_pattern")) ++
      literal "\x7d"),
  ("_key_value_pattern", ref "_simple_pattern" ++ literal ":" ++ ref "case_pattern"),
  ("keyword_pattern", identifier ++ literal "=" ++ ref "_simple_pattern"),
  ("splat_pattern",
    ranked 1 none ((literal "*" ||| literal "**") ++ (identifier ||| literal "_"))),
  ("class_pattern",
    ref "dotted_name" ++ literal "(" ++ maybe (commaListEnding (ref "case_pattern")) ++
      literal ")"),
  ("complex_pattern",
    ranked 1 none
      (maybe "-" ++ (token "integer" ||| token "float") ++ (literal "+" ||| literal "-") ++
        (token "integer" ||| token "float"))),
  ("as_pattern",
    leftRanked 0 (expression ++ literal "as" ++ shownAs "as_pattern_target" expression))]

/-- Expressions. -/
def expressionRules : List (String × Rule) := [
  ("expression", refs [
    "comparison_operator", "not_operator", "boolean_operator", "lambda", "primary_expression",
    "conditional_expression", "named_expression", "as_pattern"]),
  ("primary_expression", oneOf [
    ref "await", ref "binary_operator", identifier, keywordIdentifier, ref "string",
    ref "concatenated_string", token "integer", token "float", ref "true", ref "false",
    ref "none", ref "unary_operator", ref "attribute", ref "subscript", ref "call", ref "list",
    ref "list_comprehension", ref "dictionary", ref "dictionary_comprehension", ref "set",
    ref "set_comprehension", ref "tuple", ref "parenthesized_expression",
    ref "generator_expression", ref "ellipsis",
    shownAs "list_splat" (ref "list_splat_pattern")]),
  ("expression_list", rightRanked 0 (severalWithCommas expression)),
  ("dotted_name", ranked 1 none (separated "." identifier)),
  ("_expression_within_for_in_clause",
    expression ||| shownAs "lambda" (ref "lambda_within_for_in_clause")),
  ("not_operator", ranked ranks.not none (literal "not" ++ expression)),
  ("boolean_operator",
    leftRanked ranks.and (expression ++ literal "and" ++ expression) |||
      leftRanked ranks.or (expression ++ literal "or" ++ expression)),
  ("binary_operator", oneOf [
    leftOperator ranks.plus "+", leftOperator ranks.plus "-", leftOperator ranks.times "*",
    leftOperator ranks.times "@", leftOperator ranks.times "/", leftOperator ranks.times "%",
    leftOperator ranks.times "//",
    rightRanked ranks.power (primary ++ literal "**" ++ primary),
    leftOperator ranks.bitOr "|", leftOperator ranks.bitAnd "&", leftOperator ranks.bitXor "^",
    leftOperator ranks.shift "<<", leftOperator ranks.shift ">>"]),
  ("unary_operator",
    ranked ranks.unary none (oneOf [literal "+", literal "-", literal "~"] ++ primary)),
  ("_not_in", literal "not" ++ literal "in"),
  ("_is_not", literal "is" ++ literal "not"),
  ("comparison_operator",
    leftRanked ranks.compare (primary ++ plus (oneOf [
      literal "<", literal "<=", literal "==", literal "!=", literal ">=", literal ">",
      literal "<>", literal "in", ref "_not_in", literal "is", ref "_is_not"] ++ primary))),
  ("lambda",
    ranked ranks.lambda none
      (literal "lambda" ++ maybe (ref "lambda_parameters") ++ literal ":" ++ expression)),
  ("lambda_within_for_in_clause",
    literal "lambda" ++ maybe (ref "lambda_parameters") ++ literal ":" ++
      ref "_expression_within_for_in_clause"),
  ("assignment",
    ref "_left_hand_side" ++ oneOf [
      literal "=" ++ ref "_right_hand_side",
      literal ":" ++ typeRule,
      literal ":" ++ typeRule ++ literal "=" ++ ref "_right_hand_side"]),
  ("augmented_assignment",
    ref "_left_hand_side" ++
      oneOf (["+=", "-=", "*=", "/=", "@=", "//=", "%=", "**=", ">>=", "<<=", "&=", "^=",
        "|="].map literal) ++
      ref "_right_hand_side"),
  ("_right_hand_side", refs [
    "expression", "expression_list", "assignment", "augmented_assignment", "pattern_list",
    "yield"]),
  ("yield",
    rightRanked 0
      (literal "yield" ++ ((literal "from" ++ expression) ||| maybe (ref "_expressions")))),
  ("attribute", ranked ranks.call none (primary ++ literal "." ++ identifier)),
  ("subscript",
    ranked ranks.call none
      (primary ++ literal "[" ++ commaListEnding (expression ||| ref "slice") ++ literal "]")),
  ("slice",
    maybe expression ++ literal ":" ++ maybe expression ++
      maybe (literal ":" ++ maybe expression)),
  ("call",
    ranked ranks.call none (primary ++ (ref "generator_expression" ||| ref "argument_list"))),
  ("list", literal "[" ++ maybe (ref "_collection_elements") ++ literal "]"),
  ("set", literal "\x7b" ++ ref "_collection_elements" ++ literal "\x7d"),
  ("tuple", literal "(" ++ maybe (ref "_collection_elements") ++ literal ")"),
  ("dictionary",
    literal "\x7b" ++ maybe (commaList (ref "pair" ||| ref "dictionary_splat")) ++ maybe "," ++
      literal "\x7d"),
  ("pair", expression ++ literal ":" ++ expression),
  ("list_comprehension",
    literal "[" ++ expression ++ ref "_comprehension_clauses" ++ literal "]"),
  ("dictionary_comprehension",
    literal "\x7b" ++ ref "pair" ++ ref "_comprehension_clauses" ++ literal "\x7d"),
  ("set_comprehension",
    literal "\x7b" ++ expression ++ ref "_comprehension_clauses" ++ literal "\x7d"),
  ("generator_expression",
    literal "(" ++ expression ++ ref "_comprehension_clauses" ++ literal ")"),
  ("_comprehension_clauses",
    ref "for_in_clause" ++ many (ref "for_in_clause" ||| ref "if_clause")),
  ("parenthesized_expression",
    ranked ranks.parenthesized none
      (literal "(" ++ (expression ||| ref "yield") ++ literal ")")),
  ("_collection_elements",
    commaListEnding (oneOf [expression, ref "yield", ref "list_splat", parenthesizedSplat])),
  ("for_in_clause",
    leftRanked 0
      (maybe "async" ++ literal "for" ++ ref "_left_hand_side" ++ literal "in" ++
        commaListEnding (ref "_expression_within_for_in_clause"))),
  ("if_clause", literal "if" ++ expression),
  ("conditional_expression",
    rightRanked ranks.conditional
      (expression ++ literal "if" ++ expression ++ literal "else" ++ expression)),
  ("keyword_identifier",
    ranked (-3) none
      (shownAs "identifier" (oneOf (["print", "exec", "async", "await"].map literal))) |||
    shownAs "identifier" (literal "type" ||| literal "match")),
  ("true", literal "True"),
  ("false", literal "False"),
  ("none", literal "None"),
  ("await", ranked ranks.unary none (literal "await" ++ primary)),
  ("ellipsis", literal "...")]

/-- Strings. -/
def stringRules : List (String × Rule) := [
  ("concatenated_string", ref "string" ++ plus (ref "string")),
  ("string",
    token "string_start" ++ many (ref "interpolation" ||| ref "string_content") ++
      token "string_end"),
  ("string_content",
    rightRanked 0 (plus (oneOf [
      token "escape_interpolation", token "escape_sequence", token "_not_escape_sequence",
      token "_string_content"]))),
  ("interpolation",
    literal "\x7b" ++ ref "_f_expression" ++ maybe "=" ++ maybe (token "type_conversion") ++
      maybe (ref "format_specifier") ++ literal "\x7d"),
  ("_f_expression", refs ["expression", "expression_list", "pattern_list", "yield"]),
  ("format_specifier",
    literal ":" ++
      many (token "_format_text" ||| shownAs "format_expression" (ref "interpolation")))]

/-- The grammar. -/
def grammar : Grammar.Description where
  rules :=
    [("module", many (ref "_statement")),
      ("_statement", ref "_simple_statements" ||| ref "_compound_statement")] ++
    simpleStatementRules ++ compoundStatementRules ++ parameterRules ++ patternRules ++
    expressionRules ++ stringRules
  inlined := ["_simple_statement", "_compound_statement", "_suite", "_expressions",
    "_left_hand_side", "keyword_identifier"]
  hidden := ["expression", "primary_expression", "pattern", "parameter"]

/-- The grammar made ready for parsing. -/
def table : Grammar.Table := .ofDescription grammar

end Glossator.Python
