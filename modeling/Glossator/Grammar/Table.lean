import Std.Data.HashMap
import Std.Data.TreeMap
import Glossator.Grammar.Production

/-!
# Numbered grammars

For parsing, tokens, rules and productions are numbered. A set of tokens is a number whose bits
are the tokens. For every rule the table holds the tokens it can start with, and the productions
that can stand at its start together with the tokens that may follow each.
-/

set_option autoImplicit false

namespace Glossator.Grammar

/-- A set of token numbers, as the bits of a number. -/
abbrev TokenSet := Nat

/-- A numbered element of a production. -/
inductive Symbol where
  | token (number : Nat)
  | rule (number : Nat)
deriving DecidableEq, Repr, Hashable, Inhabited

/-- A numbered step of a production. -/
structure NumberedStep where
  symbol : Symbol
  rank : Int
  side : Option Side
  role : Option String
  shownAs : Option String
deriving Repr, Inhabited

/-- A numbered production. -/
structure Production where
  /-- The rule that it belongs to. -/
  produces : Nat
  steps : Array NumberedStep
deriving Repr, Inhabited

/-- A production that can stand at the start of a rule. -/
structure Opening where
  production : Nat
  /-- Tokens that may follow it within the rule. -/
  followers : TokenSet
  /-- Whatever may follow the rule may follow it too. -/
  inherits : Bool
deriving Repr, Inhabited

/-- How the construct of a rule is shown. -/
structure Showing where
  kind : String
  visible : Bool
deriving Repr, Inhabited

/-- A grammar made ready for parsing. -/
structure Table where
  /-- The names of the tokens; the first one is the end of the text. -/
  tokens : Array String
  tokenNumbers : Std.HashMap String Nat
  /-- The numbers and spellings of the tokens of fixed spelling. -/
  literals : List (Nat × Text)
  productions : Array Production
  /-- How the construct of each rule is shown. -/
  showings : Array Showing
  /-- Whether each rule is a repetition. -/
  repetitions : Array Bool
  /-- The tokens that each rule can start with. -/
  starters : Array TokenSet
  /-- The productions that can stand at the start of each rule. -/
  openings : Array (List Opening)
  /-- The production that stands for a whole text. -/
  whole : Nat
deriving Inhabited

/-- The name of the token at the end of the text. -/
def endOfText : String := "$end"

/-! ### Numbers -/

/-- The name of a token. -/
def Element.tokenName? : Element → Option String
  | .literal name | .token name => some name
  | _ => none

/-- The productions of a grammar by what they produce. -/
abbrev Productions := List (Element × List (List Step))

/-- The elements of all steps. -/
def Productions.elements (all : Productions) : List Element :=
  all.flatMap fun (_, ps) => ps.flatMap fun steps => steps.map Step.element

/-- The names of all tokens, that of the end of the text first. -/
def Productions.tokens (all : Productions) : List String :=
  (endOfText :: all.elements.filterMap Element.tokenName?).eraseDups

/-- The numbers of tokens and of what is produced. -/
structure Numbers where
  tokens : Std.HashMap String Nat
  rules : Std.HashMap Element Nat

/-- The numbers that tokens and elements have by their order. -/
def Productions.numbers (all : Productions) : Numbers where
  tokens := Std.HashMap.ofList all.tokens.zipIdx
  rules := Std.HashMap.ofList (all.map Prod.fst).zipIdx

namespace Numbers

/-- The symbol of an element. -/
def symbol (numbers : Numbers) (e : Element) : Symbol :=
  match e.tokenName? with
  | some name => .token (numbers.tokens.getD name 0)
  | none => .rule (numbers.rules.getD e 0)

/-- A step with its symbol. -/
def step (numbers : Numbers) (s : Step) : NumberedStep :=
  ⟨numbers.symbol s.element, s.rank.getD 0, s.side, s.role, s.shownAs⟩

end Numbers

/-- The productions one by one, with numbers. -/
def Productions.numbered (all : Productions) (numbers : Numbers) : List Production :=
  all.flatMap fun (e, ps) => ps.map fun steps =>
    ⟨numbers.rules.getD e 0, (steps.map numbers.step).toArray⟩

/-- How the constructs of an element are shown. -/
def Description.showing (g : Description) : Element → Showing
  | .rule name => ⟨name, !name.startsWith "_" && !g.hidden.contains name⟩
  | _ => ⟨"", false⟩

namespace Table

/-- The number of a token. -/
def number (t : Table) (token : String) : Nat := t.tokenNumbers.getD token 0

/-- The tokens that a symbol can start with. -/
def startersOf (starters : Array TokenSet) : Symbol → TokenSet
  | .token n => 1 <<< n
  | .rule n => starters[n]?.getD 0

/-- One round of adding what each production starts with to its rule. -/
def growStarters (productions : Array Production) (starters : Array TokenSet) : Array TokenSet :=
  productions.foldl (fun starters p =>
    match p.steps[0]? with
    | some s => starters.modify p.produces fun set => set ||| startersOf starters s.symbol
    | none => starters) starters

/-- Repeats a step until nothing changes, at most so often. -/
def untilStable {α : Type} [BEq α] (step : α → α) : Nat → α → α
  | 0, a => a
  | bound + 1, a =>
    let a' := step a
    if a' == a then a else untilStable step bound a'

/-- What is known of a rule that can stand at the start of another: the tokens that may follow it
there, and whether it may end where the other ends. -/
abbrev OpenRules := Std.TreeMap Nat (TokenSet × Bool)

/-- Adds the rules that stand at the start of productions of the known ones. -/
def growOpenRules (productions : Array Production) (ofRule : Array (List Nat))
    (starters : Array TokenSet) (known : OpenRules) : OpenRules :=
  known.foldl (fun known rule (followers, inherits) =>
    (ofRule[rule]?.getD []).foldl (fun known p =>
      let steps := (productions[p]?.getD default).steps
      match steps[0]?.map NumberedStep.symbol with
      | some (.rule r) =>
        let (more, inherited) := match steps[1]? with
          | some s => (startersOf starters s.symbol, false)
          | none => (followers, inherits)
        let (old, oldInherits) := known.getD r (0, false)
        known.insert r (old ||| more, oldInherits || inherited)
      | _ => known) known) known

/-- The productions that can stand at the start of a rule. -/
def openingsOf (productions : Array Production) (ofRule : Array (List Nat))
    (starters : Array TokenSet) (rule : Nat) : List Opening :=
  let start : OpenRules := (∅ : OpenRules).insert rule (0, true)
  let known := untilStable (growOpenRules productions ofRule starters)
    (2 * (ofRule.size + 1)) start
  known.toList.flatMap fun (r, followers, inherits) =>
    (ofRule[r]?.getD []).map fun p => ⟨p, followers, inherits⟩

/-- The table of a grammar. -/
def ofDescription (g : Description) : Table :=
  let all : Productions := g.productions
  let numbers := all.numbers
  let proper := (all.numbered numbers).toArray
  let whole : Production := ⟨all.length, #[⟨.rule 0, 0, none, none, none⟩]⟩
  let productions := proper.push whole
  let empty : Array TokenSet := Array.replicate all.length 0
  let starters := untilStable (growStarters productions) (all.length + 1) empty
  let ofRule := productions.toList.zipIdx.foldl (fun lists (p, i) =>
    lists.modify p.produces (i :: ·)) (Array.replicate all.length [])
  { tokens := all.tokens.toArray
    tokenNumbers := numbers.tokens
    literals := (all.elements.filterMap fun e => match e with
      | .literal spelling => some (numbers.tokens.getD spelling 0, spelling.toList)
      | _ => none).eraseDups
    productions := productions
    showings := (all.map fun (e, _) => g.showing e).toArray
    repetitions := (all.map fun (e, _) => match e with
      | .again _ => true
      | _ => false).toArray
    starters := starters
    whole := proper.size
    openings := ((List.range all.length).map (openingsOf productions ofRule starters)).toArray }

end Table

end Glossator.Grammar
