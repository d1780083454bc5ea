import Glossator.Grammar.Rule

/-!
# Productions

A rule is a set of productions: each is one way through its choices. A repetition becomes a rule
of its own, which is the repeated body, or itself followed by the body.
-/

set_option autoImplicit false

namespace Glossator.Grammar

/-- What a production is made of. -/
inductive Element where
  /-- A token of fixed spelling. -/
  | literal (spelling : String)
  /-- Another token. -/
  | token (name : String)
  | rule (name : String)
  /-- A body, once or more. -/
  | again (body : Rule)
deriving DecidableEq, Repr, Hashable, Inhabited

/-- An element of a production with all that the rule says about it. -/
structure Step where
  element : Element
  rank : Option Int := none
  side : Option Side := none
  role : Option String := none
  shownAs : Option String := none
deriving DecidableEq, Repr, Inhabited

/-- What surrounds a part of a rule. -/
structure Surroundings where
  rank : Option Int := none
  side : Option Side := none
  role : Option String := none
  shownAs : Option String := none

namespace Surroundings

/-- An element in these surroundings. -/
def step (s : Surroundings) (e : Element) : Step := ⟨e, s.rank, s.side, s.role, s.shownAs⟩

end Surroundings

/-- The steps with the last one changed. -/
def mapLast (f : Step → Step) : List Step → List Step
  | [] => []
  | [s] => [f s]
  | s :: rest => s :: mapLast f rest

/-- The ways through a rule. A rank holds between the steps of its body, and behind the last step
only where that ends the production. -/
def ways (s : Surroundings) (atEnd : Bool) : Rule → List (List Step)
  | .blank => [[]]
  | .literal spelling => [[s.step (.literal spelling)]]
  | .token name => [[s.step (.token name)]]
  | .rule name => [[s.step (.rule name)]]
  | .plus body => [[s.step (.again body)]]
  | .orElse a b => ways s atEnd a ++ ways s atEnd b
  | .andThen a b => (ways s false a).flatMap fun xs => (ways s atEnd b).map (xs ++ ·)
  | .role name body => ways { s with role := some name } atEnd body
  | .shownAs kind body => ways { s with shownAs := some kind } atEnd body
  | .ranked rank side body =>
    let inner := { s with rank := some rank, side := side.or s.side }
    (ways inner atEnd body).map fun steps =>
      if atEnd then steps
      else mapLast (fun l => { l with
        rank := s.rank
        side := if side.isSome then s.side else l.side }) steps

/-- The productions of a rule, without repetitions. -/
def productionsOf (r : Rule) : List (List Step) := (ways {} true r).eraseDups

/-- The productions of the rule for a repeated body. -/
def productionsOfAgain (body : Rule) : List (List Step) :=
  let once := ways {} true body
  (once.map fun steps => ⟨.again body, none, none, none, none⟩ :: steps) ++ once

/-- The first part of a production, the first inlined rule in it, and what follows. -/
def splitInlined (inlined : List String) :
    List Step → Option (List Step × Step × String × List Step)
  | [] => none
  | s :: rest =>
    match s.element with
    | .rule name =>
      if inlined.contains name then some ([], s, name, rest)
      else (splitInlined inlined rest).map fun (before, found) => (s :: before, found)
    | _ => (splitInlined inlined rest).map fun (before, found) => (s :: before, found)

/-- The steps that take the place of an inlined rule: they take over how it is shown and its role,
and the last one its rank where it has none of its own. -/
def inlineSteps (s : Step) (steps : List Step) : List Step :=
  mapLast (fun l => { l with rank := l.rank.or s.rank, side := l.side.or s.side })
    (steps.map fun l => { l with shownAs := s.shownAs.or l.shownAs, role := s.role.or l.role })

/-- The production with inlined rules expanded, one after another, at most so many. -/
def expand (g : Description) : Nat → List Step → List (List Step)
  | 0, steps => [steps]
  | bound + 1, steps =>
    match splitInlined g.inlined steps with
    | none => [steps]
    | some (before, s, name, after) =>
      (productionsOf ((g.rules.lookup name).getD .blank)).flatMap fun middle =>
        expand g bound (before ++ inlineSteps s middle ++ after)

/-- How many inlined rules a production may hold, those in inlined rules included. -/
def maxInlined : Nat := 16

/-- All productions of a grammar by what they produce. -/
def Description.productions (g : Description) : List (Element × List (List Step)) :=
  let kept := g.rules.filter fun (name, _) => !g.inlined.contains name
  let bodies := (g.rules.flatMap fun (_, r) => r.repeated).eraseDups
  let finish (ps : List (List Step)) := (ps.flatMap (expand g maxInlined)).eraseDups
  (kept.map fun (name, r) => (.rule name, finish (productionsOf r))) ++
    bodies.map fun body => (.again body, finish (productionsOfAgain body))

end Glossator.Grammar
