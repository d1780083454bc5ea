import Glossator.Text.Basic

/-!
# Grammar rules

A grammar gives each of its rules a body built from tokens and rules by sequence, choice and
repetition. Where the same tokens can be read in two ways, ranks and sides say which reading wins:
the higher rank, and among equal ranks the reading that ends earlier (`left`) or goes on (`right`).
-/

set_option autoImplicit false

namespace Glossator.Grammar

/-- Which of two readings of equal rank wins. -/
inductive Side where
  /-- The reading that ends here. -/
  | left
  /-- The reading that goes on. -/
  | right
deriving DecidableEq, Repr, Hashable

/-- The body of a rule. -/
inductive Rule where
  | blank
  /-- A token of fixed spelling. -/
  | literal (spelling : String)
  /-- Another token. -/
  | token (name : String)
  /-- Another rule. -/
  | rule (name : String)
  | andThen (first second : Rule)
  | orElse (left right : Rule)
  /-- Once or more. -/
  | plus (body : Rule)
  /-- With a rank and perhaps a side. -/
  | ranked (rank : Int) (side : Option Side) (body : Rule)
  /-- In a role for the construct it is part of. -/
  | role (name : String) (body : Rule)
  /-- Shown as another construct. -/
  | shownAs (kind : String) (body : Rule)
deriving DecidableEq, Repr, Hashable, Inhabited

namespace Rule

instance : Append Rule := ⟨andThen⟩
instance : OrOp Rule := ⟨orElse⟩
instance : Coe String Rule := ⟨literal⟩

/-- One of several. -/
def oneOf : List Rule → Rule
  | [] => blank
  | [r] => r
  | r :: rest => orElse r (oneOf rest)

/-- All in order. -/
def inOrder : List Rule → Rule
  | [] => blank
  | [r] => r
  | r :: rest => andThen r (inOrder rest)

/-- The rule or nothing. -/
def maybe (r : Rule) : Rule := r ||| blank

/-- Any number of times. -/
def many (r : Rule) : Rule := maybe (plus r)

/-- Once or more, with a separator between each two. -/
def separated (separator : String) (r : Rule) : Rule := r ++ many (literal separator ++ r)

/-- Once or more, with commas between. -/
def commaList (r : Rule) : Rule := separated "," r

/-- With a rank; of equal ranks, the reading that ends earlier. -/
def leftRanked (rank : Int) (r : Rule) : Rule := ranked rank (some .left) r

/-- With a rank; of equal ranks, the reading that goes on. -/
def rightRanked (rank : Int) (r : Rule) : Rule := ranked rank (some .right) r

/-- The repeated bodies in a rule, inner ones first. -/
def repeated : Rule → List Rule
  | andThen a b => repeated a ++ repeated b
  | orElse a b => repeated a ++ repeated b
  | plus body => repeated body ++ [body]
  | ranked _ _ body | role _ body | shownAs _ body => repeated body
  | _ => []

end Rule

/-- A grammar. -/
structure Description where
  /-- The rules by name; the first is the start. -/
  rules : List (String × Rule)
  /-- Rules that are expanded where they are used. -/
  inlined : List String
  /-- Rules that are not shown in trees, beside those whose names start with an underscore. -/
  hidden : List String

end Glossator.Grammar
