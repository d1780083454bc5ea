import Glossator.Language
import Glossator.Pattern.Search

/-!
# Recognising a language by content

Each language with patterns scores the weights of those that occur in the text, each once. The
highest score wins, and among equal scores the language that comes first.
-/

set_option autoImplicit false

namespace Glossator.Detection

open Pattern

/-- A pattern that speaks for a language, and how strongly. -/
structure Clue where
  pattern : Pattern Empty
  weight : Nat

/-- Anything up to the end of the line. -/
def restOfLine : Pattern Empty := many (· ≠ '\n')

/-- A keyword, blanks and a word, as many declarations start. -/
def keywordAndWord (keyword : String) : Pattern Empty := text keyword ++ someBlanks ++ word

/-- The languages with clues, and their clues. -/
def clues : List (Language × List Clue) :=
  [(.python,
      [⟨lineStart ++ blanks ++ keywordAndWord "def" ++ text "(" ++ restOfLine ++ text "):", 5⟩,
        ⟨lineStart ++ blanks ++ keywordAndWord "class" ++ maybe (text "(") ++ restOfLine ++
          maybe (text ")") ++ text ":", 3⟩,
        ⟨keywordAndWord "import", 1⟩]),
    (.go,
      [⟨lineStart ++ blanks ++ keywordAndWord "func" ++ text "(" ++ restOfLine ++ text ")", 5⟩,
        ⟨text ":=", 2⟩,
        ⟨wordEdge ++ keywordAndWord "package", 2⟩]),
    (.java,
      [⟨wordEdge ++ anyText ["public", "private", "protected"] ++ someBlanks ++
          someOf (fun c => isWord c || c == '<' || c == '>') ++ someBlanks ++ word ++ blanks ++
          text "(", 5⟩,
        ⟨wordEdge ++ text "throw new" ++ wordEdge, 3⟩,
        ⟨wordEdge ++ keywordAndWord "new" ++ text "(", 2⟩,
        ⟨text "<" ++ one (fun c => 'A' ≤ c && c ≤ 'Z') ++ text ">", 2⟩]),
    (.csharp,
      [⟨wordEdge ++ text "using" ++ someBlanks ++ text "System" ++ wordEdge, 4⟩,
        ⟨wordEdge ++ keywordAndWord "namespace", 3⟩,
        ⟨wordEdge ++ text "Console.WriteLine" ++ wordEdge, 3⟩]),
    (.javascript,
      [⟨wordEdge ++ keywordAndWord "function" ++ blanks ++ text "(", 4⟩,
        ⟨wordEdge ++ keywordAndWord "const" ++ blanks ++ text "=", 2⟩,
        ⟨wordEdge ++ text "console.log" ++ wordEdge, 3⟩,
        ⟨text "=>", 2⟩])]

/-- The weights of the clues that occur in a text. -/
def total (cs : List Clue) (t : Text) : Nat :=
  (cs.filter fun c => c.pattern.occursIn t).foldr (fun c score => c.weight + score) 0

/-- The scores of the languages with clues. -/
def scores (t : Text) : List (Language × Nat) := clues.map fun (l, cs) => (l, total cs t)

/-- The score of a language; zero for one without clues. -/
def score (t : Text) (l : Language) : Nat := ((scores t).lookup l).getD 0

/-- The better of a language that leads so far and the next one, which must score more. -/
def lead (score : Language → Nat) : Option Language → Language → Option Language
  | none, l => if score l = 0 then none else some l
  | some best, l => if score best < score l then some l else some best

/-- The language with the highest score, if any language scores. -/
def byContent? (t : Text) : Option Language :=
  let table := scores t
  Language.all.foldl (lead fun l => (table.lookup l).getD 0) none

end Glossator.Detection
