import Glossator.Grammar.Parser
import Glossator.Python.Grammar
import Glossator.Python.Layout
import Glossator.Python.Token

/-!
# The lexer of Python

At every place layout and strings come first, then comments and joined lines, then the longest
token that the grammar can use. A name that is spelled like a keyword is the keyword if the grammar
can use that, and a name otherwise.
-/

set_option autoImplicit false

namespace Glossator.Python

open Grammar (Lexeme TokenSet)

namespace Lexer

/-- A keyword is spelled like a name. -/
def isKeyword (spelling : Text) : Bool := Token.name? spelling == some []

/-- The numbers and spellings of the keywords. -/
def keywords : List (Nat × Text) := table.literals.filter fun l => isKeyword l.2

/-- The numbers and spellings of the tokens of signs. -/
def signs : List (Nat × Text) := table.literals.filter fun l => !isKeyword l.2

/-- The set of the tokens with the given names. -/
def tokenSet (names : List String) : TokenSet :=
  names.foldl (fun set name => set ||| 1 <<< table.number name) 0

/-- The numbers of the keywords as a set. -/
def keywordSet : TokenSet := keywords.foldl (fun set l => set ||| 1 <<< l.1) 0

/-- The number of the token for names. -/
def nameNumber : Nat := table.number "identifier"

/-- Names and keywords. -/
def wordSet : TokenSet := keywordSet ||| 1 <<< nameNumber

/-- The closing brackets. -/
def closingSet : TokenSet := tokenSet [")", "]", "\x7d"]

/-- The numbers of the layout tokens and the keyword that layout takes note of. -/
structure LayoutNumbers where
  newline : Nat := table.number "_newline"
  indent : Nat := table.number "_indent"
  dedent : Nat := table.number "_dedent"
  stringStart : Nat := table.number "string_start"
  stringContent : Nat := table.number "_string_content"
  doubledBrace : Nat := table.number "escape_interpolation"
  except : Nat := table.number "except"
  formatText : Nat := table.number "_format_text"
  escape : Nat := table.number "escape_sequence"
  backslash : Nat := table.number "_not_escape_sequence"

/-- The numbers. -/
def numbers : LayoutNumbers := {}

/-- The tokens of other kinds with their readers. -/
def readers : List (Nat × Token.Reader) :=
  [(table.number "integer", Token.integer?), (table.number "float", Token.float?),
    (table.number "type_conversion", Token.conversion?)]

/-- What layout needs to know of the tokens the grammar can use. -/
def wanted (valid : TokenSet) : Wanted where
  newline := valid.testBit numbers.newline
  indent := valid.testBit numbers.indent
  dedent := valid.testBit numbers.dedent
  stringStart := valid.testBit numbers.stringStart
  stringContent := valid.testBit numbers.stringContent
  doubledBrace := valid.testBit numbers.doubledBrace
  closing := valid &&& closingSet != 0
  except := valid.testBit numbers.except

/-- A token from one spot to another. -/
def lexeme (l : Lexing) (token : Option Nat) (name : String) (named : Bool) (start stop : Spot) :
    Lexeme Lexing where
  token := token
  info := ⟨name, named, none, start.place, stop.place⟩
  visible := !name.startsWith "_"
  behind := { l with spot := stop }

/-- A token of the grammar from one spot to another. -/
def tokenLexeme (l : Lexing) (number : Nat) (named : Bool) (start stop : Spot) : Lexeme Lexing :=
  lexeme l (some number) (table.tokens[number]?.getD "") named start stop

/-- The spot behind the separators at a place; text of a format specification, where that can be
used, starts as soon as it can. -/
def skipSeparators (formatText : Bool) : Nat → Spot → Spot
  | 0, s => s
  | bound + 1, s =>
    match s.here? with
    | none => s
    | some c =>
      if formatText && (Token.formatText? s.rest).isSome then s
      else if Token.isSeparator c then skipSeparators formatText bound s.next
      else s

/-- The keyword or name at the start of a text, with what remains. -/
def word? (valid : TokenSet) (t : Text) : Option (Nat × Bool × Text) :=
  if valid &&& wordSet = 0 then none
  else (Token.name? t).map fun rest =>
    let spelling := t.take (t.length - rest.length)
    match keywords.find? fun k => k.2 == spelling && valid.testBit k.1 with
    | some k => (k.1, false, rest)
    | none => (nameNumber, true, rest)

/-- The ways to read a token at the start of a text: its number, whether it is named, and what
remains. -/
def candidates (valid : TokenSet) (t : Text) : List (Nat × Bool × Text) :=
  (signs.filterMap fun (number, spelling) =>
    if valid.testBit number then (Text.after? spelling t).map fun rest => (number, false, rest)
    else none) ++
  (word? valid t).toList ++
  readers.filterMap fun (number, read) =>
    if valid.testBit number then (read t).map fun rest => (number, true, rest) else none

/-- The candidate that leaves least; of several, the first. -/
def best : List (Nat × Bool × Text) → Option (Nat × Bool × Text)
  | [] => none
  | c :: rest => some (rest.foldl (fun b c => if c.2.2.length < b.2.2.length then c else b) c)

/-- The token at a place that begins with a backslash; within a string, where nothing stands before
it, it may be an escape. -/
def backslash (l : Lexing) (valid : TokenSet) (inPlace : Bool) (s : Spot) :
    Option (Lexeme Lexing) :=
  let escape := if inPlace && valid.testBit numbers.escape then Token.escape? s.rest else none
  match escape with
  | some rest => some (tokenLexeme l numbers.escape true s (s.upTo rest))
  | none =>
    match Token.lineContinuation? s.rest with
    | some rest => some (lexeme l none "line_continuation" true s (s.upTo rest))
    | none =>
      if inPlace && valid.testBit numbers.backslash then
        some (tokenLexeme l numbers.backslash true s s.next)
      else none

/-- The next token apart from layout and strings. -/
def plain (l : Lexing) (valid : TokenSet) : Option (Lexeme Lexing) :=
  let formatText := valid.testBit numbers.formatText
  let s := skipSeparators formatText (l.spot.rest.length + 1) l.spot
  match s.here? with
  | none => some (tokenLexeme l (table.number Grammar.endOfText) true s s)
  | some c =>
    match if formatText then Token.formatText? s.rest else none with
    | some rest => some (tokenLexeme l numbers.formatText true s (s.upTo rest))
    | none =>
      if c = '#' then
        (Token.comment? s.rest).map fun rest => lexeme l none "comment" true s (s.upTo rest)
      else if c = '\\' then backslash l valid (s.place.offset == l.spot.place.offset) s
      else (best (candidates valid s.rest)).map fun (number, named, rest) =>
        tokenLexeme l number named s (s.upTo rest)

/-- The token that layout or a string gives rise to. -/
def ofLayout (t : LayoutLexeme) : Lexeme Lexing where
  token := some (table.number t.token.name)
  info :=
    let stop := if t.token ∈ [.newline, .indent, .dedent] then t.start else t.behind.spot.place
    ⟨t.token.name, true, none, t.start, stop⟩
  visible := !t.token.name.startsWith "_"
  behind := t.behind

/-- The next token. -/
def next (l : Lexing) (valid : TokenSet) : Option (Lexeme Lexing) :=
  match Layout.next (wanted valid) l with
  | some t => some (ofLayout t)
  | none => plain l valid

/-- A keyword read as a name. -/
def asName (l : Lexeme Lexing) : Lexeme Lexing :=
  { l with
    token := some nameNumber
    info := { l.info with kind := "identifier", named := true }
    visible := true }

end Lexer

/-- The lexer. -/
def lexer : Grammar.Lexer Lexing where
  next := Lexer.next
  offset l := l.spot.place.offset
  otherwise l token :=
    if Lexer.keywordSet.testBit token then some (Lexer.asName l, Lexer.nameNumber) else none

/-- The tree of a text; none if it is not Python. -/
def parse? (t : Text) : Option Tree := Grammar.parse? table lexer (.start t) t.length

end Glossator.Python
