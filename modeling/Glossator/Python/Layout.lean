import Glossator.Grammar.Table
import Glossator.Python.Spot

/-!
# Layout and strings

Newlines, indentation and the insides of strings depend on more than the next characters: on the
widths of the blocks that are open, on the strings that are open, and on what the grammar can use
at the place. Tokens for newlines and for the start and end of blocks take up no text.
-/

set_option autoImplicit false

namespace Glossator.Python

/-- How an open string ends and what stands in it. -/
structure Delimiter where
  quote : Char
  /-- Three quotes end the string, and newlines may stand in it. -/
  triple : Bool
  /-- Values in braces stand in the string. -/
  format : Bool
  /-- Backslashes stand for themselves. -/
  raw : Bool
  bytes : Bool
deriving Repr, Inhabited

/-- What the lexer knows at a place. -/
structure Lexing where
  spot : Spot
  /-- The widths of the blocks that are open, the innermost first. -/
  indents : List Nat
  /-- The strings that are open, the innermost first. -/
  strings : List Delimiter
  /-- The latest string to start was a format string and none has ended since. -/
  inFormat : Bool
deriving Inhabited

namespace Lexing

/-- At the start of a text; a byte order mark there is passed over. -/
def start (t : Text) : Lexing := ⟨Spot.skipIf ⟨.start, t⟩ '\uFEFF', [0], [], false⟩

end Lexing

/-- What the grammar can use at a place. -/
structure Wanted where
  newline : Bool
  indent : Bool
  dedent : Bool
  stringStart : Bool
  stringContent : Bool
  doubledBrace : Bool
  /-- A closing bracket of some kind. -/
  closing : Bool
  except : Bool

/-- A token that layout or strings give rise to. -/
inductive LayoutToken where
  | newline
  | indent
  | dedent
  | stringStart
  | stringContent
  | doubledBrace
  | stringEnd
deriving DecidableEq, Repr

/-- The name of a layout token in the grammar. -/
def LayoutToken.name : LayoutToken → String
  | newline => "_newline"
  | indent => "_indent"
  | dedent => "_dedent"
  | stringStart => "string_start"
  | stringContent => "_string_content"
  | doubledBrace => "escape_interpolation"
  | stringEnd => "string_end"

/-- A token with the place where it starts and what is known behind it. -/
structure LayoutLexeme where
  token : LayoutToken
  start : Place
  behind : Lexing

namespace Layout

/-- Where a stretch of string content stops. -/
inductive ContentStop where
  /-- Before something else, with or without content so far. -/
  | before (spot : Spot)
  /-- Behind the quotes that end the string. -/
  | atEnd (spot : Spot)
  /-- The text has no use as content. -/
  | unusable

/-- The spot behind a backslash in a raw string and the character it protects. -/
def skipProtected (d : Delimiter) (s : Spot) : Spot :=
  let s := s.next
  let s := if s.isAt d.quote || s.isAt '\\' then s.next else s
  if s.isAt '\r' then s.next.skipIf '\n' else s.skipIf '\n'

/-- Reads string content, of at most so many characters. -/
def content (d : Delimiter) : Nat → Bool → Spot → ContentStop
  | 0, _, _ => .unusable
  | bound + 1, started, s =>
    let stop : ContentStop := if started then .before s else .unusable
    match s.here? with
    | none => .unusable
    | some c =>
      if c = '\x00' then .unusable
      else if d.format && (c = '{' || c = '}') then stop
      else if c = '\\' then
        if d.raw then content d bound started (skipProtected d s)
        else if d.bytes && [some 'N', some 'u', some 'U'].contains s.next.here? then
          content d bound true (s.forward 3)
        else stop
      else if c = d.quote then
        if d.triple then
          if s.next.isAt c && (s.forward 2).isAt c then
            if started then .before s else .atEnd (s.forward 3)
          else if s.next.isAt c then .before (s.forward 2)
          else .before s.next
        else if started then .before s else .atEnd s.next
      else if c = '\n' && started && !d.triple then .unusable
      else content d bound true s.next

/-- What the blanks, newlines and comments at a place amount to. -/
structure Margin where
  spot : Spot
  /-- A newline or the end of the text has been passed. -/
  lineEnded : Bool
  /-- The width of the blanks on the last line. -/
  width : Nat
  /-- The width before the first comment on a line of its own. -/
  commentWidth : Option Nat

/-- Passes over blanks, newlines and comments, at most so many; none where a comment or a stray
backslash shows that the line goes on. -/
def margin (w : Wanted) : Nat → Margin → Option Margin
  | 0, m => some m
  | bound + 1, m =>
    match m.spot.here? with
    | none => some { m with width := 0, lineEnded := true }
    | some c =>
      let next := m.spot.next
      if c = '\n' then margin w bound { m with spot := next, lineEnded := true, width := 0 }
      else if c = ' ' then margin w bound { m with spot := next, width := m.width + 1 }
      else if c = '\r' || c = '\x0c' then margin w bound { m with spot := next, width := 0 }
      else if c = '\t' then margin w bound { m with spot := next, width := m.width + 8 }
      else if c = '#' && (w.indent || w.dedent || w.newline || w.except) then
        if !m.lineEnded then none
        else
          let behind := m.spot.rest.dropWhile fun c => c ≠ '\n' && c ≠ '\x00'
          margin w bound
            { m with
              spot := (m.spot.upTo behind).next
              width := 0
              commentWidth := m.commentWidth.or (some m.width) }
      else if c = '\\' then
        let next := next.skipIf '\r'
        if next.isAt '\n' || next.here?.isNone then margin w bound { m with spot := next.next }
        else none
      else some m

/-- The quotes that start a string, with what the letters before them say. -/
def openQuotes (letters : Text) (s : Spot) : Option (Delimiter × Spot) :=
  let has (a b : Char) : Bool := letters.contains a || letters.contains b
  match s.here? with
  | none => none
  | some q =>
    if q = '`' || q = '\'' || q = '"' then
      let triple := q ≠ '`' && s.next.isAt q && (s.forward 2).isAt q
      some (⟨q, triple, has 'f' 'F', has 'r' 'R', has 'b' 'B'⟩, s.forward (if triple then 3 else 1))
    else none

/-- The start of a string at a spot. -/
def stringStart (l : Lexing) (s : Spot) : Option LayoutLexeme :=
  let letters := s.rest.takeWhile fun c =>
    ['f', 'F', 'r', 'R', 'b', 'B', 'u', 'U'].contains c
  (openQuotes letters (s.forward letters.length)).map fun (d, behind) =>
    ⟨.stringStart, s.place,
      { l with spot := behind, strings := d :: l.strings, inFormat := d.format }⟩

/-- The token that the margin at a place gives rise to. -/
def ofMargin (w : Wanted) (l : Lexing) (m : Margin) : Option LayoutLexeme :=
  let here := l.spot.place
  let width := l.indents.head?.getD 0
  let quoteFollows := [some '"', some '\'', some '`'].contains m.spot.here?
  let mayDedent := w.dedent || (!w.newline && !(w.stringStart && quoteFollows) && !w.closing)
  if m.lineEnded && !l.indents.isEmpty && w.indent && width < m.width then
    some ⟨.indent, here, { l with indents := m.width :: l.indents }⟩
  else if m.lineEnded && !l.indents.isEmpty && mayDedent && m.width < width && !l.inFormat &&
      m.commentWidth.all (· < width) then
    some ⟨.dedent, here, { l with indents := l.indents.tail }⟩
  else if m.lineEnded && w.newline && !(w.stringContent && w.indent) then
    some ⟨.newline, here, l⟩
  else if m.commentWidth.isNone && w.stringStart then stringStart l m.spot
  else none

/-- The token of layout outside of strings at a place. -/
def outside (w : Wanted) (l : Lexing) : Option LayoutLexeme :=
  (margin w (l.spot.rest.length + 1) ⟨l.spot, false, 0, none⟩).bind (ofMargin w l)

/-- The token of layout or of a string at a place. -/
def next (w : Wanted) (l : Lexing) : Option LayoutLexeme :=
  match l.strings with
  | [] => outside w l
  | d :: strings =>
    let here := l.spot.place
    let brace := l.spot.isAt '{' || l.spot.isAt '}'
    if w.doubledBrace && d.format && brace then
      if l.spot.next.here? == l.spot.here? then
        some ⟨.doubledBrace, here, { l with spot := l.spot.forward 2 }⟩
      else none
    else if w.stringContent then
      match content d (l.spot.rest.length + 1) false l.spot with
      | .before s => some ⟨.stringContent, here, { l with spot := s }⟩
      | .atEnd s =>
        some ⟨.stringEnd, here, { l with spot := s, strings := strings, inFormat := false }⟩
      | .unusable => none
    else outside w l

end Layout

end Glossator.Python
