import Glossator.Grammar.Automaton
import Glossator.Tree

/-!
# Parsing

A text is parsed token by token. What the next token is depends on the tokens that the automaton
can do something with, so the lexer is asked at every place for one of those. Where the automaton
leaves a choice, the parse branches; branches that come to the same states at the same place are
one. The tree of the first branch to reach the end of the text is the tree of the text, and a text
without one has no tree.

Comments and the like may stand anywhere. They become nodes of the construct they stand in, except
that those at the end of a construct are handed on to the construct around it.
-/

set_option autoImplicit false

namespace Glossator.Grammar

/-- What a lexer finds at a place. -/
structure Lexeme (σ : Type) where
  /-- The number of the token; none for what may stand anywhere. -/
  token : Option Nat
  info : NodeInfo
  /-- The token is shown in the tree. -/
  visible : Bool
  /-- What the lexer knows behind the token. -/
  behind : σ

/-- Finds tokens. -/
structure Lexer (σ : Type) where
  /-- The next token, given the tokens that can be used. -/
  next : σ → TokenSet → Option (Lexeme σ)
  /-- The place up to which the text has been read. -/
  offset : σ → Nat
  /-- What to read a token as where it cannot be used. -/
  otherwise : Lexeme σ → Nat → Option (Lexeme σ × Nat)

/-- A construct that has been read. -/
structure Piece where
  info : NodeInfo
  visible : Bool
  children : List Tree
deriving Inhabited

namespace Piece

/-- The trees a piece contributes to the construct it is part of: itself, or its children if it is
not shown. -/
def trees (p : Piece) (role shownAs : Option String) : List Tree :=
  match shownAs with
  | some kind => [.node { p.info with kind := kind, named := true, role := role } p.children]
  | none =>
    if p.visible then [.node { p.info with role := role } p.children]
    else p.children.map fun c => if c.info.role.isSome then c else c.withRole role

end Piece

/-- An entry of the stack: a piece and the state after it. -/
structure Frame where
  state : Nat
  piece : Piece
  /-- The piece may stand anywhere and is no part of the production being read. -/
  anywhere : Bool

/-- The stack of a parse, the latest entry first. -/
abbrev Stack := List Frame

namespace Stack

/-- The state of a parse. -/
def state (s : Stack) : Nat := (s.head?.map Frame.state).getD 0

/-- The latest so many entries of a production and all that stands between them, in order, and
the stack below. -/
def take (count : Nat) (taken : List Frame) : Stack → List Frame × Stack
  | [] => (taken, [])
  | f :: rest =>
    if count = 0 then (taken, f :: rest)
    else if f.anywhere then take count (f :: taken) rest
    else take (count - 1) (f :: taken) rest

end Stack

/-- The trees of the entries of a production, each shown as its step says. -/
def assemble : List Frame → List NumberedStep → List Tree
  | [], _ => []
  | f :: rest, steps =>
    if f.anywhere then f.piece.trees none none ++ assemble rest steps
    else match steps with
      | [] => f.piece.trees none none ++ assemble rest []
      | s :: steps => f.piece.trees s.role s.shownAs ++ assemble rest steps

/-- The construct of a production that is made of some entries; without any it is empty and stands
here. -/
def Table.construct (t : Table) (production : Nat) (frames : List Frame) (here : Place) : Piece :=
  let showing := (t.showings[t.produces production]?).getD default
  let start := (frames.head?.map fun f => f.piece.info.start).getD here
  let stop := (frames.getLast?.map fun f => f.piece.info.stop).getD here
  ⟨⟨showing.kind, true, none, start, stop⟩, showing.visible,
    assemble frames (t.steps production).toList⟩

/-- The stack after a production has ended, and its construct; the state of the new entry is still
open. What stood at its end goes back on top. -/
def finish (t : Table) (production : Nat) (s : Stack) (here : Place) :
    Stack × Piece × List Frame :=
  let count := (t.steps production).size
  let trailing := s.takeWhile fun f => f.anywhere && count != 0
  let (frames, below) := Stack.take count [] (s.drop trailing.length)
  (below, t.construct production frames here, trailing)

/-- One way in which a text may be read. -/
structure Branch (σ : Type) where
  stack : Stack
  lexer : σ

/-- What has become of the branches of a parse before a token. -/
structure Advance (σ : Type) where
  automaton : Automaton
  /-- The branches that have read the token. -/
  branches : List (Branch σ)
  /-- The tree of the text, if a branch has come to its end. -/
  tree : Option Tree

/-- The tree of a whole text: everything on the stack, the constructs of the start rule unpacked. -/
def wholeTree (t : Table) (s : Stack) : Option Tree :=
  match s.reverse.head?, s.head? with
  | some first, some last =>
    let children := s.reverse.flatMap fun f =>
      if f.anywhere then f.piece.trees none none else f.piece.children
    let kind := ((t.showings[0]?).getD default).kind
    some (.node ⟨kind, true, none, first.piece.info.start, last.piece.info.stop⟩ children)
  | _, _ => none

/-- Carries out the actions of an automaton on a stack before a token, ending at most so many
productions one after another. -/
def advance {σ : Type} (t : Table) (lex : Lexer σ) :
    Nat → Lexeme σ → Nat → Advance σ → Stack → Advance σ
  | 0, _, _, found, _ => found
  | bound + 1, l, token, found, stack =>
    let (row, automaton) := found.automaton.row t stack.state
    let found := { found with automaton := automaton }
    match row.actions[token]? with
    | none =>
      match lex.otherwise l token with
      | some (l, token) => advance t lex bound l token found stack
      | none => found
    | some actions => actions.foldl (fun found action =>
        match action with
        | .shift state =>
          let piece : Piece := ⟨l.info, l.visible, []⟩
          { found with branches := found.branches ++ [⟨⟨state, piece, false⟩ :: stack, l.behind⟩] }
        | .reduce production =>
          if production = t.whole then
            { found with tree := found.tree.or (wholeTree t stack) }
          else
            let (below, piece, trailing) := finish t production stack l.info.start
            let (row, automaton) := found.automaton.row t below.state
            let state := row.after.getD (t.produces production) 0
            let moved := trailing.map fun f => { f with state := state }
            advance t lex bound l token { found with automaton := automaton }
              (moved ++ ⟨state, piece, false⟩ :: below)) found

/-- Two branches are one if they have come to the same states at the same place. -/
def sameBranch {σ : Type} (lex : Lexer σ) (a b : Branch σ) : Bool :=
  lex.offset a.lexer == lex.offset b.lexer &&
    (a.stack.filter (! ·.anywhere)).map Frame.state ==
      (b.stack.filter (! ·.anywhere)).map Frame.state

/-- Adds a branch behind those that are not further on, unless it is one of them. -/
def insertBranch {σ : Type} (lex : Lexer σ) (b : Branch σ) : List (Branch σ) → List (Branch σ)
  | [] => [b]
  | first :: rest =>
    if sameBranch lex first b then first :: rest
    else if lex.offset b.lexer < lex.offset first.lexer then b :: first :: rest
    else first :: insertBranch lex b rest

/-- Reads on with the branch that is furthest behind, at most so often. -/
def parseFrom {σ : Type} (t : Table) (lex : Lexer σ) :
    Nat → Automaton → List (Branch σ) → Option Tree
  | 0, _, _ => none
  | _, _, [] => none
  | bound + 1, automaton, b :: rest =>
    let (row, automaton) := automaton.row t b.stack.state
    match lex.next b.lexer row.valid with
    | none => parseFrom t lex bound automaton rest
    | some l =>
      match l.token with
      | none =>
        let frame : Frame := ⟨b.stack.state, ⟨l.info, l.visible, []⟩, true⟩
        parseFrom t lex bound automaton (insertBranch lex ⟨frame :: b.stack, l.behind⟩ rest)
      | some token =>
        let found :=
          advance t lex (64 * (b.stack.length + 2)) l token ⟨automaton, [], none⟩ b.stack
        match found.tree with
        | some tree => some tree
        | none => parseFrom t lex bound found.automaton
            (found.branches.foldl (fun bs b => insertBranch lex b bs) rest)

/-- The tree of a text, given the lexer at its start and the length of the text. -/
def parse? {σ : Type} (t : Table) (lex : Lexer σ) (start : σ) (length : Nat) : Option Tree :=
  parseFrom t lex (64 * (length + 16)) (.initial t) [⟨[], start⟩]

end Glossator.Grammar
