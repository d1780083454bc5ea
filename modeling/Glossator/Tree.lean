import Glossator.Text.Basic

/-!
# Concrete trees

The tree of a text has a node for every construct and every token that a reader sees, comments
included. A node knows the range of text it covers; the tokens of fixed spelling are its anonymous
children, all other children are named.
-/

set_option autoImplicit false

namespace Glossator

/-- A place in a text: its offset, and its row and column, all counted from 0. -/
structure Place where
  offset : Nat
  row : Nat
  column : Nat
deriving DecidableEq, Repr, Inhabited

namespace Place

/-- The start of a text. -/
def start : Place := ⟨0, 0, 0⟩

/-- The place behind a character. -/
def after (p : Place) (c : Char) : Place :=
  if c = '\n' then ⟨p.offset + 1, p.row + 1, 0⟩ else ⟨p.offset + 1, p.row, p.column + 1⟩

end Place

/-- What is known of a node apart from its children. -/
structure NodeInfo where
  /-- The construct or token that the node stands for. -/
  kind : String
  /-- False for a token of fixed spelling. -/
  named : Bool
  /-- What the node is for its parent, where the grammar says so. -/
  role : Option String
  start : Place
  stop : Place
deriving DecidableEq, Repr, Inhabited

/-- A node with its children in order. -/
inductive Tree where
  | node (info : NodeInfo) (children : List Tree)
deriving Repr, Inhabited

namespace Tree

/-- What is known of the root. -/
def info : Tree → NodeInfo
  | node info _ => info

/-- The children of the root. -/
def children : Tree → List Tree
  | node _ children => children

/-- The construct or token at the root. -/
def kind (t : Tree) : String := t.info.kind

/-- Where the tree starts. -/
def start (t : Tree) : Place := t.info.start

/-- Where the tree ends. -/
def stop (t : Tree) : Place := t.info.stop

/-- The range of text that the tree covers. -/
def span (t : Tree) : Span := ⟨t.start.offset, t.stop.offset⟩

/-- The tree covers no text. -/
def isEmpty (t : Tree) : Bool := t.stop.offset ≤ t.start.offset

/-- The tree is a comment. -/
def isComment (t : Tree) : Bool := t.kind == "comment"

/-- The children that are no tokens of fixed spelling. -/
def namedChildren (t : Tree) : List Tree := t.children.filter fun c => c.info.named

/-- The first child with a role. -/
def child? (t : Tree) (role : String) : Option Tree :=
  t.children.find? fun c => c.info.role == some role

/-- The part of the text that a tree covers. -/
def text (t : Tree) (source : Text) : Text := t.span.slice source

/-- The same tree with a role. -/
def withRole (t : Tree) (role : Option String) : Tree :=
  node { t.info with role := role } t.children

/-- A child is smaller than its parent. -/
theorem sizeOf_lt_of_mem_children {t c : Tree} (h : c ∈ t.children) : sizeOf c < sizeOf t := by
  cases t with
  | node info cs =>
    have hlt : sizeOf c < sizeOf cs := List.sizeOf_lt_of_mem h
    rw [node.sizeOf_spec]
    omega

end Tree

end Glossator
