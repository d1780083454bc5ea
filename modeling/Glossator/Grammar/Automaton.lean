import Glossator.Grammar.Table

/-!
# The parsing automaton

A state of the automaton is a set of items: productions with a mark for how far they have been
read, each with the tokens that may follow. States are made when they are first needed. A row says
what a state does with each token: read it, or end a production. Where both or several are
possible, ranks and sides decide; what they leave undecided is tried in every way.
-/

set_option autoImplicit false

namespace Glossator.Grammar

/-- What an automaton can do with a token. -/
inductive Action where
  /-- Reads the token and goes to a state. -/
  | shift (state : Nat)
  /-- Ends a production. -/
  | reduce (production : Nat)
deriving DecidableEq, Repr

/-- The items that a state starts from, in order: marked productions with the tokens that may
follow them. -/
abbrev Kernel := List (Nat × TokenSet)

/-- Marked productions with the tokens that may follow them. -/
abbrev Items := Std.TreeMap Nat TokenSet

/-- What a state does. -/
structure Row where
  actions : Std.HashMap Nat (List Action)
  /-- The state after a construct of each rule. -/
  after : Std.HashMap Nat Nat
  /-- The tokens the state does something with. -/
  valid : TokenSet
deriving Inhabited

/-- The states made so far. -/
structure Automaton where
  kernels : Array Kernel
  numbers : Std.HashMap Kernel Nat
  rows : Std.HashMap Nat Row
deriving Inhabited

namespace Item

/-- More than the number of steps of any production. -/
def width : Nat := 64

/-- The item of a production read up to a mark. -/
def mk (production mark : Nat) : Nat := production * width + mark

/-- The production of an item. -/
def production (item : Nat) : Nat := item / width

/-- How far the production has been read. -/
def mark (item : Nat) : Nat := item % width

end Item

namespace Items

/-- Adds an item, or further tokens to it. -/
def add (items : Items) (item : Nat) (set : TokenSet) : Items :=
  items.alter item fun old => some (old.getD 0 ||| set)

end Items

/-- The members of a set of tokens. -/
def TokenSet.members (count : Nat) (set : TokenSet) : List Nat :=
  (List.range count).filter set.testBit

/-- The productions that can end before a token: all have the highest rank. -/
structure Endings where
  rank : Int
  productions : List Nat
  sides : List (Option Side)

namespace Table

/-- The steps of a production. -/
def steps (t : Table) (production : Nat) : Array NumberedStep :=
  (t.productions[production]?.getD default).steps

/-- The rule that a production belongs to. -/
def produces (t : Table) (production : Nat) : Nat :=
  (t.productions[production]?.getD default).produces

/-- The step behind the mark of an item. -/
def nextStep? (t : Table) (item : Nat) : Option NumberedStep :=
  (t.steps (Item.production item))[Item.mark item]?

/-- The step before the mark of an item. -/
def lastStep? (t : Table) (item : Nat) : Option NumberedStep :=
  if Item.mark item = 0 then none else (t.steps (Item.production item))[Item.mark item - 1]?

/-- The rank of the last step that has been read. -/
def rankOf (t : Table) (item : Nat) : Int := ((t.lastStep? item).map NumberedStep.rank).getD 0

/-- The tokens that a symbol can start with. -/
def startersOfSymbol (t : Table) (s : Symbol) : TokenSet := Table.startersOf t.starters s

/-- All items of a state. -/
def closure (t : Table) (kernel : Kernel) : Items :=
  kernel.foldl (fun items (item, set) =>
    let items := items.add item set
    match t.nextStep? item with
    | some ⟨.rule r, _, _, _, _⟩ =>
      let followers := match t.nextStep? (item + 1) with
        | some s => t.startersOfSymbol s.symbol
        | none => set
      (t.openings[r]?.getD []).foldl (fun items o =>
        items.add (Item.mk o.production 0)
          (o.followers ||| if o.inherits then followers else 0)) items
    | _ => items) ∅

/-- The items after each symbol that can come next. -/
def transitions (t : Table) (items : Items) : Std.HashMap Symbol Items :=
  items.foldl (fun next item set =>
    match t.nextStep? item with
    | some s => next.alter s.symbol fun old => some ((old.getD ∅).add (item + 1) set)
    | none => next) ∅

/-- Adds a production that can end before a token; a lower rank gives way. -/
def addEnding (rank : Int) (production : Nat) (side : Option Side) :
    Option Endings → Option Endings
  | none => some ⟨rank, [production], [side]⟩
  | some e =>
    if e.rank < rank then some ⟨rank, [production], [side]⟩
    else if rank < e.rank then some e
    else some ⟨rank, e.productions ++ [production], side :: e.sides⟩

/-- The productions that can end before each token. -/
def endings (t : Table) (items : Items) : Std.HashMap Nat Endings :=
  items.foldl (fun found item set =>
    if (t.nextStep? item).isSome then found
    else
      let side := (t.lastStep? item).bind NumberedStep.side
      (TokenSet.members t.tokens.size set).foldl (fun found token =>
        found.alter token (addEnding (t.rankOf item) (Item.production item) side)) found) ∅

/-- The items that can read on with a token after having read something. -/
def readersOf (t : Table) (items : Items) (token : Nat) : List Nat :=
  items.keys.filter fun item =>
    match t.nextStep? item with
    | some s => Item.mark item != 0 && (t.startersOfSymbol s.symbol).testBit token
    | none => false

/-- The rules of the productions that have been read to their end before a token. -/
def finishedRules (t : Table) (items : Items) (token : Nat) : List Nat :=
  items.toList.filterMap fun (item, set) =>
    if (t.nextStep? item).isNone && set.testBit token then
      some (t.produces (Item.production item))
    else none

/-- What to do with a token that can be read and before which productions can end. Where a
repetition could be grouped in several ways, the earlier part is grouped first. -/
def choose (t : Table) (items : Items) (token : Nat) (shift : Action) (e : Endings) :
    List Action :=
  let readers := t.readersOf items token
  let reduces := e.productions.map Action.reduce
  let rules := (readers.map fun item => t.produces (Item.production item)) ++
    t.finishedRules items token
  let isRepetition (r : Nat) : Bool := t.repetitions[r]?.getD false
  if rules.all (fun r => isRepetition r && some r == rules.head?) then reduces
  else
    let less := readers.any fun item => t.rankOf item < e.rank
    let more := readers.any fun item => e.rank < t.rankOf item
    if less && !more then reduces
    else if more && !less then [shift]
    else if less && more then reduces ++ [shift]
    else if e.sides.all (· == some .left) then reduces
    else if e.sides.all (· == some .right) then [shift]
    else reduces ++ [shift]

/-- What to do with each token, given where the tokens that can be read lead to. -/
def actionsOf (t : Table) (items : Items) (shifts : Std.HashMap Nat Nat) :
    Std.HashMap Nat (List Action) :=
  let endings := t.endings items
  let actions := shifts.fold (fun actions token n =>
    let choice := match endings[token]? with
      | none => [Action.shift n]
      | some e => t.choose items token (.shift n) e
    (actions.insert token choice : Std.HashMap Nat (List Action))) ∅
  endings.fold (fun actions token e =>
    if actions.contains token then actions
    else actions.insert token (e.productions.map Action.reduce)) actions

end Table

namespace Automaton

/-- The number of the state with a kernel, made if it is new. -/
def intern (a : Automaton) (kernel : Kernel) : Nat × Automaton :=
  match a.numbers[kernel]? with
  | some n => (n, a)
  | none =>
    let n := a.kernels.size
    (n, { a with kernels := a.kernels.push kernel, numbers := a.numbers.insert kernel n })

/-- The automaton with only the state in which a text starts. -/
def initial (t : Table) : Automaton :=
  (intern ⟨#[], ∅, ∅⟩ [(Item.mk t.whole 0, 1 <<< t.number endOfText)]).2

/-- The states after the tokens and after the rules that can come next, as far as they are known. -/
structure Links where
  shifts : Std.HashMap Nat Nat := ∅
  after : Std.HashMap Nat Nat := ∅
  automaton : Automaton

/-- Makes the state after a symbol. -/
def Links.add (links : Links) (symbol : Symbol) (next : Items) : Links :=
  let (n, a) := links.automaton.intern next.toList
  match symbol with
  | .token k => ⟨links.shifts.insert k n, links.after, a⟩
  | .rule r => ⟨links.shifts, links.after.insert r n, a⟩

/-- Makes the row of a state. -/
def makeRow (t : Table) (a : Automaton) (state : Nat) : Row × Automaton :=
  let items := t.closure (a.kernels[state]?.getD [])
  let links := (t.transitions items).fold Links.add { automaton := a }
  let actions := t.actionsOf items links.shifts
  let valid := actions.fold (fun set token _ => set ||| 1 <<< token) 0
  let row : Row := ⟨actions, links.after, valid⟩
  (row, { links.automaton with rows := links.automaton.rows.insert state row })

/-- The row of a state, made if it is new. -/
def row (t : Table) (a : Automaton) (state : Nat) : Row × Automaton :=
  match a.rows[state]? with
  | some r => (r, a)
  | none => makeRow t a state

end Automaton

end Glossator.Grammar
