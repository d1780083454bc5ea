import Glossator.Proofs.Grammar.Automaton
import Glossator.Grammar.Parser

/-!
# The stack of a parse

The entries of a stack are constructs that lead from state to state, one behind the other. When a
production ends, the topmost entries are constructs of its steps, so they make a construct of its
rule.

* `Grammar.Constructs`: constructs that are made of constructs as a grammar says.
* `Grammar.Stacked.exists_take`: the entries of a production that has been read up to a mark.
* `Grammar.Stacked.exists_ended`: the topmost entries when a production ends.
* `Grammar.Stacked.finish`: the stack after a production has ended.
-/

set_option autoImplicit false

namespace Glossator.Grammar

/-- The piece stands between two places. -/
structure Piece.Placed (IsPlace : Place → Prop) (p : Piece) : Prop where
  start : IsPlace p.info.start
  stop : IsPlace p.info.stop
  le : p.info.start.offset ≤ p.info.stop.offset

/-- The entries that are part of a production. -/
def own (frames : List Frame) : List Frame := frames.filter fun f => !f.anywhere

/-- The entries stand one behind the other. -/
def InOrder (frames : List Frame) : Prop :=
  frames.Pairwise fun f g => f.piece.info.stop.offset ≤ g.piece.info.start.offset

variable {P : Symbol → Piece → Prop} {Extra : Piece → Prop} {IsPlace : Place → Prop}

/-- The entries are constructs of the steps of a production, with others between them that may stand
anywhere. -/
structure Fills (P : Symbol → Piece → Prop) (Extra : Piece → Prop) (frames : List Frame)
    (steps : List NumberedStep) : Prop where
  own : List.Forall₂ (fun f s => P s.symbol f.piece) (own frames) steps
  extra : ∀ f ∈ frames, f.anywhere = true → Extra f.piece

/-- Constructs of symbols, and pieces that may stand anywhere: what the steps of a production make
is a construct of its rule. -/
structure Constructs (t : Table) (IsPlace : Place → Prop) (Extra : Piece → Prop)
    (P : Symbol → Piece → Prop) : Prop where
  placed : ∀ symbol p, P symbol p → p.Placed IsPlace
  extra : ∀ p, Extra p → p.Placed IsPlace
  rule : ∀ production frames here, production ≠ t.whole →
    Fills P Extra frames (t.steps production).toList → InOrder frames →
    (∀ f ∈ frames.head?, f.anywhere = false) → (∀ f ∈ frames.getLast?, f.anywhere = false) →
    IsPlace here →
    P (.rule (t.produces production)) (t.construct production frames here)

namespace Fills

variable {frames : List Frame} {steps : List NumberedStep}

theorem nil : Fills P Extra [] [] := ⟨.nil, fun _ h => absurd h List.not_mem_nil⟩

theorem concat_extra (h : Fills P Extra frames steps) {f : Frame} (hf : f.anywhere = true)
    (hextra : Extra f.piece) : Fills P Extra (frames ++ [f]) steps := by
  have hown : Grammar.own (frames ++ [f]) = Grammar.own frames := by simp [Grammar.own, hf]
  constructor
  · rw [hown]
    exact h.own
  · intro g hg hanywhere
    rcases List.mem_append.1 hg with hg | hg
    · exact h.extra g hg hanywhere
    · rwa [List.mem_singleton.1 hg]

theorem concat_step (h : Fills P Extra frames steps) {f : Frame} (hf : f.anywhere = false)
    {s : NumberedStep} (hs : P s.symbol f.piece) :
    Fills P Extra (frames ++ [f]) (steps ++ [s]) := by
  have hown : Grammar.own (frames ++ [f]) = Grammar.own frames ++ [f] := by
    simp [Grammar.own, hf]
  constructor
  · rw [hown]
    exact List.rel_append h.own (.cons hs .nil)
  · intro g hg hanywhere
    rcases List.mem_append.1 hg with hg | hg
    · exact h.extra g hg hanywhere
    · rw [List.mem_singleton.1 hg, hf] at hanywhere
      cases hanywhere

end Fills

theorem Table.construct_stop_concat (t : Table) (production : Nat) (front : List Frame)
    (last : Frame) (here : Place) :
    (t.construct production (front ++ [last]) here).info.stop = last.piece.info.stop := by
  simp [Table.construct]

/-! ### Stacks -/

/-- Everything on the stack ends before an offset. -/
def EndsBefore (s : Stack) (offset : Nat) : Prop :=
  ∀ f ∈ s.head?, f.piece.info.stop.offset ≤ offset

theorem EndsBefore.mono {s : Stack} {i j : Nat} (h : EndsBefore s i) (hle : i ≤ j) :
    EndsBefore s j := fun f hf => (h f hf).trans hle

/-- The entries of the stack are constructs that lead from state to state, one behind the other. -/
inductive Stacked (t : Table) (P : Symbol → Piece → Prop) (Extra : Piece → Prop) (a : Automaton) :
    Stack → Prop where
  | nil : Stacked t P Extra a []
  | extra {f : Frame} {s : Stack} : Stacked t P Extra a s → f.anywhere = true →
      f.state = Stack.state s → Extra f.piece → EndsBefore s f.piece.info.start.offset →
      Stacked t P Extra a (f :: s)
  | step {f : Frame} {s : Stack} {symbol : Symbol} : Stacked t P Extra a s → f.anywhere = false →
      P symbol f.piece → Automaton.Leads t a (Stack.state s) symbol f.state →
      EndsBefore s f.piece.info.start.offset → Stacked t P Extra a (f :: s)

namespace Stacked

variable {t : Table} {a a' : Automaton} {s : Stack}

theorem mono (h : Stacked t P Extra a s) (ha : a.Extends a') : Stacked t P Extra a' s := by
  induction h with
  | nil => exact .nil
  | extra _ hf hstate hextra hbefore ih => exact .extra ih hf hstate hextra hbefore
  | step _ hf hpiece hleads hbefore ih => exact .step ih hf hpiece (hleads.mono ha) hbefore

theorem exists_kernel (h : Stacked t P Extra a s) (ha : a.Sound t) :
    ∃ kernel, a.kernels[Stack.state s]? = some kernel := by
  induction h with
  | nil =>
    obtain ⟨set, hset⟩ := ha.first
    exact ⟨_, hset⟩
  | @extra f s _ _ hstate _ _ ih =>
    obtain ⟨kernel, hkernel⟩ := ih
    refine ⟨kernel, ?_⟩
    rw [← hkernel, ← hstate]
    rfl
  | step _ _ _ hleads _ _ =>
    obtain ⟨_, kernel, -, hkernel, -⟩ := hleads
    exact ⟨kernel, hkernel⟩

theorem placed (h : Stacked t P Extra a s) (hP : Constructs t IsPlace Extra P) :
    ∀ f ∈ s, f.piece.Placed IsPlace := by
  induction h with
  | nil => exact fun f hf => absurd hf List.not_mem_nil
  | extra _ _ _ hextra _ ih =>
    intro g hg
    rcases List.mem_cons.1 hg with rfl | hg
    · exact hP.extra _ hextra
    · exact ih g hg
  | step _ _ hpiece _ _ ih =>
    intro g hg
    rcases List.mem_cons.1 hg with rfl | hg
    · exact hP.placed _ _ hpiece
    · exact ih g hg

/-- What ends before an offset does so entry by entry. -/
theorem stop_le_of_endsBefore (h : Stacked t P Extra a s) (hP : Constructs t IsPlace Extra P)
    {offset : Nat} (hbefore : EndsBefore s offset) :
    ∀ f ∈ s, f.piece.info.stop.offset ≤ offset := by
  induction h generalizing offset with
  | nil => exact fun f hf => absurd hf List.not_mem_nil
  | @extra f s _ _ _ hextra hs ih =>
    have hf := hbefore f rfl
    have hle := (hP.extra _ hextra).le
    intro g hg
    rcases List.mem_cons.1 hg with rfl | hg
    · exact hf
    · exact ih (hs.mono (hle.trans hf)) g hg
  | @step f s _ _ _ hpiece _ hs ih =>
    have hf := hbefore f rfl
    have hle := (hP.placed _ _ hpiece).le
    intro g hg
    rcases List.mem_cons.1 hg with rfl | hg
    · exact hf
    · exact ih (hs.mono (hle.trans hf)) g hg

theorem inOrder (h : Stacked t P Extra a s) (hP : Constructs t IsPlace Extra P) :
    InOrder s.reverse := by
  unfold InOrder
  rw [List.pairwise_reverse]
  induction h with
  | nil => exact .nil
  | extra hs _ _ _ hbefore ih => exact .cons (hs.stop_le_of_endsBefore hP hbefore) ih
  | step hs _ _ _ hbefore ih => exact .cons (hs.stop_le_of_endsBefore hP hbefore) ih

/-- The entries of a production are those of its steps up to the mark of an item that has been
read. -/
theorem exists_take (h : Stacked t P Extra a s) (ht : t.Narrow) (ha : a.Sound t) {kernel : Kernel}
    (hkernel : a.kernels[Stack.state s]? = some kernel) {item : Nat}
    (hitem : item ∈ t.closure kernel) (taken : List Frame) :
    Item.mark item ≤ (t.steps (Item.production item)).size ∧
      ∃ frames below, Stack.take (Item.mark item) taken s = (frames ++ taken, below) ∧
        s = frames.reverse ++ below ∧ Stacked t P Extra a below ∧
        Fills P Extra frames ((t.steps (Item.production item)).toList.take (Item.mark item)) ∧
        ∀ f ∈ frames.head?, f.anywhere = false := by
  induction h generalizing kernel item taken with
  | nil =>
    -- nothing has been read in the first state
    obtain ⟨set, hfirst⟩ := ha.first
    have hmark : Item.mark item = 0 := by
      rw [show Stack.state [] = 0 from rfl, hfirst] at hkernel
      obtain rfl := Option.some.inj hkernel
      rcases Table.mem_closure hitem with hmem | hmark
      · rw [List.mem_singleton.1 hmem]
        exact Table.mark_mk_zero _
      · exact hmark
    rw [hmark]
    exact ⟨Nat.zero_le _, [], [], rfl, rfl, .nil, .nil, fun f hf => by cases hf⟩
  | @extra f s hs hf hstate hextra hbefore ih =>
    by_cases hmark : Item.mark item = 0
    · rw [hmark]
      exact ⟨Nat.zero_le _, [], f :: s, by simp [Stack.take], rfl,
        .extra hs hf hstate hextra hbefore, .nil, fun g hg => by cases hg⟩
    rw [show Stack.state (f :: s) = f.state from rfl, hstate] at hkernel
    obtain ⟨hle, frames, below, htake, heq, hbelow, hfills, hhead⟩ :=
      ih hkernel hitem (f :: taken)
    refine ⟨hle, frames ++ [f], below, ?_, ?_, hbelow, hfills.concat_extra hf hextra, ?_⟩
    · rw [Stack.take, if_neg hmark, if_pos hf, htake, List.append_assoc, List.singleton_append]
    · rw [heq, List.reverse_append]
      rfl
    · -- a step has been read, and it is the first
      have hne : frames ≠ [] := by
        rintro rfl
        have hlength := hfills.own.length_eq
        rw [List.length_take, Nat.min_eq_left (by simpa using hle)] at hlength
        exact hmark hlength.symm
      rwa [List.head?_append_of_ne_nil _ hne]
  | @step f s symbol hs hf hpiece hleads hbefore ih =>
    by_cases hmark : Item.mark item = 0
    · rw [hmark]
      exact ⟨Nat.zero_le _, [], f :: s, by simp [Stack.take], rfl,
        .step hs hf hpiece hleads hbefore, .nil, fun g hg => by cases hg⟩
    -- the item comes from the one before the symbol, in the state below
    obtain ⟨kernel₀, before, st, hkernel₀, hbeforeItem, hnext, hsymbol, hproduction, hsucc⟩ :=
      hleads.exists_item ht hkernel hitem hmark
    obtain ⟨-, frames, below, htake, heq, hbelow, hfills, hhead⟩ :=
      ih hkernel₀ hbeforeItem (f :: taken)
    obtain ⟨hlt, hget⟩ := Array.getElem?_eq_some_iff.1 hnext
    have hsteps : (t.steps (Item.production before)).toList.take (Item.mark before + 1) =
        (t.steps (Item.production before)).toList.take (Item.mark before) ++ [st] := by
      rw [List.take_succ_eq_append_getElem (by simpa using hlt), Array.getElem_toList, hget]
    rw [hproduction, hsucc] at *
    refine ⟨hlt, frames ++ [f], below, ?_, ?_, hbelow, ?_, ?_⟩
    · rw [Stack.take, if_neg (Nat.succ_ne_zero _), if_neg (by simp [hf]), Nat.add_sub_cancel, htake,
        List.append_assoc, List.singleton_append]
    · rw [heq, List.reverse_append]
      rfl
    · rw [hsteps]
      exact hfills.concat_step hf (hsymbol ▸ hpiece)
    · intro g hg
      rw [List.head?_append, Option.mem_def, Option.or_eq_some_iff] at hg
      rcases hg with hg | ⟨-, hg⟩
      · exact hhead g hg
      · cases hg
        exact hf

theorem tail {f : Frame} (h : Stacked t P Extra a (f :: s)) : Stacked t P Extra a s := by
  cases h with
  | extra h _ _ _ _ => exact h
  | step h _ _ _ _ => exact h

theorem endsBefore_tail {f : Frame} (h : Stacked t P Extra a (f :: s)) :
    EndsBefore s f.piece.info.start.offset := by
  cases h with
  | extra _ _ _ _ hbefore => exact hbefore
  | step _ _ _ _ hbefore => exact hbefore

theorem drop {front : List Frame} (h : Stacked t P Extra a (front ++ s)) :
    Stacked t P Extra a s := by
  induction front with
  | nil => exact h
  | cons f front ih => exact ih h.tail

theorem state_append {front : List Frame} (h : Stacked t P Extra a (front ++ s))
    (hfront : ∀ f ∈ front, f.anywhere = true) : Stack.state (front ++ s) = Stack.state s := by
  induction front with
  | nil => rfl
  | cons f front ih =>
    rw [← ih h.tail fun g hg => hfront g (List.mem_cons_of_mem f hg)]
    cases h with
    | extra _ _ hstate _ _ => exact hstate
    | step _ hf _ _ _ =>
      rw [hfront f List.mem_cons_self] at hf
      cases hf

/-- What may stand anywhere can be put on top of another stack that ends as early. -/
theorem restack {front : List Frame} {s' : Stack} (h : Stacked t P Extra a (front ++ s))
    (hfront : ∀ f ∈ front, f.anywhere = true) (h' : Stacked t P Extra a s')
    (hends : ∀ offset, EndsBefore s offset → EndsBefore s' offset) :
    Stacked t P Extra a (front.map (fun f => { f with state := Stack.state s' }) ++ s') ∧
      ∀ offset, EndsBefore (front ++ s) offset →
        EndsBefore (front.map (fun f => { f with state := Stack.state s' }) ++ s') offset := by
  induction front with
  | nil => exact ⟨h', hends⟩
  | cons f front ih =>
    have hrest : ∀ g ∈ front, g.anywhere = true :=
      fun g hg => hfront g (List.mem_cons_of_mem f hg)
    obtain ⟨hstacked, hbefore⟩ := ih h.tail hrest
    have hstate : Stack.state (front.map (fun f => { f with state := Stack.state s' }) ++ s') =
        Stack.state s' := by
      cases front <;> rfl
    cases h with
    | extra _ hf _ hextra hs =>
      refine ⟨.extra hstacked hf hstate.symm hextra (hbefore _ hs), ?_⟩
      intro offset hoffset g hg
      cases hg
      exact hoffset f rfl
    | step _ hf _ _ _ =>
      rw [hfront f List.mem_cons_self] at hf
      cases hf

/-- The topmost entries when a production ends: constructs of its steps, and on top of them what may
stand anywhere. -/
structure Ended (t : Table) (P : Symbol → Piece → Prop) (Extra : Piece → Prop) (production : Nat)
    (s : Stack) (frames : List Frame) (below : Stack) (trailing : List Frame) : Prop where
  finish_eq : ∀ here,
    Grammar.finish t production s here = (below, t.construct production frames here, trailing)
  split : s = trailing ++ (frames.reverse ++ below)
  anywhere : ∀ f ∈ trailing, f.anywhere = true
  fills : Fills P Extra frames (t.steps production).toList
  first : ∀ f ∈ frames.head?, f.anywhere = false
  last : ∀ f ∈ frames.getLast?, f.anywhere = false
  nil : frames = [] → trailing = []

/-- When a production ends, the topmost entries are constructs of its steps. -/
theorem exists_ended (h : Stacked t P Extra a s) (ht : t.Narrow) (ha : a.Sound t) {kernel : Kernel}
    (hkernel : a.kernels[Stack.state s]? = some kernel) {item : Nat}
    (hitem : item ∈ t.closure kernel) (hfinished : t.nextStep? item = none) :
    ∃ frames below trailing, Stacked t P Extra a below ∧
      Ended t P Extra (Item.production item) s frames below trailing := by
  set production := Item.production item with hproduction
  set count := (t.steps production).size with hcount
  set trailing := s.takeWhile fun f => f.anywhere && count != 0 with htrailing
  have hsplit : trailing ++ s.drop trailing.length = s :=
    List.prefix_iff_eq_append.1 (List.takeWhile_prefix _)
  have hanywhere : ∀ f ∈ trailing, f.anywhere = true := by
    intro f hf
    rw [htrailing] at hf
    have hboth := List.mem_takeWhile_imp hf
    exact (Bool.and_eq_true_iff.1 hboth).1
  have hstacked : Stacked t P Extra a (trailing ++ s.drop trailing.length) := by rwa [hsplit]
  have hstate := hstacked.state_append hanywhere
  rw [hsplit] at hstate
  rw [hstate] at hkernel
  obtain ⟨hmark, frames, below, htake, heq, hbelow, hfills, hfirst⟩ :=
    hstacked.drop.exists_take ht ha hkernel hitem []
  -- the mark is behind the last step
  have hmarkCount : Item.mark item = count :=
    Nat.le_antisymm hmark (Array.getElem?_eq_none_iff.1 hfinished)
  rw [hmarkCount] at htake hfills
  rw [List.append_nil] at htake
  have hsteps : (t.steps production).toList.take count = (t.steps production).toList := by
    rw [hcount, ← Array.length_toList, List.take_length]
  rw [hsteps] at hfills
  have hzero : count = 0 ↔ frames = [] := by
    constructor
    · intro hzero
      rw [hzero] at htake
      cases hrest : s.drop trailing.length <;> rw [hrest] at htake <;> cases htake <;> rfl
    · rintro rfl
      have hlength := hfills.own.length_eq
      rw [Array.length_toList] at hlength
      exact hlength.symm
  refine ⟨frames, below, trailing, hbelow, ?_, ?_, hanywhere, hfills, hfirst, ?_, ?_⟩
  · intro here
    unfold Grammar.finish
    simp only [← hcount, ← htrailing, htake]
  · rw [← heq, hsplit]
  · intro f hf
    have hne : count ≠ 0 := fun h => by
      rw [hzero.1 h] at hf
      cases hf
    have hdrop : s.drop trailing.length = s.dropWhile fun f => f.anywhere && count != 0 :=
      List.append_cancel_left (hsplit.trans List.takeWhile_append_dropWhile.symm)
    have hhead := List.head?_dropWhile_not (fun f : Frame => f.anywhere && count != 0) s
    rw [← hdrop, heq, List.head?_append, List.head?_reverse, hf] at hhead
    simpa [hne] using hhead
  · intro hnil
    rw [htrailing, hzero.2 hnil]
    cases s <;> simp

/-- A construct stands behind what is below its entries, and ends as early as they do. -/
theorem endsBefore_construct {frames : List Frame}
    (h : Stacked t P Extra a (frames.reverse ++ s)) (hne : frames ≠ []) (production : Nat)
    (here : Place) (state : Nat) :
    EndsBefore s (t.construct production frames here).info.start.offset ∧
      ∀ offset, EndsBefore (frames.reverse ++ s) offset →
        EndsBefore (⟨state, t.construct production frames here, false⟩ :: s) offset := by
  constructor
  · obtain ⟨f, rest, rfl⟩ := List.exists_cons_of_ne_nil hne
    rw [List.reverse_cons, List.append_assoc] at h
    exact h.drop.endsBefore_tail
  · obtain ⟨front, last, rfl⟩ := (List.eq_nil_or_concat frames).resolve_left hne
    rw [List.concat_eq_append]
    intro offset hoffset f hf
    cases hf
    rw [Table.construct_stop_concat]
    exact hoffset last (by simp)

/-- The construct of a production that has ended takes the place of its entries. What stands behind
them stays on top. -/
theorem Ended.restack {production : Nat} {frames trailing : List Frame} {below : Stack}
    (hended : Ended t P Extra production s frames below trailing) (h : Stacked t P Extra a s)
    (hbelow : Stacked t P Extra a below) {symbol : Symbol} {state : Nat} {here : Place}
    (hpiece : P symbol (t.construct production frames here))
    (hleads : Automaton.Leads t a (Stack.state below) symbol state)
    (hbefore : EndsBefore s here.offset) :
    Stacked t P Extra a (trailing.map (fun f => { f with state := state }) ++
        ⟨state, t.construct production frames here, false⟩ :: below) ∧
      EndsBefore (trailing.map (fun f => { f with state := state }) ++
        ⟨state, t.construct production frames here, false⟩ :: below) here.offset := by
  have hsplit := hended.split
  by_cases hne : frames = []
  · -- an empty construct stands here, and nothing is taken from the stack
    have hnone := hended.nil hne
    subst hne
    rw [hnone] at hsplit ⊢
    obtain rfl : s = below := hsplit
    exact ⟨.step hbelow rfl hpiece hleads hbefore, fun f hf => by cases hf; exact le_rfl⟩
  · subst hsplit
    obtain ⟨hstart, hstop⟩ := h.drop.endsBefore_construct hne production here state
    have htop : Stacked t P Extra a (⟨state, t.construct production frames here, false⟩ :: below) :=
      .step hbelow rfl hpiece hleads hstart
    obtain ⟨hstacked, hends⟩ := h.restack hended.anywhere htop hstop
    exact ⟨hstacked, hends _ hbefore⟩

/-- When a production ends, the topmost entries make a construct of its rule, which takes their
place. What stands behind them stays on top. -/
theorem finish (h : Stacked t P Extra a s) (hP : Constructs t IsPlace Extra P) (ht : t.Narrow)
    (ha : a.Sound t) {kernel : Kernel} (hkernel : a.kernels[Stack.state s]? = some kernel)
    {item : Nat} (hitem : item ∈ t.closure kernel) (hfinished : t.nextStep? item = none)
    (hne : Item.production item ≠ t.whole) {here : Place} (hhere : IsPlace here)
    (hbefore : EndsBefore s here.offset) :
    ∃ below piece trailing,
      Grammar.finish t (Item.production item) s here = (below, piece, trailing) ∧
      Stacked t P Extra a below ∧
      ∀ a' state, a.Extends a' →
        Automaton.Leads t a' (Stack.state below) (.rule (t.produces (Item.production item))) state →
        Stacked t P Extra a' (trailing.map (fun f => { f with state := state }) ++
          ⟨state, piece, false⟩ :: below) ∧
        EndsBefore (trailing.map (fun f => { f with state := state }) ++
          ⟨state, piece, false⟩ :: below) here.offset := by
  obtain ⟨frames, below, trailing, hbelow, hended⟩ := h.exists_ended ht ha hkernel hitem hfinished
  have hinOrder : InOrder frames := by
    have horder := h.inOrder hP
    unfold InOrder at horder
    rw [hended.split, List.reverse_append, List.reverse_append, List.reverse_reverse,
      List.pairwise_append, List.pairwise_append] at horder
    exact horder.1.2.1
  have hpiece := hP.rule _ frames here hne hended.fills hinOrder hended.first hended.last hhere
  exact ⟨below, _, trailing, hended.finish_eq here, hbelow, fun a' state hext hleads =>
    hended.restack (h.mono hext) (hbelow.mono hext) hpiece hleads hbefore⟩

end Stacked

end Glossator.Grammar
