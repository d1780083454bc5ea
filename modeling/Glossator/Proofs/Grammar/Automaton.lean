import Mathlib
import Glossator.Grammar.Automaton

/-!
# What the states of an automaton stand for

An item of a state whose mark is behind a symbol comes from an item of the state before whose mark
is before it. So the items of a state tell what has been read on every way to it. States are only
added, and the rows that are made for them keep to this.

* `Grammar.Table.mem_closure`: the items that a closure adds have their marks at the start.
* `Grammar.Automaton.Sound.row`: the row of a state leads to states that fit.
-/

set_option autoImplicit false

namespace Glossator.Grammar

open Std

/-! ### Items -/

namespace Items

theorem mem_add {items : Items} {item item' : Nat} {set : TokenSet} :
    item' ∈ items.add item set ↔ item' = item ∨ item' ∈ items := by
  unfold add
  rw [TreeMap.mem_alter]
  by_cases h : item = item'
  · simp [h]
  · simp [h, Ne.symm h]

end Items

namespace Table

variable {t : Table}

/-- No production is so long that the marks of its items would run into those of the next one. -/
def Narrow (t : Table) : Prop := ∀ production, (t.steps production).size < Item.width

/-- The mark of an item behind another one is one step further on in the same production. -/
theorem item_succ (ht : t.Narrow) {item : Nat} {s : NumberedStep} (h : t.nextStep? item = some s) :
    Item.production (item + 1) = Item.production item ∧
      Item.mark (item + 1) = Item.mark item + 1 := by
  have hsize := ht (Item.production item)
  have hmark := (Array.getElem?_eq_some_iff.1 h).1
  unfold Item.production Item.mark Item.width at *
  omega

theorem mark_mk_zero (production : Nat) : Item.mark (Item.mk production 0) = 0 := by
  unfold Item.mark Item.mk
  simp

/-- The items that a closure adds to a state have their marks at the start. -/
theorem mem_closure {kernel : Kernel} {item : Nat} (h : item ∈ t.closure kernel) :
    item ∈ kernel.map Prod.fst ∨ Item.mark item = 0 := by
  revert h
  unfold closure
  refine List.foldlRecOn kernel _ (motive := fun items => item ∈ items →
    item ∈ kernel.map Prod.fst ∨ Item.mark item = 0) (fun h => by simp at h) ?_
  rintro items ih ⟨known, set⟩ hknown
  have hadd : item ∈ items.add known set → item ∈ kernel.map Prod.fst ∨ Item.mark item = 0 := by
    intro h
    rcases Items.mem_add.1 h with rfl | h
    · exact .inl (List.mem_map_of_mem hknown)
    · exact ih h
  simp only
  split
  · refine List.foldlRecOn _ _ (motive := fun items => item ∈ items →
      item ∈ kernel.map Prod.fst ∨ Item.mark item = 0) hadd ?_
    intro items ih opening _ h
    rcases Items.mem_add.1 h with rfl | h
    · exact .inr (mark_mk_zero _)
    · exact ih h
  · exact hadd

/-- The item comes from an item of a state by reading a symbol. -/
def Passes (t : Table) (kernel : Kernel) (symbol : Symbol) (item : Nat) : Prop :=
  ∃ before ∈ t.closure kernel, item = before + 1 ∧
    ∃ s, t.nextStep? before = some s ∧ s.symbol = symbol

/-- The items after a symbol come from the items of the state by reading it. -/
theorem passes_of_transitions {kernel : Kernel} {symbol : Symbol} {next : Items}
    (h : (t.transitions (t.closure kernel))[symbol]? = some next) {item : Nat}
    (hitem : item ∈ next) : t.Passes kernel symbol item := by
  have hall : ∀ symbol next, (t.transitions (t.closure kernel))[symbol]? = some next →
      ∀ item ∈ next, t.Passes kernel symbol item := by
    unfold transitions
    rw [TreeMap.foldl_eq_foldl_toList]
    refine List.foldlRecOn _ _ (motive := fun (found : HashMap Symbol Items) => ∀ symbol next,
      found[symbol]? = some next → ∀ item ∈ next, t.Passes kernel symbol item)
      (fun symbol next h => by simp at h) ?_
    rintro found ih ⟨before, set⟩ hbefore symbol next hnext item hitem
    have hmem : before ∈ t.closure kernel := by
      rw [TreeMap.mem_iff_isSome_getElem?, TreeMap.mem_toList_iff_getElem?_eq_some.1 hbefore]
      rfl
    simp only at hnext
    split at hnext
    · next s hs =>
      rw [HashMap.getElem?_alter] at hnext
      split at hnext
      · next hsymbol =>
        obtain rfl := Option.some.inj hnext
        rcases Items.mem_add.1 hitem with rfl | hitem
        · exact ⟨before, hmem, rfl, s, hs, by simpa using hsymbol⟩
        · cases hold : found[s.symbol]? with
          | none => simp [hold] at hitem
          | some old =>
            rw [hold] at hitem
            have hpasses := ih s.symbol old hold item hitem
            rwa [eq_of_beq hsymbol] at hpasses
      · exact ih symbol next hnext item hitem
    · exact ih symbol next hnext item hitem
  exact hall symbol next h item hitem

/-! ### Endings -/

theorem mem_productions_addEnding {rank : Int} {production p : Nat} {side : Option Side}
    {old : Option Endings} {e : Endings} (h : addEnding rank production side old = some e)
    (hp : p ∈ e.productions) : p = production ∨ ∃ e', old = some e' ∧ p ∈ e'.productions := by
  cases old with
  | none =>
    cases h
    exact .inl (List.mem_singleton.1 hp)
  | some e' =>
    simp only [addEnding] at h
    split at h
    · cases h
      exact .inl (List.mem_singleton.1 hp)
    · split at h
      · cases h
        exact .inr ⟨_, rfl, hp⟩
      · cases h
        rcases List.mem_append.1 hp with hp | hp
        · exact .inr ⟨_, rfl, hp⟩
        · exact .inl (List.mem_singleton.1 hp)

/-- The productions that can end in a state have been read to their end there. -/
theorem exists_item_of_endings {items : Items} {token : Nat} {e : Endings}
    (h : (t.endings items)[token]? = some e) {p : Nat} (hp : p ∈ e.productions) :
    ∃ item ∈ items, Item.production item = p ∧ t.nextStep? item = none := by
  have hall : ∀ (token : Nat) (e : Endings), (t.endings items)[token]? = some e →
      ∀ p ∈ e.productions, ∃ item ∈ items, Item.production item = p ∧ t.nextStep? item = none := by
    unfold endings
    rw [TreeMap.foldl_eq_foldl_toList]
    refine List.foldlRecOn _ _ (motive := fun (found : HashMap Nat Endings) =>
      ∀ (token : Nat) (e : Endings),
      found[token]? = some e → ∀ p ∈ e.productions,
        ∃ item ∈ items, Item.production item = p ∧ t.nextStep? item = none)
      (fun token e h => by simp at h) ?_
    rintro found ih ⟨item, set⟩ hitem
    simp only
    split
    · exact ih
    · next hnone =>
      have hend : t.nextStep? item = none := by simpa using hnone
      have hmem : item ∈ items := by
        rw [TreeMap.mem_iff_isSome_getElem?, TreeMap.mem_toList_iff_getElem?_eq_some.1 hitem]
        rfl
      refine List.foldlRecOn _ _ (motive := fun (found : HashMap Nat Endings) =>
      ∀ (token : Nat) (e : Endings),
        found[token]? = some e → ∀ p ∈ e.productions,
          ∃ item ∈ items, Item.production item = p ∧ t.nextStep? item = none) ih ?_
      intro found ih seen _ token e he p hp
      rw [HashMap.getElem?_alter] at he
      split at he
      · rcases mem_productions_addEnding he hp with rfl | ⟨e', he', hp⟩
        · exact ⟨item, hmem, rfl, hend⟩
        · exact ih seen e' he' p hp
      · exact ih token e he p hp
  exact hall token e h p hp

/-- Of the actions that are possible some are chosen. -/
theorem mem_choose {items : Items} {token : Nat} {shift a : Action} {e : Endings}
    (h : a ∈ t.choose items token shift e) : a = shift ∨ a ∈ e.productions.map Action.reduce := by
  have hmem : a ∈ e.productions.map Action.reduce ++ [shift] := by
    simp only [choose] at h
    split at h
    · exact List.mem_append_left _ h
    · repeat' split at h
      all_goals simp_all
  rcases List.mem_append.1 hmem with hmem | hmem
  · exact .inr hmem
  · exact .inl (List.mem_singleton.1 hmem)

end Table

/-! ### States -/

namespace Automaton

variable {t : Table} {a a' a'' : Automaton} {n n' : Nat} {symbol : Symbol}

/-- Reading a symbol in a state leads to a state: the items there come from items of the first
state, but for those whose marks are at the start. -/
def Leads (t : Table) (a : Automaton) (n : Nat) (symbol : Symbol) (n' : Nat) : Prop :=
  ∃ kernel kernel' : Kernel, a.kernels[n]? = some kernel ∧ a.kernels[n']? = some kernel' ∧
    ∀ x ∈ kernel', Item.mark x.1 = 0 ∨ t.Passes kernel symbol x.1

/-- The second automaton has all states of the first one. -/
def Extends (a a' : Automaton) : Prop :=
  ∀ (n : Nat) (kernel : Kernel), a.kernels[n]? = some kernel → a'.kernels[n]? = some kernel

theorem Extends.refl (a : Automaton) : a.Extends a := fun _ _ h => h

theorem Extends.trans (h : a.Extends a') (h' : a'.Extends a'') : a.Extends a'' :=
  fun n kernel hn => h' n kernel (h n kernel hn)

theorem Leads.mono (h : Leads t a n symbol n') (ha : a.Extends a') : Leads t a' n symbol n' := by
  obtain ⟨kernel, kernel', hn, hn', hitems⟩ := h
  exact ⟨kernel, kernel', ha n kernel hn, ha n' kernel' hn', hitems⟩

/-- An item of a state, unless its mark is at the start, comes from the one before the symbol. -/
theorem Leads.exists_item (h : Leads t a n symbol n') (ht : t.Narrow) {kernel : Kernel}
    (hkernel : a.kernels[n']? = some kernel) {item : Nat} (hitem : item ∈ t.closure kernel)
    (hmark : Item.mark item ≠ 0) :
    ∃ kernel₀ before s, a.kernels[n]? = some kernel₀ ∧ before ∈ t.closure kernel₀ ∧
      t.nextStep? before = some s ∧ s.symbol = symbol ∧
      Item.production item = Item.production before ∧ Item.mark item = Item.mark before + 1 := by
  obtain ⟨kernel₀, kernel', hkernel₀, hkernel', hitems⟩ := h
  obtain rfl : kernel' = kernel := Option.some.inj (hkernel'.symm.trans hkernel)
  obtain ⟨x, hx, rfl⟩ := List.mem_map.1 ((Table.mem_closure hitem).resolve_right hmark)
  obtain ⟨before, hbefore, heq, s, hnext, hsymbol⟩ := (hitems x hx).resolve_left hmark
  obtain ⟨hproduction, hsucc⟩ := Table.item_succ ht hnext
  rw [← heq] at hproduction hsucc
  exact ⟨kernel₀, before, s, hkernel₀, hbefore, hnext, hsymbol, hproduction, hsucc⟩

/-- The row of a state fits: tokens and rules lead to states, and only productions that have been
read to their end are ended. -/
structure RowSound (t : Table) (a : Automaton) (n : Nat) (row : Row) : Prop where
  shift : ∀ (token : Nat) (actions : List Action) (n' : Nat), row.actions[token]? = some actions →
    .shift n' ∈ actions → Leads t a n (.token token) n'
  reduce : ∀ (token : Nat) (actions : List Action) (p : Nat), row.actions[token]? = some actions →
    .reduce p ∈ actions → ∃ kernel, a.kernels[n]? = some kernel ∧
      ∃ item ∈ t.closure kernel, Item.production item = p ∧ t.nextStep? item = none
  after : ∀ (rule n' : Nat), row.after[rule]? = some n' → Leads t a n (.rule rule) n'

theorem RowSound.mono {row : Row} (h : RowSound t a n row) (ha : a.Extends a') :
    RowSound t a' n row where
  shift token actions n' hactions hmem := (h.shift token actions n' hactions hmem).mono ha
  reduce token actions p hactions hmem := by
    obtain ⟨kernel, hkernel, hitem⟩ := h.reduce token actions p hactions hmem
    exact ⟨kernel, ha n kernel hkernel, hitem⟩
  after rule n' hafter := (h.after rule n' hafter).mono ha

/-- An automaton whose rows fit its states. -/
structure Sound (t : Table) (a : Automaton) : Prop where
  first : ∃ set, a.kernels[0]? = some [(Item.mk t.whole 0, set)]
  numbers : ∀ (kernel : Kernel) (n : Nat), a.numbers[kernel]? = some n → a.kernels[n]? = some kernel
  rows : ∀ (n : Nat) (row : Row), a.rows[n]? = some row → RowSound t a n row

/-- The first state can stand behind anything, since nothing has been read there. -/
theorem Sound.leads_zero (h : a.Sound t) {kernel : Kernel} (hn : a.kernels[n]? = some kernel)
    (symbol : Symbol) : Leads t a n symbol 0 := by
  obtain ⟨set, hfirst⟩ := h.first
  refine ⟨kernel, _, hn, hfirst, ?_⟩
  intro x hx
  rw [List.mem_singleton.1 hx]
  exact .inl (Table.mark_mk_zero _)

theorem extends_intern (a : Automaton) (kernel : Kernel) : a.Extends (a.intern kernel).2 := by
  intro n kernel' hn
  unfold intern
  split
  · exact hn
  · simp only
    rw [Array.getElem?_push, if_neg, hn]
    have := (Array.getElem?_eq_some_iff.1 hn).1
    omega

/-- A state that is made has its kernel. -/
theorem Sound.intern (h : a.Sound t) (kernel : Kernel) : (a.intern kernel).2.Sound t ∧
    (a.intern kernel).2.kernels[(a.intern kernel).1]? = some kernel := by
  have hext := extends_intern a kernel
  unfold Automaton.intern at hext ⊢
  split at hext
  · next n hn =>
    exact ⟨h, h.numbers kernel n hn⟩
  · refine ⟨⟨?_, ?_, ?_⟩, ?_⟩
    · obtain ⟨set, hfirst⟩ := h.first
      exact ⟨set, hext 0 _ hfirst⟩
    · intro kernel' n hn
      simp only [HashMap.getElem?_insert] at hn
      split at hn
      · next heq =>
        obtain rfl := Option.some.inj hn
        rw [← eq_of_beq heq]
        simp
      · exact hext n kernel' (h.numbers kernel' n hn)
    · intro n row hrow
      exact (h.rows n row hrow).mono hext
    · simp

/-- The states that a row leads to while it is made. -/
structure Linked (t : Table) (a : Automaton) (n : Nat) (links : Links) : Prop where
  sound : links.automaton.Sound t
  extend : a.Extends links.automaton
  shifts : ∀ (token n' : Nat), links.shifts[token]? = some n' →
    Leads t links.automaton n (.token token) n'
  after : ∀ (rule n' : Nat), links.after[rule]? = some n' →
    Leads t links.automaton n (.rule rule) n'

theorem Linked.add {links : Links} (h : Linked t a n links) {kernel : Kernel}
    (hn : a.kernels[n]? = some kernel) {next : Items}
    (hnext : (t.transitions (t.closure kernel))[symbol]? = some next) :
    Linked t a n (links.add symbol next) := by
  obtain ⟨hsound, hkernel⟩ := h.sound.intern next.toList
  have hext := extends_intern links.automaton next.toList
  have hleads : Leads t (links.automaton.intern next.toList).2 n symbol
      (links.automaton.intern next.toList).1 := by
    refine ⟨kernel, _, hext n kernel (h.extend n kernel hn), hkernel, ?_⟩
    intro x hx
    right
    apply Table.passes_of_transitions hnext
    rw [TreeMap.mem_iff_isSome_getElem?, TreeMap.mem_toList_iff_getElem?_eq_some.1 hx]
    rfl
  cases symbol with
  | token k =>
    refine ⟨hsound, h.extend.trans hext, ?_, fun r n' hr => (h.after r n' hr).mono hext⟩
    intro token n' htoken
    simp only [Links.add, HashMap.getElem?_insert] at htoken
    split at htoken
    · next heq =>
      obtain rfl := eq_of_beq heq
      obtain rfl := Option.some.inj htoken
      exact hleads
    · exact (h.shifts token n' htoken).mono hext
  | rule r =>
    refine ⟨hsound, h.extend.trans hext, fun k n' hk => (h.shifts k n' hk).mono hext, ?_⟩
    intro rule n' hrule
    simp only [Links.add, HashMap.getElem?_insert] at hrule
    split at hrule
    · next heq =>
      obtain rfl := eq_of_beq heq
      obtain rfl := Option.some.inj hrule
      exact hleads
    · exact (h.after rule n' hrule).mono hext

/-- An action reads its token as far as that can be read, or ends a production that can end. -/
def Justified (endings : HashMap Nat Endings) (shifts : HashMap Nat Nat)
    (found : HashMap Nat (List Action)) : Prop :=
  ∀ (token : Nat) (actions : List Action), found[token]? = some actions → ∀ action ∈ actions,
    (∃ n', shifts[token]? = some n' ∧ action = .shift n') ∨
      ∃ e, endings[token]? = some e ∧ action ∈ e.productions.map Action.reduce

theorem justified_actionsOf (t : Table) (items : Items) (shifts : HashMap Nat Nat) :
    Justified (t.endings items) shifts (t.actionsOf items shifts) := by
  unfold Table.actionsOf
  rw [HashMap.fold_eq_foldl_toList, HashMap.fold_eq_foldl_toList]
  refine List.foldlRecOn _ _ (motive := Justified (t.endings items) shifts)
    (List.foldlRecOn _ _ (motive := Justified (t.endings items) shifts)
      (fun _ _ h => by simp at h) ?_) ?_
  · rintro found ih ⟨k, n'⟩ hk token actions hactions action haction
    rw [HashMap.mem_toList_iff_getElem?_eq_some] at hk
    simp only [HashMap.getElem?_insert] at hactions
    split at hactions
    · next heq =>
      obtain rfl := eq_of_beq heq
      obtain rfl := Option.some.inj hactions
      split at haction
      · exact .inl ⟨n', hk, List.mem_singleton.1 haction⟩
      · next e he =>
        rcases Table.mem_choose haction with rfl | haction
        · exact .inl ⟨n', hk, rfl⟩
        · exact .inr ⟨e, he, haction⟩
    · exact ih token actions hactions action haction
  · rintro found ih ⟨k, e⟩ he token actions hactions action haction
    rw [HashMap.mem_toList_iff_getElem?_eq_some] at he
    simp only at hactions
    split at hactions
    · exact ih token actions hactions action haction
    · simp only [HashMap.getElem?_insert] at hactions
      split at hactions
      · next heq =>
        obtain rfl := eq_of_beq heq
        obtain rfl := Option.some.inj hactions
        exact .inr ⟨e, he, haction⟩
      · exact ih token actions hactions action haction

theorem Linked.rowSound {links : Links} (h : Linked t a n links) {kernel : Kernel}
    (hn : a.kernels[n]? = some kernel) {row : Row}
    (hactions : row.actions = t.actionsOf (t.closure kernel) links.shifts)
    (hafter : row.after = links.after) : RowSound t links.automaton n row := by
  have hjustified := justified_actionsOf t (t.closure kernel) links.shifts
  refine ⟨?_, ?_, ?_⟩
  · intro token actions n' hsome hmem
    rw [hactions] at hsome
    rcases hjustified token actions hsome _ hmem with ⟨n'', hn'', heq⟩ | ⟨e, -, hreduce⟩
    · cases heq
      exact h.shifts token n' hn''
    · obtain ⟨p, -, hp⟩ := List.mem_map.1 hreduce
      cases hp
  · intro token actions p hsome hmem
    rw [hactions] at hsome
    rcases hjustified token actions hsome _ hmem with ⟨n'', -, heq⟩ | ⟨e, he, hreduce⟩
    · cases heq
    · obtain ⟨p, hp, heq⟩ := List.mem_map.1 hreduce
      cases heq
      exact ⟨kernel, h.extend n kernel hn, Table.exists_item_of_endings he hp⟩
  · intro rule n' hsome
    rw [hafter] at hsome
    exact h.after rule n' hsome

/-- The row that is made for a state fits. -/
theorem Sound.makeRow (h : a.Sound t) {kernel : Kernel} (hn : a.kernels[n]? = some kernel) :
    (a.makeRow t n).2.Sound t ∧ a.Extends (a.makeRow t n).2 ∧
      RowSound t (a.makeRow t n).2 n (a.makeRow t n).1 := by
  simp only [Automaton.makeRow, hn, Option.getD_some]
  have hlinked : Linked t a n
      ((t.transitions (t.closure kernel)).fold Links.add { automaton := a }) := by
    rw [HashMap.fold_eq_foldl_toList]
    refine List.foldlRecOn _ _ (motive := Linked t a n)
      ⟨h, .refl a, fun _ _ h => by simp at h, fun _ _ h => by simp at h⟩ ?_
    rintro links ih ⟨symbol, next⟩ hnext
    exact ih.add hn (HashMap.mem_toList_iff_getElem?_eq_some.1 hnext)
  generalize (t.transitions (t.closure kernel)).fold Links.add { automaton := a } = links at hlinked
  have hrow (valid : TokenSet) : RowSound t links.automaton n
      ⟨t.actionsOf (t.closure kernel) links.shifts, links.after, valid⟩ :=
    hlinked.rowSound hn rfl rfl
  refine ⟨⟨hlinked.sound.first, hlinked.sound.numbers, ?_⟩, hlinked.extend,
    (hrow _).mono fun _ _ h => h⟩
  intro k row hk
  simp only [HashMap.getElem?_insert] at hk
  split at hk
  · next heq =>
    obtain rfl := eq_of_beq heq
    obtain rfl := Option.some.inj hk
    exact (hrow _).mono fun _ _ h => h
  · exact (hlinked.sound.rows k row hk).mono fun _ _ h => h

/-- The row of a state fits, whether it was made before or is made now. -/
theorem Sound.row (h : a.Sound t) {kernel : Kernel} (hn : a.kernels[n]? = some kernel) :
    (a.row t n).2.Sound t ∧ a.Extends (a.row t n).2 ∧ RowSound t (a.row t n).2 n (a.row t n).1 := by
  unfold Automaton.row
  split
  · next row hrow => exact ⟨h, .refl a, h.rows n row hrow⟩
  · exact h.makeRow hn

/-- The automaton with only the state in which a text starts has no rows yet. -/
theorem sound_initial (t : Table) : (initial t).Sound t := by
  have hempty : (initial t).kernels = #[[(Item.mk t.whole 0, 1 <<< t.number endOfText)]] ∧
      (initial t).numbers =
        (∅ : HashMap Kernel Nat).insert [(Item.mk t.whole 0, 1 <<< t.number endOfText)] 0 ∧
      (initial t).rows = ∅ := by
    simp [initial, Automaton.intern]
  obtain ⟨hkernels, hnumbers, hrows⟩ := hempty
  refine ⟨⟨_, by rw [hkernels]; rfl⟩, ?_, ?_⟩
  · intro kernel n hn
    rw [hnumbers, HashMap.getElem?_insert] at hn
    split at hn
    · next heq =>
      obtain rfl := Option.some.inj hn
      rw [hkernels, ← eq_of_beq heq]
      rfl
    · simp at hn
  · intro n row hrow
    rw [hrows] at hrow
    simp at hrow

end Automaton

end Glossator.Grammar
