import Glossator.Proofs.Text.Lines
import Glossator.Tree

/-!
# Trees of texts

The nodes of the tree of a text stand between places of the text, their children in order inside
them. The row of a place is the number of newlines before it, and its column is 0 where a line
starts.

* `Text.row_placeAt`, `Text.column_placeAt_eq_zero_iff`: rows and columns of places.
* `Tree.Every`: a property that every node of a tree has.
* `Tree.Placed`: where a node and its children stand.
* `Tree.IsNodeOf`: the nodes of a tree, which stand inside it.
-/

set_option autoImplicit false

namespace Glossator

/-! ### Places -/

namespace Text

variable {t : Text} {n : Nat}

/-- The place of an offset. -/
def placeAt (t : Text) (n : Nat) : Place := (t.take n).foldl Place.after .start

/-- The place is one of the text, its end included. -/
def IsPlace (t : Text) (p : Place) : Prop := ∃ n ≤ t.length, t.placeAt n = p

theorem foldl_after (cs : Text) (p : Place) :
    (cs.foldl Place.after p).offset = p.offset + cs.length ∧
      (cs.foldl Place.after p).row = p.row + cs.count '\n' := by
  induction cs generalizing p with
  | nil => simp
  | cons c cs ih =>
    obtain ⟨hoffset, hrow⟩ := ih (p.after c)
    rw [List.foldl_cons, hoffset, hrow, Place.after]
    by_cases hc : c = '\n'
    · simp only [hc, if_true, List.length_cons, List.count_cons_self]
      omega
    · simp only [if_neg hc, List.length_cons, List.count_cons_of_ne hc, and_true]
      omega

theorem offset_placeAt (h : n ≤ t.length) : (t.placeAt n).offset = n := by
  rw [placeAt, (foldl_after _ _).1, List.length_take, Nat.min_eq_left h]
  exact Nat.zero_add n

/-- The row of a place is the number of newlines before it. -/
theorem row_placeAt (t : Text) (n : Nat) : (t.placeAt n).row = (t.take n).count '\n' := by
  rw [placeAt, (foldl_after _ _).2]
  exact Nat.zero_add _

/-- The column of a place is 0 where a line starts. -/
theorem column_placeAt_eq_zero_iff (h : n < t.length) :
    (t.placeAt (n + 1)).column = 0 ↔ t[n] = '\n' := by
  rw [placeAt, List.take_succ_eq_append_getElem h, List.foldl_append, List.foldl_cons,
    List.foldl_nil, Place.after]
  by_cases hc : t[n] = '\n' <;> simp [hc]

namespace IsPlace

variable {p q : Place}

theorem offset_le (h : t.IsPlace p) : p.offset ≤ t.length := by
  obtain ⟨n, hn, rfl⟩ := h
  rwa [offset_placeAt hn]

theorem eq_placeAt (h : t.IsPlace p) : t.placeAt p.offset = p := by
  obtain ⟨n, hn, rfl⟩ := h
  rw [offset_placeAt hn]

/-- The line of a place is one more than its row. -/
theorem row_add_one (h : t.IsPlace p) : p.row + 1 = lineAt t p.offset := by
  rw [← h.eq_placeAt, row_placeAt, offset_placeAt h.offset_le, lineAt]

theorem column_eq_zero_iff (h : t.IsPlace p) (hpos : 0 < p.offset) :
    p.column = 0 ↔ t[p.offset - 1]? = some '\n' := by
  have hle := h.offset_le
  have hlt : p.offset - 1 < t.length := by omega
  have hsucc : p.offset - 1 + 1 = p.offset := by omega
  rw [List.getElem?_eq_getElem hlt, Option.some_inj, ← column_placeAt_eq_zero_iff hlt, hsucc,
    h.eq_placeAt]

end IsPlace

instance decidableIsPlace (t : Text) (p : Place) : Decidable (t.IsPlace p) :=
  decidable_of_iff (p.offset ≤ t.length ∧ t.placeAt p.offset = p)
    ⟨fun h => ⟨p.offset, h.1, h.2⟩, fun h => ⟨h.offset_le, h.eq_placeAt⟩⟩

/-- The line of the last character before a place is the one before it where a line starts. -/
theorem lineAt_pred (hpos : 0 < n) (hle : n ≤ t.length) :
    lineAt t n = lineAt t (n - 1) + if t[n - 1]? = some '\n' then 1 else 0 := by
  have hlt : n - 1 < t.length := by omega
  have hone : n - (n - 1) = 1 := by omega
  rw [lineAt_eq_add (Nat.sub_le n 1), hone, List.take_one, List.head?_drop,
    List.getElem?_eq_getElem hlt]
  by_cases hc : t[n - 1] = '\n' <;> simp [hc]

end Text

/-! ### Nodes -/

namespace Tree

/-- What passes from the children of a node to the node holds of every node. -/
theorem induction {motive : Tree → Prop} (h : ∀ n, (∀ c ∈ n.children, motive c) → motive n)
    (n : Tree) : motive n :=
  h n fun c hc =>
    have := sizeOf_lt_of_mem_children hc
    induction h c
termination_by sizeOf n

/-- The child in a role is the first one in it. -/
theorem child?_of_children_eq {n c : Tree} {role : String} {before behind : List Tree}
    (hchildren : n.children = before ++ c :: behind) (hrole : c.info.role = some role)
    (hbefore : ∀ d ∈ before, d.info.role ≠ some role) : n.child? role = some c := by
  have hnone : before.find? (fun d => d.info.role == some role) = none :=
    List.find?_eq_none.2 fun d hd hrole => hbefore d hd (eq_of_beq hrole)
  rw [child?, hchildren, List.find?_append, hnone, Option.none_or, List.find?_cons, hrole,
    beq_self_eq_true]

/-- Every node of the tree has the property. -/
inductive Every (P : Tree → Prop) : Tree → Prop where
  | mk {n : Tree} : P n → (∀ c ∈ n.children, Every P c) → Every P n

namespace Every

variable {P Q : Tree → Prop} {n c : Tree}

theorem here (h : Every P n) : P n := by
  cases h with
  | mk here _ => exact here

theorem child (h : Every P n) (hc : c ∈ n.children) : Every P c := by
  cases h with
  | mk _ below => exact below c hc

theorem mono (h : Every P n) (hPQ : ∀ m, P m → Q m) : Every Q n := by
  induction h with
  | mk here _ ih => exact .mk (hPQ _ here) ih

theorem node_iff {info : NodeInfo} {children : List Tree} :
    Every P (.node info children) ↔ P (.node info children) ∧ ∀ c ∈ children, Every P c :=
  ⟨fun h => ⟨h.here, fun _ => h.child⟩, fun h => .mk h.1 h.2⟩

end Every

/-- Between two places of a text, the children in order inside. -/
structure Placed (t : Text) (n : Tree) : Prop where
  start : t.IsPlace n.start
  stop : t.IsPlace n.stop
  le : n.start.offset ≤ n.stop.offset
  inside : ∀ c ∈ n.children, n.start.offset ≤ c.start.offset ∧ c.stop.offset ≤ n.stop.offset
  ordered : n.children.Pairwise fun a b => a.stop.offset ≤ b.start.offset

instance decidablePlaced (t : Text) (n : Tree) : Decidable (Placed t n) :=
  decidable_of_iff (t.IsPlace n.start ∧ t.IsPlace n.stop ∧ n.start.offset ≤ n.stop.offset ∧
    (∀ c ∈ n.children, n.start.offset ≤ c.start.offset ∧ c.stop.offset ≤ n.stop.offset) ∧
    n.children.Pairwise fun a b => a.stop.offset ≤ b.start.offset)
    ⟨fun h => ⟨h.1, h.2.1, h.2.2.1, h.2.2.2.1, h.2.2.2.2⟩, fun h => ⟨h.1, h.2, h.3, h.4, h.5⟩⟩

/-! ### Nodes of a tree -/

/-- The first tree is the second or stands below it. -/
inductive IsNodeOf : Tree → Tree → Prop where
  | root (n : Tree) : IsNodeOf n n
  | child {m c n : Tree} : c ∈ n.children → IsNodeOf m c → IsNodeOf m n

namespace IsNodeOf

variable {t : Text} {c m n : Tree}

theorem of_mem (h : c ∈ n.children) : IsNodeOf c n := .child h (.root c)

theorem trans (h : IsNodeOf m c) (hc : IsNodeOf c n) : IsNodeOf m n := by
  induction hc with
  | root => exact h
  | child hd _ ih => exact .child hd ih

theorem every {P : Tree → Prop} (h : IsNodeOf m n) (hn : n.Every P) : m.Every P := by
  induction h with
  | root => exact hn
  | child hc _ ih => exact ih (hn.child hc)

/-- A node stands inside the tree. -/
theorem inside (h : IsNodeOf m n) (hplaced : n.Every (Placed t)) :
    n.start.offset ≤ m.start.offset ∧ m.stop.offset ≤ n.stop.offset := by
  induction h with
  | root => exact ⟨le_rfl, le_rfl⟩
  | child hc _ ih =>
    obtain ⟨hstart, hstop⟩ := hplaced.here.inside _ hc
    obtain ⟨hstart', hstop'⟩ := ih (hplaced.child hc)
    exact ⟨hstart.trans hstart', hstop'.trans hstop⟩

end IsNodeOf

/-! ### Occurrences -/

/-- A node of a tree with the nodes above it, the innermost first. -/
structure Occurrence where
  above : List Tree
  node : Tree

/-- The nodes of a tree, each before those in it, in order. -/
def occurrences (above : List Tree) (n : Tree) : List Occurrence :=
  ⟨above, n⟩ :: n.children.attach.flatMap fun ⟨c, h⟩ =>
    have := sizeOf_lt_of_mem_children h
    occurrences (n :: above) c
termination_by sizeOf n

theorem occurrences_eq (above : List Tree) (n : Tree) :
    n.occurrences above = ⟨above, n⟩ :: n.children.flatMap (occurrences (n :: above)) := by
  rw [occurrences, List.flatMap_subtype (g := occurrences (n :: above)) (fun _ _ => rfl),
    List.unattach_attach]

end Tree

end Glossator
