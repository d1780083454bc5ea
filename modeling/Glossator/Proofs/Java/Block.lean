import Mathlib
import Glossator.Java.Block

/-!
# Where blocks lie

A block opens with the first brace from a place on. Here its ends are put in order, and the
characters at them are named.

* `Java.BlockAt.of_block?`: the shape of a block that is found.
* `Java.braces_of_block?`: a closed block is the shortest balanced text from its opening brace on,
  and no text is balanced from the opening brace of any other block on.
-/

set_option autoImplicit false

namespace Glossator.Java

/-- Closing the open braces takes at least one character, and the last one is a brace. -/
theorem closingLength?_eq_some {depth length : Nat} {t : Text}
    (h : closingLength? depth t = some length) :
    0 < length ∧ length ≤ t.length ∧ t[length - 1]? = some '}' := by
  -- one character further on, what was found behind it is found
  have hnext {c : Char} {rest : Text} {inner : Nat}
      (ih : 0 < inner ∧ inner ≤ rest.length ∧ rest[inner - 1]? = some '}') :
      0 < inner + 1 ∧ inner + 1 ≤ (c :: rest).length ∧
        (c :: rest)[inner + 1 - 1]? = some '}' := by
    obtain ⟨hpos, hle, hlast⟩ := ih
    refine ⟨by omega, by simpa using hle, ?_⟩
    obtain ⟨k, rfl⟩ : ∃ k, inner = k + 1 := ⟨inner - 1, by omega⟩
    simpa using hlast
  fun_induction closingLength? depth t generalizing length with
  | case1 => cases h
  | case2 depth rest ih =>
    obtain ⟨inner, hinner, rfl⟩ := Option.map_eq_some_iff.1 h
    exact hnext (ih hinner)
  | case3 depth rest _ hdepth =>
    cases h
    simp
  | case4 depth rest _ hdepth ih =>
    obtain ⟨inner, hinner, rfl⟩ := Option.map_eq_some_iff.1 h
    exact hnext (ih hinner)
  | case5 depth c rest hopen hclose ih =>
    obtain ⟨inner, hinner, rfl⟩ := Option.map_eq_some_iff.1 h
    exact hnext (ih hinner)

/-- Where a block of a text lies that was looked for from an offset on. -/
structure BlockAt (t : Text) (offset : Nat) (b : Block) : Prop where
  offset_le : offset ≤ b.opening
  opening_char : t[b.opening]? = some '{'
  opening_lt : b.opening < b.stop
  stop_le : b.stop ≤ t.length
  closing : b.closed = true → b.opening + 1 < b.stop ∧ t[b.stop - 1]? = some '}'
  unclosed : b.closed = false → b.stop = t.length
  first : ∀ i, offset ≤ i → i < b.opening → t[i]? ≠ some '{'

/-- A block that is found lies where blocks lie. -/
theorem BlockAt.of_block? {t : Text} {offset : Nat} {b : Block} (h : block? t offset = some b) :
    BlockAt t offset b := by
  have hsplit := List.takeWhile_append_dropWhile (p := (· ≠ '{')) (l := t.drop offset)
  simp only [block?] at h
  split at h
  · cases h
  · next body hne =>
    obtain ⟨rest, hbody⟩ : ∃ rest, (t.drop offset).dropWhile (· ≠ '{') = '{' :: rest := by
      cases hdrop : (t.drop offset).dropWhile (· ≠ '{') with
      | nil => exact absurd hdrop (by simpa using hne)
      | cons c rest =>
        have hc := List.head?_dropWhile_not (· ≠ '{') (t.drop offset)
        rw [hdrop] at hc
        have hbrace : c = '{' := by simpa using hc
        exact ⟨rest, by rw [hbrace]⟩
    generalize hbefore : (t.drop offset).takeWhile (· ≠ '{') = before at *
    rw [hbody] at hsplit
    have hoffset : offset ≤ t.length := by
      by_contra hgt
      rw [List.drop_eq_nil_of_le (by omega)] at hsplit
      simp at hsplit
    have hlength : offset + before.length + (rest.length + 1) = t.length := by
      have := congrArg List.length hsplit
      simp only [List.length_append, List.length_cons, List.length_drop] at this
      omega
    have hget (k : Nat) : t[offset + before.length + k]? = ('{' :: rest)[k]? := by
      rw [Nat.add_assoc, ← List.getElem?_drop, ← hsplit, List.getElem?_append_right (by omega),
        Nat.add_sub_cancel_left]
    have hopening : t[offset + before.length]? = some '{' := by simpa using hget 0
    have hfirst (i : Nat) (hle : offset ≤ i) (hlt : i < offset + before.length) :
        t[i]? ≠ some '{' := by
      intro hi
      have hmem : '{' ∈ before := by
        rw [List.mem_iff_getElem?]
        refine ⟨i - offset, ?_⟩
        have hadd : offset + (i - offset) = i := by omega
        rw [← hi, ← hadd, ← List.getElem?_drop, ← hsplit, List.getElem?_append_left (by omega)]
        simp
      rw [← hbefore] at hmem
      simpa using List.mem_takeWhile_imp hmem
    rw [hbody] at h
    split at h
    · next length hclosing =>
      cases h
      rw [closingLength?, if_pos rfl] at hclosing
      obtain ⟨inner, hinner, rfl⟩ := Option.map_eq_some_iff.1 hclosing
      obtain ⟨hpos, hle, hlast⟩ := closingLength?_eq_some hinner
      refine ⟨Nat.le_add_right _ _, hopening, by simp, by simp only; omega, ?_, by simp, hfirst⟩
      intro _
      refine ⟨by simp only; omega, ?_⟩
      have hadd : offset + before.length + (inner + 1) - 1 =
          offset + before.length + (inner - 1 + 1) := by omega
      simp only [hadd]
      rw [hget, List.getElem?_cons_succ, hlast]
    · cases h
      exact ⟨Nat.le_add_right _ _, hopening, by simp only; omega, le_rfl, by simp, by simp, hfirst⟩

/-- A block that is looked for at a brace opens there. -/
theorem opening_eq_of_block? {t : Text} {offset : Nat} {b : Block} (h : block? t offset = some b)
    (hbrace : t[offset]? = some '{') : b.opening = offset := by
  have hat := BlockAt.of_block? h
  by_contra hne
  exact hat.first offset le_rfl (Nat.lt_of_le_of_ne hat.offset_le (Ne.symm hne)) hbrace

namespace BlockAt

variable {t : Text} {offset : Nat} {b : Block}

/-- The inside of a block lies behind its opening brace and before its closing one. -/
theorem inner_le (h : BlockAt t offset b) :
    b.inner.start = b.opening + 1 ∧ b.inner.start ≤ b.inner.stop ∧ b.inner.stop ≤ b.stop := by
  have hopening := h.opening_lt
  have hclosing := h.closing
  refine ⟨rfl, ?_⟩
  simp only [Block.inner]
  split
  · next hclosed =>
    have := (hclosing hclosed).1
    omega
  · omega

/-- The text inside a block is as long as its span. -/
theorem length_inner (h : BlockAt t offset b) :
    (b.inner.slice t).length = b.inner.stop - b.inner.start := by
  have hinner := h.inner_le
  have hstop := h.stop_le
  rw [Span.slice, List.length_take, List.length_drop]
  omega

end BlockAt

/-! ### Balance -/

/-- As many braces close as open. -/
def Balanced (u : Text) : Prop := u.count '{' = u.count '}'

/-- Some brace is still open, if so many were open before the text. -/
def LeavesOpen (depth : Nat) (u : Text) : Prop := u.count '}' < depth + u.count '{'

theorem leavesOpen_cons {depth : Nat} {c : Char} {u : Text} : LeavesOpen depth (c :: u) ↔
    if c = '{' then LeavesOpen (depth + 1) u
    else if c = '}' then u.count '}' + 1 < depth + u.count '{'
    else LeavesOpen depth u := by
  unfold LeavesOpen
  by_cases hopen : c = '{'
  · subst hopen
    simp [Nat.add_right_comm]
    omega
  · by_cases hclose : c = '}'
    · subst hclose
      simp
    · simp [hopen, hclose]

/-- Before the closing brace that is found, some brace is always open; with it, none is. -/
theorem braces_of_closingLength? {depth length : Nat} {t : Text} (hdepth : 0 < depth)
    (h : closingLength? depth t = some length) :
    depth + (t.take length).count '{' = (t.take length).count '}' ∧
      ∀ n < length, LeavesOpen depth (t.take n) := by
  induction t generalizing depth length with
  | nil => cases h
  | cons c rest ih =>
    have hzero : LeavesOpen depth ((c :: rest).take 0) := by simpa [LeavesOpen] using hdepth
    rw [closingLength?] at h
    split at h
    · next hopen =>
      obtain ⟨inner, hinner, rfl⟩ := Option.map_eq_some_iff.1 h
      obtain ⟨hbalanced, hbefore⟩ := ih (Nat.succ_pos depth) hinner
      subst hopen
      refine ⟨by simpa [Nat.add_assoc, Nat.add_comm 1] using hbalanced, ?_⟩
      intro n hn
      cases n with
      | zero => exact hzero
      | succ n =>
        rw [List.take_succ_cons, leavesOpen_cons, if_pos rfl]
        exact hbefore n (by omega)
    · next hopen =>
      split at h
      · next hclose =>
        subst hclose
        split at h
        · cases h
          refine ⟨by simp; omega, ?_⟩
          intro n hn
          obtain rfl : n = 0 := by omega
          exact hzero
        · next hdeep =>
          obtain ⟨inner, hinner, rfl⟩ := Option.map_eq_some_iff.1 h
          obtain ⟨hbalanced, hbefore⟩ := ih (by omega) hinner
          refine ⟨by simp; omega, ?_⟩
          intro n hn
          cases n with
          | zero => exact hzero
          | succ n =>
            have hopenAfter := hbefore n (by omega)
            rw [List.take_succ_cons, leavesOpen_cons, if_neg (by decide), if_pos rfl]
            unfold LeavesOpen at hopenAfter
            omega
      · next hclose =>
        obtain ⟨inner, hinner, rfl⟩ := Option.map_eq_some_iff.1 h
        obtain ⟨hbalanced, hbefore⟩ := ih hdepth hinner
        refine ⟨by simpa [hopen, hclose] using hbalanced, ?_⟩
        intro n hn
        cases n with
        | zero => exact hzero
        | succ n =>
          rw [List.take_succ_cons, leavesOpen_cons, if_neg hopen, if_neg hclose]
          exact hbefore n (by omega)

/-- If no closing brace is found, some brace is open all along. -/
theorem leavesOpen_of_closingLength?_eq_none {depth : Nat} {t : Text} (hdepth : 0 < depth)
    (h : closingLength? depth t = none) (n : Nat) : LeavesOpen depth (t.take n) := by
  induction t generalizing depth n with
  | nil => simpa [LeavesOpen] using hdepth
  | cons c rest ih =>
    cases n with
    | zero => simpa [LeavesOpen] using hdepth
    | succ n =>
      rw [List.take_succ_cons, leavesOpen_cons]
      rw [closingLength?] at h
      split at h
      · next hopen =>
        rw [if_pos hopen]
        exact ih (Nat.succ_pos depth) (Option.map_eq_none_iff.1 h) n
      · next hopen =>
        rw [if_neg hopen]
        split at h
        · next hclose =>
          rw [if_pos hclose]
          split at h
          · cases h
          · have hopenAfter := ih (by omega) (Option.map_eq_none_iff.1 h) n
            unfold LeavesOpen at hopenAfter
            omega
        · next hclose =>
          rw [if_neg hclose]
          exact ih hdepth (Option.map_eq_none_iff.1 h) n

/-- What follows the opening brace of a block decides where the block stops. -/
theorem exists_rest_of_block? {t : Text} {offset : Nat} {b : Block} (h : block? t offset = some b) :
    ∃ rest, t.drop b.opening = '{' :: rest ∧
      match closingLength? 1 rest with
      | some length => b.stop = b.opening + (length + 1) ∧ b.closed = true
      | none => b.closed = false := by
  obtain ⟨hlt, hopening⟩ := List.getElem?_eq_some_iff.1 (BlockAt.of_block? h).opening_char
  have hdrop : t.drop b.opening = '{' :: t.drop (b.opening + 1) := by
    rw [List.drop_eq_getElem_cons hlt, hopening]
  refine ⟨t.drop (b.opening + 1), hdrop, ?_⟩
  simp only [block?] at h
  split at h
  · cases h
  · have hbody : (t.drop offset).dropWhile (· ≠ '{') =
        t.drop (offset + ((t.drop offset).takeWhile (· ≠ '{')).length) := by
      calc (t.drop offset).dropWhile (· ≠ '{')
          = ((t.drop offset).takeWhile (· ≠ '{') ++ (t.drop offset).dropWhile (· ≠ '{')).drop
              ((t.drop offset).takeWhile (· ≠ '{')).length := List.drop_left.symm
        _ = _ := by rw [List.takeWhile_append_dropWhile, List.drop_drop]
    rw [hbody] at h
    split at h
    · next length hlength =>
      cases h
      rw [hdrop, closingLength?, if_pos rfl] at hlength
      obtain ⟨inner, hinner, rfl⟩ := Option.map_eq_some_iff.1 hlength
      simp only [hinner, and_self]
    · next hlength =>
      cases h
      rw [hdrop, closingLength?, if_pos rfl] at hlength
      simp only [Option.map_eq_none_iff.1 hlength]

/-- From the opening brace of a closed block on, the block is the shortest balanced text; from that
of any other block on, no text is balanced. -/
theorem braces_of_block? {t : Text} {offset : Nat} {b : Block} (h : block? t offset = some b) :
    (b.closed = true → Balanced (Span.slice ⟨b.opening, b.stop⟩ t)) ∧
      ∀ n, 0 < n → (b.closed = true → n < b.stop - b.opening) →
        LeavesOpen 0 ((t.drop b.opening).take n) := by
  obtain ⟨rest, hrest, hclosing⟩ := exists_rest_of_block? h
  cases hlength : closingLength? 1 rest with
  | some length =>
    rw [hlength] at hclosing
    obtain ⟨hstop, hclosed⟩ := hclosing
    obtain ⟨hbalanced, hbefore⟩ := braces_of_closingLength? Nat.one_pos hlength
    have hwidth : b.stop - b.opening = length + 1 := by omega
    constructor
    · intro _
      rw [Span.slice, hrest, hwidth, List.take_succ_cons, Balanced]
      simp
      omega
    · intro n hn hlt
      obtain ⟨n, rfl⟩ : ∃ m, n = m + 1 := ⟨n - 1, by omega⟩
      rw [hrest, List.take_succ_cons, leavesOpen_cons, if_pos rfl]
      exact hbefore n (by have := hlt hclosed; omega)
  | none =>
    rw [hlength] at hclosing
    constructor
    · intro hclosed
      simp [hclosed] at hclosing
    · intro n hn _
      obtain ⟨n, rfl⟩ : ∃ m, n = m + 1 := ⟨n - 1, by omega⟩
      rw [hrest, List.take_succ_cons, leavesOpen_cons, if_pos rfl]
      exact leavesOpen_of_closingLength?_eq_none Nat.one_pos hlength n

end Glossator.Java
