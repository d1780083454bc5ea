import Glossator.Proofs.Java.ByteBlock

/-!
# Blocks as shortest balanced texts

The end of a block is looked for by counting the braces that are open. The scan stops behind the
brace that takes the counter back to zero, and what it has read by then is the shortest text from
the opening brace on that is balanced. If none is, it reads on to the end of the text.

* `Java.braceCounters`: the values that the counter takes.
* `Java.length_braceCounters_of_block?`: the scan reads what the block takes up.
* `Java.block?_spec`: where the block lies that is found from an offset on.
-/

set_option autoImplicit false

namespace Glossator.Java

open Utf8 (encode)

variable {t u : Text} {offset : Nat} {b : Block}

/-! ### The counter -/

/-- What a character adds to the counter of open braces. -/
def braceChange (c : Char) : Int := if c = '{' then 1 else if c = '}' then -1 else 0

/-- The values of the counter of open braces, one behind each character that is read. The scan stops
behind a closing brace that takes the counter to zero. The counter is an integer, which could go
below zero. -/
def braceCounters (counter : Int) : Text → List Int
  | [] => []
  | c :: rest =>
    let next := counter + braceChange c
    if c = '}' ∧ next = 0 then [next] else next :: braceCounters next rest

/-- The number of braces that a text opens and does not close. -/
def openBraces (u : Text) : Int := u.count '{' - u.count '}'

@[simp] theorem openBraces_nil : openBraces [] = 0 := rfl

theorem openBraces_cons (c : Char) (u : Text) :
    openBraces (c :: u) = braceChange c + openBraces u := by
  unfold openBraces braceChange
  by_cases hopen : c = '{'
  · subst hopen
    simp
    omega
  · by_cases hclose : c = '}'
    · subst hclose
      simp
      omega
    · simp [hopen, hclose]

/-- The counter has gone up by the open braces of what was read. -/
theorem getElem?_braceCounters {counter value : Int} {i : Nat}
    (h : (braceCounters counter u)[i]? = some value) :
    value = counter + openBraces (u.take (i + 1)) := by
  induction u generalizing counter i with
  | nil => simp [braceCounters] at h
  | cons c rest ih =>
    have hnext : counter + braceChange c = counter + openBraces ((c :: rest).take (0 + 1)) := by
      simp [openBraces_cons]
    simp only [braceCounters] at h
    cases i with
    | zero =>
      rw [← hnext]
      split at h <;> simpa using h.symm
    | succ i =>
      split at h
      · simp at h
      · rw [List.getElem?_cons_succ] at h
        rw [ih h, List.take_succ_cons, openBraces_cons, add_assoc]

/-- While braces are open, the scan reads up to the brace that closes them all, or to the end. -/
theorem length_braceCounters {depth : Nat} (hdepth : 0 < depth) (u : Text) :
    (braceCounters depth u).length = (closingLength? depth u).getD u.length := by
  fun_induction closingLength? depth u with
  | case1 => rfl
  | case2 depth rest ih =>
    have hnext : (depth : Int) + braceChange '{' = (depth + 1 : Nat) := rfl
    rw [braceCounters, hnext, if_neg (by simp), List.length_cons, ih (Nat.succ_pos depth)]
    cases closingLength? (depth + 1) rest <;> rfl
  | case3 depth rest _ hlast =>
    have hnext : (depth : Int) + braceChange '}' = 0 := by
      have hone : depth = 1 := by omega
      rw [hone]
      rfl
    simp [braceCounters, hnext]
  | case4 depth rest _ hlast ih =>
    have hnext : (depth : Int) + braceChange '}' = (depth - 1 : Nat) := by
      have hchange : braceChange '}' = -1 := rfl
      omega
    rw [braceCounters, hnext, if_neg (by omega), List.length_cons, ih (by omega)]
    cases closingLength? (depth - 1) rest <;> rfl
  | case5 depth c rest hopen hclose ih =>
    have hnext : (depth : Int) + braceChange c = depth := by simp [braceChange, hopen, hclose]
    rw [braceCounters, hnext, if_neg (by simp [hclose]), List.length_cons, ih hdepth]
    cases closingLength? depth rest <;> rfl

/-- The scan for the end of a block reads what the block takes up. -/
theorem length_braceCounters_of_block? (h : block? t offset = some b) :
    (braceCounters 0 (t.drop b.opening)).length = b.stop - b.opening := by
  have hat := BlockAt.of_block? h
  have hopening := hat.opening_lt
  have hstop := hat.stop_le
  obtain ⟨rest, hrest, hclosing⟩ := exists_rest_of_block? h
  have hlength := congrArg List.length hrest
  rw [List.length_drop, List.length_cons] at hlength
  have hone : (0 : Int) + braceChange '{' = (1 : Nat) := rfl
  rw [hrest, braceCounters, hone, if_neg (by simp), List.length_cons,
    length_braceCounters Nat.one_pos]
  cases hfound : closingLength? 1 rest with
  | some length =>
    rw [hfound] at hclosing
    rw [hclosing.1, Option.getD_some]
    omega
  | none =>
    rw [hfound] at hclosing
    rw [hat.unclosed hclosing, Option.getD_none]
    omega

/-- What a text starts with from the opening brace of a block on leaves a brace open, if it does not
reach to the end of a closed block. -/
theorem count_lt_of_prefix (h : block? t offset = some b) (hu : u <+: t.drop b.opening)
    (hne : u ≠ []) (hshort : b.closed = true → u.length < b.stop - b.opening) :
    u.count '}' < u.count '{' := by
  have hleaves := (braces_of_block? h).2 u.length (List.length_pos_iff.2 hne) hshort
  rw [← List.prefix_iff_eq_take.1 hu] at hleaves
  simpa [LeavesOpen] using hleaves

/-- The counter tells how many braces of the block are open. It is zero behind the last character of
a closed block, and positive behind any other. -/
theorem counter_of_block? (h : block? t offset = some b) {i : Nat} {value : Int}
    (hvalue : (braceCounters 0 (t.drop b.opening))[i]? = some value) :
    value = openBraces ((t.drop b.opening).take (i + 1)) ∧ 0 ≤ value ∧
      (value = 0 ↔ b.closed = true ∧ i + 1 = b.stop - b.opening) := by
  have hi : i < b.stop - b.opening :=
    length_braceCounters_of_block? h ▸ (List.getElem?_eq_some_iff.1 hvalue).1
  have hcount := getElem?_braceCounters hvalue
  rw [zero_add] at hcount
  refine ⟨hcount, ?_⟩
  unfold openBraces at hcount
  by_cases hlast : b.closed = true ∧ i + 1 = b.stop - b.opening
  · have hbalanced : ((t.drop b.opening).take (i + 1)).count '{' =
        ((t.drop b.opening).take (i + 1)).count '}' := by
      rw [hlast.2]
      exact (braces_of_block? h).1 hlast.1
    have hzero : value = 0 := by omega
    exact ⟨hzero.ge, fun _ => hlast, fun _ => hzero⟩
  · have hleaves := (braces_of_block? h).2 (i + 1) (Nat.succ_pos i) fun hclosed =>
      lt_of_le_of_ne hi fun heq => hlast ⟨hclosed, heq⟩
    unfold LeavesOpen at hleaves
    have hpos : 0 < value := by omega
    exact ⟨hpos.le, fun hzero => absurd hzero hpos.ne', fun hclosed => absurd hclosed hlast⟩

/-- A block is closed if and only if the scan ends with the counter at zero. -/
theorem closed_iff_getLast?_braceCounters (h : block? t offset = some b) :
    b.closed = true ↔ (braceCounters 0 (t.drop b.opening)).getLast? = some 0 := by
  have hlength := length_braceCounters_of_block? h
  have hlt := (BlockAt.of_block? h).opening_lt
  have hwidth : b.stop - b.opening - 1 + 1 = b.stop - b.opening := by omega
  obtain ⟨value, hvalue⟩ : ∃ value,
      (braceCounters 0 (t.drop b.opening))[b.stop - b.opening - 1]? = some value :=
    ⟨_, List.getElem?_eq_getElem (by omega)⟩
  rw [List.getLast?_eq_getElem?, hlength, hvalue, Option.some_inj,
    (counter_of_block? h hvalue).2.2, hwidth]
  exact (and_iff_left rfl).symm

/-! ### The text of a block -/

/-- There is no block if and only if no brace opens one. -/
theorem block?_eq_none_iff : block? t offset = none ↔ '{' ∉ t.drop offset := by
  have hnil : (t.drop offset).dropWhile (· ≠ '{') = [] ↔ '{' ∉ t.drop offset := by
    rw [List.dropWhile_eq_nil_iff]
    simp only [decide_eq_true_eq]
    exact ⟨fun h hmem => h _ hmem rfl, fun h c hc heq => h (heq ▸ hc)⟩
  rw [← hnil]
  simp only [block?]
  generalize (t.drop offset).dropWhile (· ≠ '{') = body
  cases body with
  | nil => simp
  | cons c rest =>
    simp only [reduceCtorEq, iff_false]
    split <;> exact Option.some_ne_none _

/-- A block is its opening brace, what is inside, and its closing brace if it has one. -/
theorem BlockAt.text_eq (h : BlockAt t offset b) :
    Span.slice ⟨b.opening, b.stop⟩ t =
      '{' :: (b.inner.slice t ++ if b.closed then ['}'] else []) := by
  have hlt := h.opening_lt
  obtain ⟨hopening, hbrace⟩ := List.getElem?_eq_some_iff.1 h.opening_char
  have hdrop : t.drop b.opening = '{' :: t.drop (b.opening + 1) := by
    rw [List.drop_eq_getElem_cons hopening, hbrace]
  have hwidth : b.stop - b.opening = b.stop - (b.opening + 1) + 1 := by omega
  rw [Span.slice, hdrop, hwidth, List.take_succ_cons, Block.inner, Span.slice]
  cases hclosed : b.closed with
  | false => simp
  | true =>
    obtain ⟨hinner, hlast⟩ := h.closing hclosed
    have hsucc : b.stop - (b.opening + 1) = b.stop - 1 - (b.opening + 1) + 1 := by omega
    have hplace : b.opening + 1 + (b.stop - 1 - (b.opening + 1)) = b.stop - 1 := by omega
    rw [hsucc, List.take_add_one, List.getElem?_drop, hplace, hlast]
    rfl

/-- A text is the shortest one, the empty one apart, that another text starts with and that is
balanced. It ends with the brace that closes it; before that, some brace is open. -/
structure IsShortestBalanced (u whole : Text) : Prop where
  starts : u <+: whole
  ne_nil : u ≠ []
  balanced : Balanced u
  shortest : ∀ v, v <+: whole → v ≠ [] → Balanced v → u.length ≤ v.length
  last : u.getLast? = some '}'
  open_before : ∀ v, v <+: u → v ≠ [] → v ≠ u → v.count '}' < v.count '{'

/-- A closed block is the shortest balanced text from its opening brace on. -/
theorem isShortestBalanced_of_block? (h : block? t offset = some b) (hclosed : b.closed = true) :
    IsShortestBalanced (Span.slice ⟨b.opening, b.stop⟩ t) (t.drop b.opening) := by
  have htext := (BlockAt.of_block? h).text_eq
  have hlength : (Span.slice ⟨b.opening, b.stop⟩ t).length = b.stop - b.opening := by
    have hle := (BlockAt.of_block? h).stop_le
    rw [Span.slice, List.length_take, List.length_drop]
    simp only
    omega
  refine ⟨List.take_prefix _ _, ?_, (braces_of_block? h).1 hclosed, ?_, ?_, ?_⟩
  · rw [htext]
    exact List.cons_ne_nil _ _
  · intro v hv hne hbalanced
    rw [hlength]
    by_contra hshort
    have hopen := count_lt_of_prefix h hv hne fun _ => Nat.lt_of_not_le hshort
    exact absurd hbalanced hopen.ne'
  · rw [htext, hclosed, if_pos rfl, ← List.cons_append]
    exact List.getLast?_concat
  · intro v hv hne hproper
    refine count_lt_of_prefix h (hv.trans (List.take_prefix _ _)) hne fun _ => ?_
    rw [← hlength]
    exact lt_of_le_of_ne hv.length_le fun heq => hproper (hv.eq_of_length heq)

/-- The inside of a block of bytes is that of the block of characters. -/
theorem BlockAt.inner_inBytes (h : BlockAt t offset b) :
    (b.inBytes t).inner = byteSpan t b.inner := by
  have hopening : byteOffset t (b.opening + 1) = byteOffset t b.opening + 1 := by
    have hpred := byteOffset_pred h.opening_char (by decide)
    have hlt := byteOffset_lt_byteOffset (j := b.opening + 1)
      (List.getElem?_eq_some_iff.1 h.opening_char).1 (Nat.lt_succ_self _)
    omega
  cases hclosed : b.closed with
  | false => simp [Block.inner, Block.inBytes, byteSpan, hclosed, hopening]
  | true =>
    obtain ⟨hinner, hlast⟩ := h.closing hclosed
    have hpred := byteOffset_pred hlast (by decide)
    have hsucc : b.stop - 1 + 1 = b.stop := by omega
    rw [hsucc] at hpred
    simp [Block.inner, Block.inBytes, byteSpan, hclosed, hopening, hpred]

/-! ### Blocks -/

/-- The block that opens with the first brace from an offset on: the shortest balanced text from
that brace on, or all of it if no text is balanced from there on. The counter is zero behind the
brace that closes the block, and positive before. -/
structure ShortestBlock (t : Text) (offset : Nat) (b : Block) : Prop
    extends BlockAt t offset b where
  scanned : (braceCounters 0 (t.drop b.opening)).length = b.stop - b.opening ∧
    (b.closed = true ↔ (braceCounters 0 (t.drop b.opening)).getLast? = some 0)
  counter : ∀ (i : Nat) (value : Int), (braceCounters 0 (t.drop b.opening))[i]? = some value →
    value = openBraces ((t.drop b.opening).take (i + 1)) ∧ 0 ≤ value ∧
      (value = 0 ↔ b.closed = true ∧ i + 1 = b.stop - b.opening)
  closed_iff : b.closed = true ↔ ∃ u, u <+: t.drop b.opening ∧ u ≠ [] ∧ Balanced u
  shortest : b.closed = true →
    IsShortestBalanced (Span.slice ⟨b.opening, b.stop⟩ t) (t.drop b.opening)
  text_eq : Span.slice ⟨b.opening, b.stop⟩ t =
    '{' :: (b.inner.slice t ++ if b.closed then ['}'] else [])
  inner_le : b.opening < b.inner.start ∧ b.inner.start ≤ b.inner.stop ∧
    b.inner.stop ≤ if b.closed then b.stop - 1 else b.stop
  inner_ssubset : Set.Ico b.inner.start b.inner.stop ⊂ Set.Ico b.opening b.stop
  inner_inBytes : (b.inBytes t).inner = byteSpan t b.inner

/-- A block that is found is the shortest one. -/
theorem ShortestBlock.of_block? (h : block? t offset = some b) : ShortestBlock t offset b := by
  have hat := BlockAt.of_block? h
  have hlt := hat.opening_lt
  obtain ⟨hstart, hle, hstop⟩ := hat.inner_le
  refine ⟨hat, ⟨length_braceCounters_of_block? h, closed_iff_getLast?_braceCounters h⟩,
    fun _ _ => counter_of_block? h, ⟨fun hclosed => ?_, ?_⟩, isShortestBalanced_of_block? h,
    hat.text_eq, ⟨by omega, hle, le_rfl⟩, ?_, hat.inner_inBytes⟩
  · have hshortest := isShortestBalanced_of_block? h hclosed
    exact ⟨_, hshortest.starts, hshortest.ne_nil, hshortest.balanced⟩
  · rintro ⟨u, hu, hne, hbalanced⟩
    by_contra hunclosed
    have hopen := count_lt_of_prefix h hu hne fun hclosed => absurd hclosed hunclosed
    exact absurd hbalanced hopen.ne'
  · refine ⟨Set.Ico_subset_Ico (by omega) hstop, fun hsubset => ?_⟩
    have hmem := (hsubset ⟨le_rfl, hlt⟩ : b.opening ∈ Set.Ico b.inner.start b.inner.stop).1
    omega

/-- From an offset on, no block is found if and only if no brace opens one. A block that is found
opens with the first brace there, the counter of open braces does not go below zero up to its end,
and it is the shortest balanced text from there on, or all of it if none is. Its bytes are those of
a block found in the bytes of the text. -/
theorem block?_spec (t : Text) (offset : Nat) :
    (block? t offset = none ↔ '{' ∉ t.drop offset) ∧
      (∀ b, block? t offset = some b → ShortestBlock t offset b) ∧
      byteBlock? (encode t) (byteOffset t offset) = (block? t offset).map (Block.inBytes t) :=
  ⟨block?_eq_none_iff, fun _ => .of_block?, byteBlock?_encode t offset⟩

/-- A block that is never closed reaches to the end. -/
example : block? ['x', '{', 'a', '{', 'b', '}'] 0 = some ⟨1, 6, false⟩ := by decide

end Glossator.Java
