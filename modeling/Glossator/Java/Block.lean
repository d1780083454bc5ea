import Glossator.Text.Basic

/-!
# Brace blocks

The block that opens with the first brace from some place on ends with the brace that balances it,
or at the end of the text if none does.

* `Java.Block.inner_length_lt`: the inside of a block is shorter than the text around it.
-/

set_option autoImplicit false

namespace Glossator.Java

/-- A block of text between braces. -/
structure Block where
  /-- The offset of the opening brace. -/
  opening : Nat
  /-- The offset just past the closing brace, or the end of the text. -/
  stop : Nat
  /-- A brace closes the block. -/
  closed : Bool
deriving DecidableEq, Repr

/-- The number of characters up to and including the brace that closes all open ones. -/
def closingLength? (depth : Nat) : Text → Option Nat
  | [] => none
  | c :: rest =>
    if c = '{' then (closingLength? (depth + 1) rest).map (· + 1)
    else if c = '}' then
      if depth ≤ 1 then some 1 else (closingLength? (depth - 1) rest).map (· + 1)
    else (closingLength? depth rest).map (· + 1)

/-- The block that opens with the first brace at or after an offset. -/
def block? (t : Text) (offset : Nat) : Option Block :=
  let before := (t.drop offset).takeWhile (· ≠ '{')
  match (t.drop offset).dropWhile (· ≠ '{') with
  | [] => none
  | body =>
    let opening := offset + before.length
    match closingLength? 0 body with
    | some length => some ⟨opening, opening + length, true⟩
    | none => some ⟨opening, t.length, false⟩

namespace Block

/-- Everything between the braces. -/
def inner (b : Block) : Span := ⟨b.opening + 1, if b.closed then b.stop - 1 else b.stop⟩

/-- The inside of a block is shorter than the text around it. -/
theorem inner_length_lt {t : Text} {b : Block} (h : b.opening < t.length) :
    (b.inner.slice t).length < t.length := by
  simp only [Span.slice, inner, List.length_take, List.length_drop]
  omega

end Block

theorem opening_lt_of_block? {t : Text} {offset : Nat} {b : Block} (h : block? t offset = some b) :
    b.opening < t.length := by
  have hsplit := List.takeWhile_append_dropWhile (p := (· ≠ '{')) (l := t.drop offset)
  simp only [block?] at h
  split at h
  · cases h
  · next body hne =>
    have hlen := congrArg List.length hsplit
    rw [List.length_append, List.length_drop] at hlen
    have hpos : 0 < ((t.drop offset).dropWhile (· ≠ '{')).length :=
      List.length_pos_iff.2 (by simpa using hne)
    split at h <;> (cases h; simp only at *; omega)

end Glossator.Java
