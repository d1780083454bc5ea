import Glossator.Text.Basic

/-!
# UTF-8

Texts as bytes and back. Lossy decoding puts one replacement character for every maximal start of
a character that does not go on as it should.

* `Utf8.length_next_le`: a step of decoding leaves no more bytes than it was given.
-/

set_option autoImplicit false

namespace Glossator

/-- The content of a file. -/
abbrev Bytes := List UInt8

namespace Utf8

/-- What stands for bytes that are no character. -/
def replacement : Char := '\uFFFD'

/-- The bytes of a text. -/
def encode (t : Text) : Bytes := t.flatMap String.utf8EncodeChar

/-- The byte continues a character, within the bounds for its place. -/
def isTail (low high : Nat) (b : UInt8) : Bool := low ≤ b.toNat && b.toNat ≤ high

/-- The value of a byte inside a character. -/
def tailBits (b : UInt8) : Nat := b.toNat % 64

/-- The bounds for the second byte of a character, the number of bytes that follow the first, and
the bits of the first; none if no character starts with the byte. -/
def lead? (b : UInt8) : Option (Nat × Nat × Nat × Nat) :=
  let n := b.toNat
  if 0xC2 ≤ n ∧ n ≤ 0xDF then some (0x80, 0xBF, 1, n % 32)
  else if n = 0xE0 then some (0xA0, 0xBF, 2, 0)
  else if n = 0xED then some (0x80, 0x9F, 2, n % 16)
  else if 0xE1 ≤ n ∧ n ≤ 0xEF then some (0x80, 0xBF, 2, n % 16)
  else if n = 0xF0 then some (0x90, 0xBF, 3, 0)
  else if 0xF1 ≤ n ∧ n ≤ 0xF3 then some (0x80, 0xBF, 3, n % 8)
  else if n = 0xF4 then some (0x80, 0x8F, 3, 4)
  else none

/-- Takes so many further bytes of a character, the next one within bounds; gives the value, or
none where a byte is missing, and the bytes that remain. -/
def tails (low high : Nat) : Nat → Nat → Bytes → Option Nat × Bytes
  | 0, value, bytes => (some value, bytes)
  | _ + 1, _, [] => (none, [])
  | count + 1, value, b :: bytes =>
    if isTail low high b then tails 0x80 0xBF count (value * 64 + tailBits b) bytes
    else (none, b :: bytes)

/-- The character that a byte starts, if it is one, and the bytes that remain. -/
def next (b : UInt8) (bytes : Bytes) : Option Char × Bytes :=
  if b.toNat < 128 then (some (Char.ofNat b.toNat), bytes)
  else match lead? b with
    | none => (none, bytes)
    | some (low, high, count, bits) =>
      let (value, rest) := tails low high count bits bytes
      (value.map Char.ofNat, rest)

theorem length_tails_le (low high count value : Nat) (bytes : Bytes) :
    (tails low high count value bytes).2.length ≤ bytes.length := by
  fun_induction tails low high count value bytes <;> grind

/-- A step of decoding leaves no more bytes than it was given. -/
theorem length_next_le (b : UInt8) (bytes : Bytes) : (next b bytes).2.length ≤ bytes.length := by
  unfold next
  split
  · exact Nat.le_refl _
  · split
    · exact Nat.le_refl _
    · exact length_tails_le ..

/-- The characters of bytes, none for each stretch that is no character. -/
def pieces : Bytes → List (Option Char)
  | [] => []
  | b :: bytes => (next b bytes).1 :: pieces (next b bytes).2
termination_by bytes => bytes.length
decreasing_by
  have := length_next_le b bytes
  simp only [List.length_cons]
  omega

/-- The text of bytes, with replacement characters where they are not UTF-8. -/
def decodeLossy (bytes : Bytes) : Text := (pieces bytes).map fun c => c.getD replacement

/-- The text of bytes that are UTF-8. -/
def decode? (bytes : Bytes) : Option Text := (pieces bytes).mapM id

end Utf8

end Glossator
