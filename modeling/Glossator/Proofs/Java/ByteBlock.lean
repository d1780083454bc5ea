import Glossator.Proofs.Java.Block
import Glossator.Proofs.Java.Lexer

/-!
# Blocks in bytes

A block can be looked for in the bytes of a text as well as in its characters. A brace is one byte,
and that byte stands in no other character, so both ways lead to the same places, which lie between
characters.

* `Java.byteBlock?`: the block that opens with the first brace from some byte on.
* `Java.byteBlock?_encode`: the same block in characters and in bytes.
-/

set_option autoImplicit false

namespace Glossator.Java

open Utf8

variable {c d : Char} {t : Text} {bytes rest : Bytes}

/-- The number of bytes up to and including the brace that closes all open ones. -/
def closingByte? (depth : Nat) : Bytes → Option Nat
  | [] => none
  | b :: rest =>
    if b = ascii '{' then (closingByte? (depth + 1) rest).map (· + 1)
    else if b = ascii '}' then
      if depth ≤ 1 then some 1 else (closingByte? (depth - 1) rest).map (· + 1)
    else (closingByte? depth rest).map (· + 1)

/-- The block that opens with the first brace at or after a byte. -/
def byteBlock? (bytes : Bytes) (offset : Nat) : Option Block :=
  let before := (bytes.drop offset).takeWhile (· ≠ ascii '{')
  match (bytes.drop offset).dropWhile (· ≠ ascii '{') with
  | [] => none
  | body =>
    let opening := offset + before.length
    match closingByte? 0 body with
    | some length => some ⟨opening, opening + length, true⟩
    | none => some ⟨opening, bytes.length, false⟩

/-- A block of characters as a block of bytes. -/
def Block.inBytes (t : Text) (b : Block) : Block where
  opening := byteOffset t b.opening
  stop := byteOffset t b.stop
  closed := b.closed

/-! ### Bytes of a part of a text -/

theorem byteOffset_cons_succ (c : Char) (t : Text) (n : Nat) :
    byteOffset (c :: t) (n + 1) = (String.utf8EncodeChar c).length + byteOffset t n := by
  rw [byteOffset, List.take_succ_cons, encode_cons, List.length_append, byteOffset]

theorem drop_encode (t : Text) (i : Nat) :
    (encode t).drop (byteOffset t i) = encode (t.drop i) := by
  conv_lhs => rw [← List.take_append_drop i t, encode_append]
  rw [byteOffset, List.take_append_drop]
  exact List.drop_left

theorem byteOffset_length (t : Text) : byteOffset t t.length = (encode t).length := by
  rw [byteOffset, List.take_length]

/-- The first characters as bytes, up to one of a single byte. -/
theorem encode_takeWhile (hd : d.toNat < 128) (t : Text) :
    (encode t).takeWhile (· ≠ ascii d) = encode (t.takeWhile (· ≠ d)) ∧
      (encode t).dropWhile (· ≠ ascii d) = encode (t.dropWhile (· ≠ d)) := by
  induction t with
  | nil => exact ⟨rfl, rfl⟩
  | cons c t ih =>
    rw [encode_cons]
    by_cases hc : c = d
    · subst hc
      simp [encodeChar_of_lt hd, ascii, encode_cons]
    · have hplain : ∀ b ∈ String.utf8EncodeChar c, decide (b ≠ ascii d) = true := by
        intro b hb
        rw [decide_eq_true_iff]
        rintro rfl
        exact hc (eq_of_ascii_mem hd hb).symm
      rw [List.takeWhile_append_of_pos hplain, List.dropWhile_append_of_pos hplain, ih.1, ih.2]
      simp [hc, encode_cons]

/-! ### The closing brace -/

/-- Bytes without braces are passed over. -/
theorem closingByte?_append (depth : Nat) (h : ∀ b ∈ bytes, b ≠ ascii '{' ∧ b ≠ ascii '}') :
    closingByte? depth (bytes ++ rest) = (closingByte? depth rest).map (bytes.length + ·) := by
  induction bytes with
  | nil => simp
  | cons b bytes ih =>
    obtain ⟨⟨hopen, hclose⟩, hbytes⟩ := List.forall_mem_cons.1 h
    rw [List.cons_append, closingByte?, if_neg hopen, if_neg hclose, ih hbytes, Option.map_map]
    congr 1
    funext n
    simp only [Function.comp_apply, List.length_cons]
    omega

/-- The braces are balanced at the same place in characters and in bytes. -/
theorem closingByte?_encode (depth : Nat) (t : Text) :
    closingByte? depth (encode t) = (closingLength? depth t).map (byteOffset t) := by
  induction t generalizing depth with
  | nil => rfl
  | cons c t ih =>
    have hnext (found : Option Nat) : (found.map (byteOffset t)).map
        ((String.utf8EncodeChar c).length + ·) = (found.map (· + 1)).map (byteOffset (c :: t)) := by
      cases found <;> simp [byteOffset_cons_succ]
    -- behind a character of one byte, one more byte was read
    have hone (h : c.toNat < 128) (found : Option Nat) : (found.map (byteOffset t)).map (· + 1) =
        (found.map (· + 1)).map (byteOffset (c :: t)) := by
      rw [← hnext, encodeChar_of_lt h]
      simp [Nat.add_comm]
    rw [encode_cons, closingLength?]
    by_cases hopen : c = '{'
    · subst hopen
      rw [encodeChar_of_lt (by decide), List.singleton_append, closingByte?, if_pos rfl, if_pos rfl,
        ih, hone (by decide)]
    by_cases hclose : c = '}'
    · subst hclose
      rw [encodeChar_of_lt (by decide), List.singleton_append, closingByte?,
        if_neg (by decide : ¬ ascii '}' = ascii '{'), if_pos rfl, if_neg hopen, if_pos rfl]
      by_cases hdepth : depth ≤ 1
      · have hlast : byteOffset ('}' :: t) 1 = 1 := by
          rw [byteOffset_cons_succ, encodeChar_of_lt (by decide)]
          rfl
        rw [if_pos hdepth, if_pos hdepth, Option.map_some, hlast]
      · rw [if_neg hdepth, if_neg hdepth, ih, hone (by decide)]
    · rw [closingByte?_append depth, ih, hnext, if_neg hopen, if_neg hclose]
      intro b hb
      constructor <;> rintro rfl
      · exact hopen (eq_of_ascii_mem (by decide) hb).symm
      · exact hclose (eq_of_ascii_mem (by decide) hb).symm

theorem byteOffset_add (t : Text) (i n : Nat) :
    byteOffset t (i + n) = byteOffset t i + byteOffset (t.drop i) n := by
  rw [byteOffset, List.take_add, encode_append, List.length_append, byteOffset, byteOffset]

theorem byteOffset_of_prefix {i : Nat} {u : Text} (h : u <+: t.drop i) :
    byteOffset t (i + u.length) = byteOffset t i + (encode u).length := by
  obtain ⟨rest, hrest⟩ := h
  rw [byteOffset_add, ← hrest, byteOffset_append_length]

/-- Before the end of a character of one byte is its start. -/
theorem byteOffset_pred {i : Nat} (h : t[i]? = some c) (hc : c.toNat < 128) :
    byteOffset t (i + 1) - 1 = byteOffset t i := by
  obtain ⟨hlt, hget⟩ := List.getElem?_eq_some_iff.1 h
  have hstart : [c] <+: t.drop i := by
    rw [List.drop_eq_getElem_cons hlt, hget]
    exact List.prefix_append [c] _
  have hnext := byteOffset_of_prefix hstart
  rw [encode_cons, encodeChar_of_lt hc] at hnext
  simp only [List.length_singleton, encode_nil, List.append_nil] at hnext
  omega

/-- A block is found in the bytes of a text where it is found in the characters. -/
theorem byteBlock?_encode (t : Text) (i : Nat) :
    byteBlock? (encode t) (byteOffset t i) = (block? t i).map (Block.inBytes t) := by
  obtain ⟨hbefore, hbody⟩ := encode_takeWhile (d := '{') (by decide) (t.drop i)
  have hsplit := List.takeWhile_append_dropWhile (p := (· ≠ '{')) (l := t.drop i)
  simp only [byteBlock?, block?, drop_encode, hbefore, hbody]
  generalize (t.drop i).takeWhile (· ≠ '{') = before at hsplit
  generalize (t.drop i).dropWhile (· ≠ '{') = body at hsplit
  have hopening : byteOffset t (i + before.length) = byteOffset t i + (encode before).length := by
    rw [byteOffset_add, ← hsplit, byteOffset_append_length]
  cases body with
  | nil => rfl
  | cons c body =>
    have hstop (n : Nat) : byteOffset t (i + before.length + n) =
        byteOffset t i + (encode before).length + byteOffset (c :: body) n := by
      rw [byteOffset_add, hopening, ← List.drop_drop, ← hsplit, List.drop_left]
    have hclosing := closingByte?_encode 0 (c :: body)
    obtain ⟨b, tail, hbytes⟩ := List.exists_cons_of_ne_nil
      (List.append_ne_nil_of_left_ne_nil (encodeChar_ne_nil c) (encode body))
    rw [encode_cons, hbytes] at hclosing ⊢
    simp only [hclosing]
    cases closingLength? 0 (c :: body) with
    | none => simp [Block.inBytes, hopening, byteOffset_length]
    | some n => simp [Block.inBytes, hopening, hstop]

end Glossator.Java
