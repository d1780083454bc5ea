import Mathlib
import Glossator.Text.Utf8

/-!
# Encoding and decoding

What a text is encoded to is decoded to the text, and texts are in the order of their bytes.

* `Utf8.decodeLossy_encode`, `Utf8.decode?_encode`: a text comes back from its bytes.
* `Utf8.encode_lt_encode`: of two texts, the one that comes first has the bytes that come first.
* `Utf8.eq_of_ascii_mem`: the byte of a character stands in no other character.
-/

set_option autoImplicit false

namespace Glossator.Utf8

theorem toNat_ofNat_of_lt {n : Nat} (h : n < 256) : (UInt8.ofNat n).toNat = n := by
  rw [UInt8.toNat_ofNat', Nat.mod_eq_of_lt h]

/-- A byte within bounds goes on with a character. -/
theorem tails_cons {low high count value n : Nat} (hlow : low ≤ n) (hhigh : n ≤ high)
    (h : n < 256) (bytes : Bytes) : tails low high (count + 1) value (UInt8.ofNat n :: bytes) =
      tails 0x80 0xBF count (value * 64 + n % 64) bytes := by
  have htail : isTail low high (UInt8.ofNat n) = true := by
    simp [isTail, toNat_ofNat_of_lt h, hlow, hhigh]
  rw [tails, if_pos htail, tailBits, toNat_ofNat_of_lt h]

/-- A byte that starts a character of several bytes is followed by the rest of them. -/
theorem next_of_lead? {n : Nat} (hn : 128 ≤ n) (h : n < 256) {low high count bits : Nat}
    (hlead : lead? (UInt8.ofNat n) = some (low, high, count, bits)) (bytes : Bytes) :
    next (UInt8.ofNat n) bytes = ((tails low high count bits bytes).1.map Char.ofNat,
      (tails low high count bits bytes).2) := by
  rw [next, toNat_ofNat_of_lt h, if_neg (by omega), hlead]

/-- Two bytes hold eleven bits. -/
theorem next_two {v : Nat} (hlow : 128 ≤ v) (hhigh : v < 2048) (rest : Bytes) :
    next (UInt8.ofNat (v / 64 % 32 + 192)) (UInt8.ofNat (v % 64 + 128) :: rest) =
      (some (Char.ofNat v), rest) := by
  have hlead : lead? (UInt8.ofNat (v / 64 % 32 + 192)) =
      some (0x80, 0xBF, 1, (v / 64 % 32 + 192) % 32) := by
    rw [lead?, toNat_ofNat_of_lt (by omega)]
    exact if_pos (by omega)
  rw [next_of_lead? (by omega) (by omega) hlead, tails_cons (by omega) (by omega) (by omega), tails]
  have hvalue : (v / 64 % 32 + 192) % 32 * 64 + (v % 64 + 128) % 64 = v := by omega
  simp only [Option.map_some, hvalue]

/-- Three bytes hold sixteen bits, the surrogates left out. -/
theorem next_three {v : Nat} (hlow : 2048 ≤ v) (hhigh : v < 65536)
    (hvalid : v < 0xD800 ∨ 0xDFFF < v) (rest : Bytes) :
    next (UInt8.ofNat (v / 4096 % 16 + 224)) (UInt8.ofNat (v / 64 % 64 + 128) ::
      UInt8.ofNat (v % 64 + 128) :: rest) = (some (Char.ofNat v), rest) := by
  obtain ⟨low, high, hlead, hlow', hhigh'⟩ : ∃ low high,
      lead? (UInt8.ofNat (v / 4096 % 16 + 224)) = some (low, high, 2, v / 4096) ∧
        low ≤ v / 64 % 64 + 128 ∧ v / 64 % 64 + 128 ≤ high := by
    refine ⟨if v < 0x1000 then 0xA0 else 0x80, if v / 4096 = 13 then 0x9F else 0xBF, ?_,
      by split <;> omega, by split <;> omega⟩
    rw [lead?, toNat_ofNat_of_lt (by omega)]
    grind
  rw [next_of_lead? (by omega) (by omega) hlead, tails_cons hlow' hhigh' (by omega),
    tails_cons (by omega) (by omega) (by omega), tails]
  have hvalue : (v / 4096 * 64 + (v / 64 % 64 + 128) % 64) * 64 + (v % 64 + 128) % 64 = v := by
    omega
  simp only [Option.map_some, hvalue]

/-- Four bytes hold the characters beyond. -/
theorem next_four {v : Nat} (hlow : 65536 ≤ v) (hhigh : v < 0x110000) (rest : Bytes) :
    next (UInt8.ofNat (v / 262144 % 8 + 240)) (UInt8.ofNat (v / 4096 % 64 + 128) ::
      UInt8.ofNat (v / 64 % 64 + 128) :: UInt8.ofNat (v % 64 + 128) :: rest) =
        (some (Char.ofNat v), rest) := by
  obtain ⟨low, high, hlead, hlow', hhigh'⟩ : ∃ low high,
      lead? (UInt8.ofNat (v / 262144 % 8 + 240)) = some (low, high, 3, v / 262144) ∧
        low ≤ v / 4096 % 64 + 128 ∧ v / 4096 % 64 + 128 ≤ high := by
    refine ⟨if v < 0x40000 then 0x90 else 0x80, if v / 262144 = 4 then 0x8F else 0xBF, ?_,
      by split <;> omega, by split <;> omega⟩
    rw [lead?, toNat_ofNat_of_lt (by omega)]
    grind
  rw [next_of_lead? (by omega) (by omega) hlead, tails_cons hlow' hhigh' (by omega),
    tails_cons (by omega) (by omega) (by omega), tails_cons (by omega) (by omega) (by omega), tails]
  have hvalue : ((v / 262144 * 64 + (v / 4096 % 64 + 128) % 64) * 64 +
      (v / 64 % 64 + 128) % 64) * 64 + (v % 64 + 128) % 64 = v := by
    omega
  simp only [Option.map_some, hvalue]

/-- The bytes of the character with a code. -/
def bytesOfCode (v : Nat) : Bytes :=
  if v ≤ 127 then [UInt8.ofNat v]
  else if v ≤ 2047 then [UInt8.ofNat (v / 64 % 32 + 192), UInt8.ofNat (v % 64 + 128)]
  else if v ≤ 65535 then [UInt8.ofNat (v / 4096 % 16 + 224), UInt8.ofNat (v / 64 % 64 + 128),
    UInt8.ofNat (v % 64 + 128)]
  else [UInt8.ofNat (v / 262144 % 8 + 240), UInt8.ofNat (v / 4096 % 64 + 128),
    UInt8.ofNat (v / 64 % 64 + 128), UInt8.ofNat (v % 64 + 128)]

theorem utf8EncodeChar_eq (c : Char) : String.utf8EncodeChar c = bytesOfCode c.toNat := rfl

/-- The bytes of a character are read as the character. -/
theorem next_encode (c : Char) (rest : Bytes) : ∃ b tail,
    String.utf8EncodeChar c = b :: tail ∧ next b (tail ++ rest) = (some c, rest) := by
  have hvalid : c.toNat < 0xD800 ∨ 0xDFFF < c.toNat ∧ c.toNat < 0x110000 := c.valid
  have hchar : Char.ofNat c.toNat = c := Char.ofNat_toNat c
  rw [utf8EncodeChar_eq, bytesOfCode]
  generalize c.toNat = v at hvalid hchar
  rcases Nat.lt_or_ge v 128 with h1 | h1
  · refine ⟨UInt8.ofNat v, [], by rw [if_pos (by omega)], ?_⟩
    rw [next, toNat_ofNat_of_lt (by omega), if_pos h1, hchar, List.nil_append]
  rw [if_neg (by omega)]
  rcases Nat.lt_or_ge v 2048 with h2 | h2
  · exact ⟨_, _, by rw [if_pos (by omega)], hchar ▸ next_two h1 h2 rest⟩
  rw [if_neg (by omega)]
  rcases Nat.lt_or_ge v 65536 with h3 | h3
  · exact ⟨_, _, by rw [if_pos (by omega)], hchar ▸ next_three h2 h3 (by omega) rest⟩
  · exact ⟨_, _, by rw [if_neg (by omega)], hchar ▸ next_four h3 (by omega) rest⟩

/-- The bytes of a text hold its characters and nothing else. -/
theorem pieces_encode (t : Text) : pieces (encode t) = t.map some := by
  induction t with
  | nil => simp [encode, pieces]
  | cons c t ih =>
    obtain ⟨b, tail, hbytes, hnext⟩ := next_encode c (encode t)
    have hencode : encode (c :: t) = b :: (tail ++ encode t) := by
      simp [encode, hbytes]
    rw [hencode, pieces, hnext, ih, List.map_cons]

/-- A text comes back from its bytes. -/
@[simp] theorem decodeLossy_encode (t : Text) : decodeLossy (encode t) = t := by
  rw [decodeLossy, pieces_encode, List.map_map]
  exact List.map_id t

/-- A text is read from its bytes as UTF-8. -/
@[simp] theorem decode?_encode (t : Text) : decode? (encode t) = some t := by
  rw [decode?, pieces_encode]
  induction t with
  | nil => rfl
  | cons c t ih => simp only [List.map_cons, List.mapM_cons, ih]; rfl

/-! ### Order -/

/-- A byte that is less, or the same before what is less. -/
theorem cons_lt_cons {m n : Nat} {s t : Bytes} (hn : n < 256) (h : m ≤ n)
    (hrest : m = n → s < t) : UInt8.ofNat m :: s < UInt8.ofNat n :: t := by
  rw [List.cons_lt_cons_iff]
  rcases Nat.eq_or_lt_of_le h with rfl | hlt
  · exact .inr ⟨rfl, hrest rfl⟩
  · left
    rw [UInt8.lt_iff_toNat_lt, toNat_ofNat_of_lt hn, toNat_ofNat_of_lt (by omega)]
    exact hlt

/-- The bytes of characters are in the order of their codes, whatever follows them. -/
theorem bytesOfCode_append_lt {v w : Nat} (h : v < w) (hw : w < 0x110000) (s t : Bytes) :
    bytesOfCode v ++ s < bytesOfCode w ++ t := by
  unfold bytesOfCode
  -- a longer character starts with a greater byte; of one length, the first byte that differs
  -- counts
  split_ifs <;>
    first
    | omega
    | (simp only [List.cons_append, List.nil_append]
       repeat
        refine cons_lt_cons (by omega) (by omega) fun _ => ?_
        try omega)

/-- Texts are in the order of their bytes. -/
theorem encode_lt_encode {a b : Text} (h : a < b) : encode a < encode b := by
  induction a generalizing b with
  | nil =>
    cases b with
    | nil => exact absurd h (List.lt_irrefl _)
    | cons d b =>
      obtain ⟨x, tail, hbytes, -⟩ := next_encode d []
      simp [encode, hbytes]
  | cons c a ih =>
    cases b with
    | nil => exact absurd h (List.not_lt_nil _)
    | cons d b =>
      simp only [encode, List.flatMap_cons]
      rcases List.cons_lt_cons_iff.1 h with hlt | ⟨rfl, hrest⟩
      · rw [utf8EncodeChar_eq, utf8EncodeChar_eq]
        have hvalid : d.toNat < 0xD800 ∨ 0xDFFF < d.toNat ∧ d.toNat < 0x110000 := d.valid
        have hd : d.toNat < 0x110000 := by omega
        exact bytesOfCode_append_lt hlt hd _ _
      · exact List.append_left_lt (ih hrest)

/-! ### Bytes of characters -/

/-- The byte of a character that takes one. -/
def ascii (c : Char) : UInt8 := UInt8.ofNat c.toNat

variable {c d : Char} {t u : Text}

@[simp] theorem encode_nil : encode [] = [] := rfl

theorem encode_cons : encode (c :: t) = String.utf8EncodeChar c ++ encode t := rfl

theorem encode_append : encode (t ++ u) = encode t ++ encode u := List.flatMap_append

theorem encodeChar_of_lt (h : c.toNat < 128) : String.utf8EncodeChar c = [ascii c] := by
  rw [utf8EncodeChar_eq, bytesOfCode, if_pos (by omega)]
  rfl

/-- The bytes of a character that takes several are none of those that stand for one. -/
theorem le_of_mem_encodeChar (h : 128 ≤ c.toNat) {b : UInt8} (hb : b ∈ String.utf8EncodeChar c) :
    128 ≤ b.toNat := by
  have hvalid : c.toNat < 0x110000 := by
    have : c.toNat < 0xD800 ∨ 0xDFFF < c.toNat ∧ c.toNat < 0x110000 := c.valid
    omega
  rw [utf8EncodeChar_eq, bytesOfCode, if_neg (by omega)] at hb
  generalize c.toNat = v at h hvalid hb
  split at hb
  · simp only [List.mem_cons, List.not_mem_nil, or_false] at hb
    rcases hb with rfl | rfl <;> rw [toNat_ofNat_of_lt (by omega)] <;> omega
  · split at hb <;> simp only [List.mem_cons, List.not_mem_nil, or_false] at hb
    · rcases hb with rfl | rfl | rfl <;> rw [toNat_ofNat_of_lt (by omega)] <;> omega
    · rcases hb with rfl | rfl | rfl | rfl <;> rw [toNat_ofNat_of_lt (by omega)] <;> omega

theorem encodeChar_ne_nil (c : Char) : String.utf8EncodeChar c ≠ [] := by
  obtain ⟨b, tail, hbytes, -⟩ := next_encode c []
  simp [hbytes]

/-- The byte of a character stands in another character only if both are the same. -/
theorem eq_of_ascii_mem (hd : d.toNat < 128) (h : ascii d ∈ String.utf8EncodeChar c) : d = c := by
  have hbyte : (ascii d).toNat = d.toNat := toNat_ofNat_of_lt (by omega)
  rcases Nat.lt_or_ge c.toNat 128 with hc | hc
  · rw [encodeChar_of_lt hc, List.mem_singleton] at h
    have hbyte' : (ascii c).toNat = c.toNat := toNat_ofNat_of_lt (by omega)
    rw [← Char.ofNat_toNat d, ← Char.ofNat_toNat c, ← hbyte, ← hbyte', h]
  · have := le_of_mem_encodeChar hc h
    omega

theorem head?_encode (hd : d.toNat < 128) :
    (encode t).head? = some (ascii d) ↔ t.head? = some d := by
  cases t with
  | nil => simp
  | cons c t =>
    obtain ⟨b, tail, hbytes, -⟩ := next_encode c []
    rw [encode_cons, hbytes, List.cons_append, List.head?_cons, List.head?_cons, Option.some_inj,
      Option.some_inj]
    constructor
    · rintro rfl
      exact (eq_of_ascii_mem hd (hbytes ▸ List.mem_cons_self)).symm
    · rintro rfl
      rw [encodeChar_of_lt hd, List.cons.injEq] at hbytes
      exact hbytes.1.symm

theorem head?_encode_cons (hd : d.toNat < 128) : (encode (d :: t)).head? = some (ascii d) :=
  (head?_encode hd).2 rfl

end Glossator.Utf8
