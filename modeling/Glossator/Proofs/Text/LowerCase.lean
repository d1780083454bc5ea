import Mathlib
import Glossator.Text.Basic

/-!
# Small letters

Characters have small letters far beyond the letters A to Z, and a text may grow when it is written
in small letters. Where a text in small letters has only characters of ASCII other than k, lowering
the letters A to Z alone gives the same: no other character lowers to one of those.

* `Text.lower`: a text in small letters, after the Unicode tables.
* `Text.lower_eq_iff`: when the letters A to Z are all that counts.
-/

set_option autoImplicit false

namespace Glossator

/-! ### The letters A to Z -/

theorem toNat_toLower (c : Char) :
    c.toLower.toNat = if 65 ≤ c.toNat ∧ c.toNat ≤ 90 then c.toNat + 32 else c.toNat := by
  have hrange : (c.val ≥ 'A'.val ∧ c.val ≤ 'Z'.val) ↔ 65 ≤ c.toNat ∧ c.toNat ≤ 90 := Iff.rfl
  unfold Char.toLower
  split
  · next h =>
    have hle := hrange.1 h
    rw [if_pos hle]
    change (c.val + 32).toNat = c.val.toNat + 32
    have : c.val.toNat ≤ 90 := hle.2
    rw [UInt32.toNat_add]
    simp
    omega
  · next h => rw [if_neg (mt hrange.2 h)]

/-- Lowering moves only letters, and to letters. -/
theorem toLower_eq_iff {c d : Char} (hd : d.toNat < 65) : c.toLower = d ↔ c = d := by
  rw [← Char.toNat_inj, ← Char.toNat_inj, toNat_toLower]
  split <;> omega

/-! ### Small letters of all scripts -/

/-- Capital letters at one distance from each other, with the small letter of the first; the others
are as far from theirs. -/
structure CapitalRun where
  first : Nat
  last : Nat
  step : Nat
  small : Nat

/-- The code points that have a small letter of one character, by Unicode 16. -/
def capitalRuns : List CapitalRun :=
  [⟨65, 90, 1, 97⟩, ⟨192, 214, 1, 224⟩, ⟨216, 222, 1, 248⟩, ⟨256, 302, 2, 257⟩, ⟨306, 310, 2, 307⟩,
   ⟨313, 327, 2, 314⟩, ⟨330, 374, 2, 331⟩, ⟨376, 376, 1, 255⟩, ⟨377, 381, 2, 378⟩,
   ⟨385, 385, 1, 595⟩, ⟨386, 388, 2, 387⟩, ⟨390, 390, 1, 596⟩, ⟨391, 391, 1, 392⟩,
   ⟨393, 394, 1, 598⟩, ⟨395, 395, 1, 396⟩, ⟨398, 398, 1, 477⟩, ⟨399, 399, 1, 601⟩,
   ⟨400, 400, 1, 603⟩, ⟨401, 401, 1, 402⟩, ⟨403, 403, 1, 608⟩, ⟨404, 404, 1, 611⟩,
   ⟨406, 406, 1, 617⟩, ⟨407, 407, 1, 616⟩, ⟨408, 408, 1, 409⟩, ⟨412, 412, 1, 623⟩,
   ⟨413, 413, 1, 626⟩, ⟨415, 415, 1, 629⟩, ⟨416, 420, 2, 417⟩, ⟨422, 422, 1, 640⟩,
   ⟨423, 423, 1, 424⟩, ⟨425, 425, 1, 643⟩, ⟨428, 428, 1, 429⟩, ⟨430, 430, 1, 648⟩,
   ⟨431, 431, 1, 432⟩, ⟨433, 434, 1, 650⟩, ⟨435, 437, 2, 436⟩, ⟨439, 439, 1, 658⟩,
   ⟨440, 440, 1, 441⟩, ⟨444, 444, 1, 445⟩, ⟨452, 452, 1, 454⟩, ⟨453, 453, 1, 454⟩,
   ⟨455, 455, 1, 457⟩, ⟨456, 456, 1, 457⟩, ⟨458, 458, 1, 460⟩, ⟨459, 475, 2, 460⟩,
   ⟨478, 494, 2, 479⟩, ⟨497, 497, 1, 499⟩, ⟨498, 500, 2, 499⟩, ⟨502, 502, 1, 405⟩,
   ⟨503, 503, 1, 447⟩, ⟨504, 542, 2, 505⟩, ⟨544, 544, 1, 414⟩, ⟨546, 562, 2, 547⟩,
   ⟨570, 570, 1, 11365⟩, ⟨571, 571, 1, 572⟩, ⟨573, 573, 1, 410⟩, ⟨574, 574, 1, 11366⟩,
   ⟨577, 577, 1, 578⟩, ⟨579, 579, 1, 384⟩, ⟨580, 580, 1, 649⟩, ⟨581, 581, 1, 652⟩,
   ⟨582, 590, 2, 583⟩, ⟨880, 882, 2, 881⟩, ⟨886, 886, 1, 887⟩, ⟨895, 895, 1, 1011⟩,
   ⟨902, 902, 1, 940⟩, ⟨904, 906, 1, 941⟩, ⟨908, 908, 1, 972⟩, ⟨910, 911, 1, 973⟩,
   ⟨913, 929, 1, 945⟩, ⟨931, 939, 1, 963⟩, ⟨975, 975, 1, 983⟩, ⟨984, 1006, 2, 985⟩,
   ⟨1012, 1012, 1, 952⟩, ⟨1015, 1015, 1, 1016⟩, ⟨1017, 1017, 1, 1010⟩, ⟨1018, 1018, 1, 1019⟩,
   ⟨1021, 1023, 1, 891⟩, ⟨1024, 1039, 1, 1104⟩, ⟨1040, 1071, 1, 1072⟩, ⟨1120, 1152, 2, 1121⟩,
   ⟨1162, 1214, 2, 1163⟩, ⟨1216, 1216, 1, 1231⟩, ⟨1217, 1229, 2, 1218⟩, ⟨1232, 1326, 2, 1233⟩,
   ⟨1329, 1366, 1, 1377⟩, ⟨4256, 4293, 1, 11520⟩, ⟨4295, 4295, 1, 11559⟩, ⟨4301, 4301, 1, 11565⟩,
   ⟨5024, 5103, 1, 43888⟩, ⟨5104, 5109, 1, 5112⟩, ⟨7305, 7305, 1, 7306⟩, ⟨7312, 7354, 1, 4304⟩,
   ⟨7357, 7359, 1, 4349⟩, ⟨7680, 7828, 2, 7681⟩, ⟨7838, 7838, 1, 223⟩, ⟨7840, 7934, 2, 7841⟩,
   ⟨7944, 7951, 1, 7936⟩, ⟨7960, 7965, 1, 7952⟩, ⟨7976, 7983, 1, 7968⟩, ⟨7992, 7999, 1, 7984⟩,
   ⟨8008, 8013, 1, 8000⟩, ⟨8025, 8031, 2, 8017⟩, ⟨8040, 8047, 1, 8032⟩, ⟨8072, 8079, 1, 8064⟩,
   ⟨8088, 8095, 1, 8080⟩, ⟨8104, 8111, 1, 8096⟩, ⟨8120, 8121, 1, 8112⟩, ⟨8122, 8123, 1, 8048⟩,
   ⟨8124, 8124, 1, 8115⟩, ⟨8136, 8139, 1, 8050⟩, ⟨8140, 8140, 1, 8131⟩, ⟨8152, 8153, 1, 8144⟩,
   ⟨8154, 8155, 1, 8054⟩, ⟨8168, 8169, 1, 8160⟩, ⟨8170, 8171, 1, 8058⟩, ⟨8172, 8172, 1, 8165⟩,
   ⟨8184, 8185, 1, 8056⟩, ⟨8186, 8187, 1, 8060⟩, ⟨8188, 8188, 1, 8179⟩, ⟨8486, 8486, 1, 969⟩,
   ⟨8490, 8490, 1, 107⟩, ⟨8491, 8491, 1, 229⟩, ⟨8498, 8498, 1, 8526⟩, ⟨8544, 8559, 1, 8560⟩,
   ⟨8579, 8579, 1, 8580⟩, ⟨9398, 9423, 1, 9424⟩, ⟨11264, 11311, 1, 11312⟩,
   ⟨11360, 11360, 1, 11361⟩, ⟨11362, 11362, 1, 619⟩, ⟨11363, 11363, 1, 7549⟩,
   ⟨11364, 11364, 1, 637⟩, ⟨11367, 11371, 2, 11368⟩, ⟨11373, 11373, 1, 593⟩,
   ⟨11374, 11374, 1, 625⟩, ⟨11375, 11375, 1, 592⟩, ⟨11376, 11376, 1, 594⟩,
   ⟨11378, 11378, 1, 11379⟩, ⟨11381, 11381, 1, 11382⟩, ⟨11390, 11391, 1, 575⟩,
   ⟨11392, 11490, 2, 11393⟩, ⟨11499, 11501, 2, 11500⟩, ⟨11506, 11506, 1, 11507⟩,
   ⟨42560, 42604, 2, 42561⟩, ⟨42624, 42650, 2, 42625⟩, ⟨42786, 42798, 2, 42787⟩,
   ⟨42802, 42862, 2, 42803⟩, ⟨42873, 42875, 2, 42874⟩, ⟨42877, 42877, 1, 7545⟩,
   ⟨42878, 42886, 2, 42879⟩, ⟨42891, 42891, 1, 42892⟩, ⟨42893, 42893, 1, 613⟩,
   ⟨42896, 42898, 2, 42897⟩, ⟨42902, 42920, 2, 42903⟩, ⟨42922, 42922, 1, 614⟩,
   ⟨42923, 42923, 1, 604⟩, ⟨42924, 42924, 1, 609⟩, ⟨42925, 42925, 1, 620⟩, ⟨42926, 42926, 1, 618⟩,
   ⟨42928, 42928, 1, 670⟩, ⟨42929, 42929, 1, 647⟩, ⟨42930, 42930, 1, 669⟩,
   ⟨42931, 42931, 1, 43859⟩, ⟨42932, 42946, 2, 42933⟩, ⟨42948, 42948, 1, 42900⟩,
   ⟨42949, 42949, 1, 642⟩, ⟨42950, 42950, 1, 7566⟩, ⟨42951, 42953, 2, 42952⟩,
   ⟨42955, 42955, 1, 612⟩, ⟨42956, 42956, 1, 42957⟩, ⟨42960, 42960, 1, 42961⟩,
   ⟨42966, 42970, 2, 42967⟩, ⟨42972, 42972, 1, 411⟩, ⟨42997, 42997, 1, 42998⟩,
   ⟨65313, 65338, 1, 65345⟩, ⟨66560, 66599, 1, 66600⟩, ⟨66736, 66771, 1, 66776⟩,
   ⟨66928, 66938, 1, 66967⟩, ⟨66940, 66954, 1, 66979⟩, ⟨66956, 66962, 1, 66995⟩,
   ⟨66964, 66965, 1, 67003⟩, ⟨68736, 68786, 1, 68800⟩, ⟨68944, 68965, 1, 68976⟩,
   ⟨71840, 71871, 1, 71872⟩, ⟨93760, 93791, 1, 93792⟩, ⟨125184, 125217, 1, 125218⟩]

/-- The code point of the small letter of a code point; itself if it has none. -/
def lowerPoint (n : Nat) : Nat :=
  match capitalRuns.find? fun r =>
      r.first ≤ n && n ≤ r.last && (n - r.first) % r.step == 0 with
  | some r => r.small + (n - r.first)
  | none => n

/-- A character in small letters. A capital I with a dot keeps the dot, as a mark of its own, and a
capital sigma has another small letter at the end of a word. -/
def lowerChar (final : Bool) (c : Char) : Text :=
  if c = 'İ' then ['i', '\u0307']
  else if c = 'Σ' ∧ final then ['ς']
  else [Char.ofNat (lowerPoint c.toNat)]

/-- What follows a text, in small letters; whether a character ends a word is told from what stands
before and behind it. -/
def Text.lowerAfter (endsWord : Text → Text → Bool) (before : Text) : Text → Text
  | [] => []
  | c :: behind =>
    lowerChar (endsWord before behind) c ++ Text.lowerAfter endsWord (before ++ [c]) behind

/-- A text in small letters. -/
def Text.lower (endsWord : Text → Text → Bool) (t : Text) : Text := lowerAfter endsWord [] t

/-- The characters that only the letters A to Z, or they themselves, lower to. The small letter of
the sign for kelvin is k, so k is not among them. -/
def IsPlainSmall (c : Char) : Prop := c.toNat < 128 ∧ c ≠ 'k'

/-- Beyond ASCII the table leads to characters beyond ASCII, or to k. -/
theorem small_of_mem_capitalRuns : ∀ r ∈ capitalRuns, 128 ≤ r.last →
    r.first = r.last ∧ r.small = 107 ∨
      128 ≤ r.small ∧ (r.small + (r.last - r.first) < 0xD800 ∨
        0xDFFF < r.small ∧ r.small + (r.last - r.first) < 0x110000) := by
  decide +kernel

theorem lowerPoint_of_le {n : Nat} (h : 128 ≤ n) (hvalid : n.isValidChar) :
    lowerPoint n = 107 ∨ 128 ≤ lowerPoint n ∧ (lowerPoint n).isValidChar := by
  unfold lowerPoint
  split
  · next r hr =>
    have hin := List.find?_some hr
    simp only [Bool.and_eq_true, decide_eq_true_eq] at hin
    rcases small_of_mem_capitalRuns r (List.mem_of_find?_eq_some hr) (by omega) with
      hkelvin | ⟨hle, hscalar⟩
    · exact .inl (by omega)
    · refine .inr ⟨by omega, ?_⟩
      rcases hscalar with hlow | hhigh
      · exact .inl (by omega)
      · exact .inr ⟨by omega, by omega⟩
  · exact .inr ⟨h, hvalid⟩

theorem lowerPoint_of_lt : ∀ n < 128, lowerPoint n = (Char.ofNat n).toLower.toNat := by
  decide +kernel

/-- A character lowers as a letter from A to Z would, or neither what it lowers to nor the character
is plain. -/
theorem lowerChar_cases (final : Bool) (c : Char) : lowerChar final c = [c.toLower] ∨
    (∃ d ∈ lowerChar final c, ¬ IsPlainSmall d) ∧ ¬ IsPlainSmall c.toLower := by
  by_cases hc : c.toNat < 128
  · left
    have hne : c ≠ 'İ' ∧ c ≠ 'Σ' := by
      constructor <;> rintro rfl <;> exact absurd hc (by decide)
    rw [lowerChar, if_neg hne.1, if_neg fun h => hne.2 h.1, lowerPoint_of_lt _ hc]
    simp
  · right
    have hself : c.toLower.toNat = c.toNat := by rw [toNat_toLower, if_neg (by omega)]
    refine ⟨?_, fun hplain => hc (hself ▸ hplain.1)⟩
    unfold lowerChar
    split
    · exact ⟨'\u0307', by simp, fun hplain => absurd hplain.1 (by decide)⟩
    split
    · exact ⟨'ς', by simp, fun hplain => absurd hplain.1 (by decide)⟩
    · refine ⟨_, List.mem_singleton_self _, fun hplain => ?_⟩
      rcases lowerPoint_of_le (Nat.le_of_not_lt hc) c.valid with hk | ⟨hle, hvalid⟩
      · exact hplain.2 (by rw [hk])
      · have hlt := hplain.1
        rw [Char.toNat_ofNat, if_pos hvalid] at hlt
        omega

theorem lowerAfter_cases (endsWord : Text → Text → Bool) (before t : Text) :
    Text.lowerAfter endsWord before t = t.map Char.toLower ∨
      (∃ d ∈ Text.lowerAfter endsWord before t, ¬ IsPlainSmall d) ∧
        ∃ d ∈ t.map Char.toLower, ¬ IsPlainSmall d := by
  induction t generalizing before with
  | nil => exact .inl rfl
  | cons c t ih =>
    rw [Text.lowerAfter, List.map_cons]
    rcases lowerChar_cases (endsWord before t) c with hc | ⟨⟨d, hd, hplain⟩, hc⟩
    · rw [hc, List.singleton_append]
      rcases ih (before ++ [c]) with ht | ⟨⟨d, hd, hplain⟩, d', hd', hplain'⟩
      · exact .inl (by rw [ht])
      · exact .inr ⟨⟨d, List.mem_cons_of_mem _ hd, hplain⟩,
          d', List.mem_cons_of_mem _ hd', hplain'⟩
    · exact .inr ⟨⟨d, List.mem_append_left _ hd, hplain⟩, _, List.mem_cons_self, hc⟩

/-- To be a text of plain characters in small letters, the letters A to Z are all that counts. -/
theorem Text.lower_eq_iff (endsWord : Text → Text → Bool) (t : Text) {w : Text}
    (hw : ∀ c ∈ w, IsPlainSmall c) : t.lower endsWord = w ↔ t.map Char.toLower = w := by
  rcases lowerAfter_cases endsWord [] t with h | ⟨⟨d, hd, hplain⟩, d', hd', hplain'⟩
  · rw [lower, h]
  · constructor
    · rintro rfl
      exact absurd (hw d hd) hplain
    · rintro rfl
      exact absurd (hw d' hd') hplain'

end Glossator
