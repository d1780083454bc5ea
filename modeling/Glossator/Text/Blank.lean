/-!
# Blank characters

The characters with the property `White_Space`. Trimming, splitting into words and the blank
class of the patterns all use this one set.
-/

set_option autoImplicit false

namespace Glossator

/-- The property `White_Space`: tab to carriage return, the space, next line, no-break space,
the Ogham and typographic spaces, the two separators and the ideographic space. -/
def isBlank (c : Char) : Bool :=
  let n := c.toNat
  (9 ≤ n && n ≤ 13) || n == 32 || n == 0x85 || n == 0xA0 || n == 0x1680 ||
    (0x2000 ≤ n && n ≤ 0x200A) || n == 0x2028 || n == 0x2029 || n == 0x202F || n == 0x205F ||
    n == 0x3000

/-- Every blank of the core library is a blank here. -/
theorem isBlank_of_isWhitespace {c : Char} (h : c.isWhitespace = true) : isBlank c = true := by
  simp only [Char.isWhitespace, Bool.or_eq_true, decide_eq_true_eq] at h
  rcases h with ((h | h) | h) | h <;> subst h <;> decide

end Glossator
