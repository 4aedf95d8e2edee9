/-!
# Blank characters

`isBlank` is the Unicode property `White_Space`: the characters that may stand between two
tokens of a statement.

* `isBlank_eq_false_of_isAlphanum` : letters and digits are not blank.
-/

namespace MatrixCalc

/-- The code points with the Unicode property `White_Space`, as closed ranges in ascending
order. -/
def blankRanges : List (Nat × Nat) :=
  [(0x9, 0xD), (0x20, 0x20), (0x85, 0x85), (0xA0, 0xA0), (0x1680, 0x1680), (0x2000, 0x200A),
   (0x2028, 0x2029), (0x202F, 0x202F), (0x205F, 0x205F), (0x3000, 0x3000)]

/-- The character separates tokens. -/
def isBlank (c : Char) : Bool :=
  blankRanges.any fun range => range.1 ≤ c.toNat && c.toNat ≤ range.2

/-- Twenty-five code points are blank. -/
example : (blankRanges.map fun range => range.2 + 1 - range.1).sum = 25 := by decide

theorem isBlank_eq_false_of_isAlphanum {c : Char} (h : c.isAlphanum = true) :
    isBlank c = false := by
  have key : ∀ n, 48 ≤ n → n ≤ 122 →
      (blankRanges.any fun range => range.1 ≤ n && n ≤ range.2) = false := by
    intro n low high
    simp [blankRanges]
    omega
  delta Char.isAlphanum Char.isAlpha Char.isUpper Char.isLower Char.isDigit at h
  apply key <;>
    simp [UInt32.le_iff_toNat_le] at h <;>
    simp only [Char.toNat] at * <;> omega

end MatrixCalc
