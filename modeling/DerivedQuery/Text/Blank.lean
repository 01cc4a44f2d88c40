/-!
# Blank characters

The characters with the Unicode property `White_Space`, and removal of such
characters from both ends of a text.
-/

namespace DerivedQuery
namespace Text

/-- Whether a character has the property `White_Space`. -/
def isBlank (char : Char) : Bool :=
  let point := char.toNat
  (0x0009 ≤ point && point ≤ 0x000D) || point == 0x0020 || point == 0x0085 ||
    point == 0x00A0 || point == 0x1680 || (0x2000 ≤ point && point ≤ 0x200A) ||
    point == 0x2028 || point == 0x2029 || point == 0x202F || point == 0x205F ||
    point == 0x3000

/-- A text without the blanks at its two ends. -/
def trim (text : List Char) : List Char :=
  ((text.dropWhile isBlank).reverse.dropWhile isBlank).reverse

/-- Trimming never lengthens a text. -/
theorem length_trim_le (text : List Char) : (trim text).length ≤ text.length := by
  unfold trim
  rw [List.length_reverse]
  refine Nat.le_trans (List.dropWhile_suffix _).length_le ?_
  rw [List.length_reverse]
  exact (List.dropWhile_suffix _).length_le

end Text
end DerivedQuery
