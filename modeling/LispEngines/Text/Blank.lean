/-!
# Blank characters

The characters with the Unicode property `White_Space`.
-/

namespace LispEngines.Text

/-- Whether a character is white space in the sense of Unicode. -/
def isBlank (c : Char) : Bool :=
  let n := c.toNat
  (9 ≤ n && n ≤ 13) || n = 0x20 || n = 0x85 || n = 0xa0 || n = 0x1680 ||
  (0x2000 ≤ n && n ≤ 0x200a) || n = 0x2028 || n = 0x2029 || n = 0x202f ||
  n = 0x205f || n = 0x3000

/-- A text without the blanks at its two ends. -/
def trimmed (s : String) : String :=
  String.ofList ((s.toList.dropWhile isBlank).reverse.dropWhile isBlank).reverse

end LispEngines.Text
