/-!
# Blank characters and trimming

The class `isBlank` of the characters that are white space, and the text `trim s`, which is `s`
without the blanks at its two ends.
-/

namespace CanonicalLR.Text

/-- Whether `c` is white space: a tabulation, a line break, or a space of any width. -/
def isBlank (c : Char) : Bool :=
  let n := c.toNat
  (0x9 ≤ n && n ≤ 0xd) || n == 0x20 || n == 0x85 || n == 0xa0 || n == 0x1680 ||
    (0x2000 ≤ n && n ≤ 0x200a) || n == 0x2028 || n == 0x2029 || n == 0x202f || n == 0x205f ||
    n == 0x3000

/-- The characters `cs` without the blanks that it ends with. -/
def dropEndBlanks (cs : List Char) : List Char :=
  (cs.reverse.dropWhile isBlank).reverse

/-- The characters `cs` without the blanks at its two ends. -/
def trimChars (cs : List Char) : List Char :=
  dropEndBlanks (cs.dropWhile isBlank)

/-- The text `s` without the blanks at its two ends. -/
def trim (s : String) : String :=
  String.ofList (trimChars s.toList)

end CanonicalLR.Text
