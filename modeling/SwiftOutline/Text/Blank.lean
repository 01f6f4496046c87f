/-
  SwiftOutline.Text.Blank

  Characters with the Unicode property `White_Space`, and texts without them at
  either end.
-/

namespace SwiftOutline

namespace Text

/-- Characters with the Unicode property `White_Space`. -/
def isBlank (c : Char) : Bool :=
  let n := c.toNat
  (0x09 ≤ n && n ≤ 0x0D) || n == 0x20 || n == 0x85 || n == 0xA0 || n == 0x1680
    || (0x2000 ≤ n && n ≤ 0x200A) || n == 0x2028 || n == 0x2029 || n == 0x202F || n == 0x205F
    || n == 0x3000

/-- A character sequence without blanks at its ends. -/
def trimChars (cs : List Char) : List Char :=
  ((cs.dropWhile isBlank).reverse.dropWhile isBlank).reverse

/-- A text without blanks at its ends. -/
def trim (s : String) : String :=
  String.ofList (trimChars s.toList)

end Text

end SwiftOutline
