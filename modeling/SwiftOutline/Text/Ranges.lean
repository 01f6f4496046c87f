/-
  SwiftOutline.Text.Ranges

  Sets of characters, given by ranges of their numbers.
-/

namespace SwiftOutline

namespace Text

/-- Whether the number of a character lies in one of some ranges, ends included. -/
def inRanges (ranges : List (Nat × Nat)) (c : Char) : Bool :=
  ranges.any fun r => r.1 ≤ c.toNat && c.toNat ≤ r.2

end Text

end SwiftOutline
