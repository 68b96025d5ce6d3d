/-!
# Ranges of code points

A property of characters is kept as a list of closed ranges of code points.
-/

namespace Shorthand.Text

/-- Is the code point of the character in one of the ranges? -/
def inRanges (ranges : List (Nat × Nat)) (c : Char) : Bool :=
  ranges.any fun range => range.1 ≤ c.toNat && c.toNat ≤ range.2

end Shorthand.Text
