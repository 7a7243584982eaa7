/-! # Ranges of characters

A property of characters is given by the ranges of code points that have it, both ends included.
-/

namespace TwoLane.Text

/-- Whether a character lies in one of several ranges. -/
def inRanges (ranges : List (Nat × Nat)) (c : Char) : Bool :=
  ranges.any (fun range => range.1 ≤ c.toNat && c.toNat ≤ range.2)

end TwoLane.Text
