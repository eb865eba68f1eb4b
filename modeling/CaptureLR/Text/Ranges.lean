/-!
# Character classes given by ranges

A property of the Unicode standard is a list of ranges of code points.
-/

namespace CaptureLR

/-- Whether the code point of a character lies in one of the ranges, ends included. -/
def inRanges (ranges : List (Nat × Nat)) (c : Char) : Bool :=
  ranges.any (fun r => decide (r.1 ≤ c.toNat) && decide (c.toNat ≤ r.2))

end CaptureLR
