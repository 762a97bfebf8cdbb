/-!
# Ranges of code points

A property of characters is given as a list of ranges of code points, in ascending order and apart
from each other. The tables of the library follow version 17.0 of the Unicode standard.
-/

set_option autoImplicit false

namespace StrongComponents.Text

/-- Whether a character lies in one of the ranges, each given by its first and last code point. -/
def inRanges (ranges : List (Nat × Nat)) (c : Char) : Bool :=
  ranges.any fun (first, last) => first ≤ c.toNat && c.toNat ≤ last

end StrongComponents.Text
