import OklchGate.Text

/-!
# Ranges of characters

Classes of characters are given by the ranges of their code points, both ends
included.
-/

namespace OklchGate

/-- The code point of a character lies in one of some ranges. -/
def inRanges (ranges : List (Nat × Nat)) (c : Char) : Bool :=
  ranges.any fun (first, last) => first ≤ c.toNat && c.toNat ≤ last

end OklchGate
