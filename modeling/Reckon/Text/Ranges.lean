/-! Sets of characters given as ascending ranges of code points, both ends included. -/

namespace Reckon.Text

abbrev Ranges := List (Nat × Nat)

namespace Ranges

def contains (ranges : Ranges) (char : Char) : Bool :=
  ranges.any fun (first, last) => first ≤ char.toNat && char.toNat ≤ last

end Ranges

end Reckon.Text
