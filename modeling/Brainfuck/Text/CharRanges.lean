/-!
# Character ranges

Sets of characters given as ranges of code points.
-/

namespace Brainfuck.Text

/-- Ranges of code points, each with its first and its last one. -/
abbrev CharRanges := Array (Nat × Nat)

def CharRanges.has (ranges : CharRanges) (c : Char) : Bool :=
  ranges.any fun (first, last) => first ≤ c.toNat && c.toNat ≤ last

end Brainfuck.Text
