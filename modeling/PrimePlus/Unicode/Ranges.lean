/-!
Sets of code points written as lists of closed intervals.
-/

namespace PrimePlus.Unicode

abbrev Ranges := List (Nat × Nat)

/-- The intervals given by the number of code points left out before each and the number of its
further ones, counted from a code point on. -/
def spaced : Nat → List Nat → Ranges
  | next, gap :: more :: rest =>
    (next + gap, next + gap + more) :: spaced (next + gap + more + 1) rest
  | _, _ => []

def Ranges.holds (ranges : Ranges) (point : Nat) : Bool :=
  ranges.any fun range => range.1 ≤ point && point ≤ range.2

end PrimePlus.Unicode
