import Indentation.Text.Search

/-! # Sets of characters given by ranges -/

namespace Indentation.CharRanges

/-- Whether a code point lies in one of the ranges, which are in ascending order and have both ends
in them. -/
def holds (ranges : Array (Nat × Nat)) (code : Nat) : Bool :=
  let row := Search.partitionPoint (fun i => (ranges.getD i (0, 0)).1 ≤ code) ranges.size
  0 < row && code ≤ (ranges.getD (row - 1) (0, 0)).2

end Indentation.CharRanges
