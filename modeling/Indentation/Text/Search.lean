/-! # Searching by halves -/

namespace Indentation.Search

/-- Halve the interval of `size` positions from `base` down to one position, keeping the upper half
whenever its first position is still below what is searched. -/
def narrow (below : Nat → Bool) (base size : Nat) : Nat :=
  if _h : size ≤ 1 then base
  else
    let half := size / 2
    narrow below (if below (base + half) then base + half else base) (size - half)
termination_by size
decreasing_by omega

/-- The number of leading positions that are below, if those that are below come first. -/
def partitionPoint (below : Nat → Bool) (size : Nat) : Nat :=
  if size = 0 then 0
  else
    let base := narrow below 0 size
    if below base then base + 1 else base

end Indentation.Search
