import Indentation.Text.Basic

/-! # Ranges of a text -/

namespace Indentation

/-- The bytes from `start` up to `stop`, which is not included. -/
structure Range where
  start : Nat
  stop : Nat
  start_le_stop : start ≤ stop
deriving DecidableEq, Repr

namespace Range

def of (start stop : Nat) : Except Fault Range :=
  if h : start ≤ stop then .ok ⟨start, stop, h⟩ else .error (.backward start stop)

/-- The empty range at an offset. -/
def point (offset : Nat) : Range := ⟨offset, offset, Nat.le_refl offset⟩

/-- The range of a given length, as long as its end is an offset. -/
def sized (offset length : Nat) : Except Fault Range := do
  of offset (← Offset.add offset length)

def length (r : Range) : Nat := r.stop - r.start

def isEmpty (r : Range) : Bool := r.start == r.stop

def contains (r : Range) (offset : Nat) : Bool :=
  r.start ≤ offset && offset < r.stop

/-- The common part. Ranges that only touch have an empty one. -/
def intersect? (r s : Range) : Option Range :=
  if h : max r.start s.start ≤ min r.stop s.stop then some ⟨_, _, h⟩ else none

/-- The smallest range around both. -/
def cover (r s : Range) : Range :=
  ⟨min r.start s.start, max r.stop s.stop, by
    have := r.start_le_stop
    omega⟩

/-- A range reads as its two ends. -/
def text (r : Range) : String := s!"{r.start}..{r.stop}"

end Range

namespace Text

/-- The part of a text in a range. -/
def slice (text : Text) (r : Range) : Except Fault Text := do
  let (before, _) ← split text r.stop
  let (_, part) ← split before r.start
  return part

end Text

end Indentation
