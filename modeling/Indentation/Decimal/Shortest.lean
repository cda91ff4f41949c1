import Indentation.Decimal.Binary64

/-! # The shortest decimal that reads back -/

namespace Indentation

/-- `digits * 10 ^ exponent`. -/
structure Decimal where
  digits : Nat
  exponent : Int
deriving DecidableEq, Repr

namespace Binary64

/-- Four times the size of a double and of the ends of the interval that rounds to it, over one
denominator. -/
def interval (x : Binary64) : Nat × Nat × Nat × Nat :=
  let (up, down) := twoPow x.exponent
  let value := 4 * x.mantissa * up
  let below := if x.mantissa = Nat.pow 2 52 ∧ -1074 < x.exponent then up else 2 * up
  (value - below, value, value + 2 * up, 4 * down)

/-- The point of the grid of whole multiples of `10 ^ exponent` that is nearest to a double, if one
of its two neighbours there rounds to it. The ends of the interval do so iff the mantissa is even. -/
def onGrid (x : Binary64) (exponent : Int) : Option Decimal :=
  let (low, value, high, den) := x.interval
  let shrink := if exponent < 0 then Nat.pow 10 (-exponent).toNat else 1
  let unit := if exponent < 0 then den else den * Nat.pow 10 exponent.toNat
  let inside (digits : Nat) : Bool :=
    if x.mantissa % 2 = 0 then low * shrink ≤ digits * unit && digits * unit ≤ high * shrink
    else low * shrink < digits * unit && digits * unit < high * shrink
  let floor := value * shrink / unit
  let gap := value * shrink - floor * unit
  let upper := unit - gap
  match inside floor, inside (floor + 1) with
  | true, true =>
    if gap < upper || (gap == upper && floor % 2 == 0) then some ⟨floor, exponent⟩
    else some ⟨floor + 1, exponent⟩
  | true, false => some ⟨floor, exponent⟩
  | false, true => some ⟨floor + 1, exponent⟩
  | false, false => none

/-- The first hit on grids that get finer by tens, which has the fewest digits. -/
def shortestFrom (x : Binary64) : Nat → Int → Decimal
  | 0, exponent => ⟨x.mantissa, exponent⟩
  | fuel + 1, exponent =>
    match x.onGrid exponent with
    | some decimal => decimal
    | none => shortestFrom x fuel (exponent - 1)

/-- The shortest decimal that reads back as a double, the nearest one of those. No double is below
`10 ^ -324` or above `10 ^ 309`. -/
def shortest (x : Binary64) : Decimal :=
  if x.mantissa = 0 then ⟨0, 0⟩ else shortestFrom x 660 309

end Binary64

namespace Decimal

/-- The exponent of the first digit. -/
def magnitude (d : Decimal) : Int := (Nat.toDigits 10 d.digits).length - 1 + d.exponent

/-- All places written out, with at least one behind the point. -/
def plain (d : Decimal) : String :=
  let digits := Nat.toDigits 10 d.digits
  if 0 ≤ d.exponent then
    String.ofList (digits ++ List.replicate d.exponent.toNat '0' ++ ['.', '0'])
  else
    let places := (-d.exponent).toNat
    if places < digits.length then
      let whole := digits.length - places
      String.ofList (digits.take whole ++ ['.'] ++ digits.drop whole)
    else String.ofList (['0', '.'] ++ List.replicate (places - digits.length) '0' ++ digits)

/-- One digit before the point, then the power of ten with its sign. -/
def scientific (d : Decimal) : String :=
  let digits := Nat.toDigits 10 d.digits
  let fraction := if digits.length ≤ 1 then [] else '.' :: digits.drop 1
  let sign := if d.magnitude < 0 then '-' else '+'
  String.ofList (digits.take 1 ++ fraction ++ ['e', sign] ++ Nat.toDigits 10 d.magnitude.natAbs)

end Decimal

namespace Binary64

def signText (x : Binary64) : String := if x.negative then "-" else ""

/-- Places are written out when the first digit stands between `10 ^ -5` and `10 ^ 15`. -/
def text (x : Binary64) : String :=
  let decimal := x.shortest
  if -5 ≤ decimal.magnitude ∧ decimal.magnitude ≤ 15 then x.signText ++ decimal.plain
  else x.signText ++ decimal.scientific

end Binary64

end Indentation
