/-! # Doubles as exact numbers -/

namespace Indentation

/-- A finite double: `mantissa * 2 ^ exponent`, below zero if `negative`. Its mantissa has at most 53
binary digits and its exponent lies between -1074 and 971. -/
structure Binary64 where
  negative : Bool
  mantissa : Nat
  exponent : Int
deriving DecidableEq, Repr, Inhabited

namespace Binary64

/-- `2 ^ n` as a fraction. -/
def twoPow (n : Int) : Nat × Nat :=
  if 0 ≤ n then (Nat.pow 2 n.toNat, 1) else (1, Nat.pow 2 (-n).toNat)

/-- Round a quotient to the nearest whole number, a half to the even neighbour. -/
def roundDiv (num den : Nat) : Nat :=
  let quotient := num / den
  let twice := 2 * (num % den)
  if twice < den then quotient
  else if den < twice then quotient + 1
  else quotient + quotient % 2

/-- How often `2 ^ exponent` goes into a fraction, rounded. -/
def mantissaAt (num den : Nat) (exponent : Int) : Nat :=
  let (up, down) := twoPow exponent
  roundDiv (num * down) (den * up)

/-- The nearest double to a fraction, or none if it is too large for one. -/
def ofFraction (num den : Nat) : Option Binary64 :=
  if num = 0 then some ⟨false, 0, -1074⟩
  else
    let estimate : Int := (num.log2 : Int) - den.log2 - 53
    let (up, down) := twoPow estimate
    let full := if num * down / (den * up) < Nat.pow 2 53 then estimate else estimate + 1
    let exponent := max full (-1074)
    let mantissa := mantissaAt num den exponent
    let (mantissa, exponent) :=
      if mantissa = Nat.pow 2 53 then (Nat.pow 2 52, exponent + 1) else (mantissa, exponent)
    if exponent ≤ 971 then some ⟨false, mantissa, exponent⟩ else none

/-- The size of a double as a fraction. -/
def fraction (x : Binary64) : Nat × Nat :=
  let (up, down) := twoPow x.exponent
  (x.mantissa * up, down)

def ofNat (n : Nat) : Option Binary64 := ofFraction n 1

/-- The rounded product of the sizes of two doubles. -/
def mul (x y : Binary64) : Option Binary64 :=
  ofFraction (x.fraction.1 * y.fraction.1) (x.fraction.2 * y.fraction.2)

/-- The rounded quotient of the sizes of two doubles. -/
def div (x y : Binary64) : Option Binary64 :=
  ofFraction (x.fraction.1 * y.fraction.2) (x.fraction.2 * y.fraction.1)

def withSign (x : Binary64) (negative : Bool) : Binary64 := { x with negative }

end Binary64

end Indentation
