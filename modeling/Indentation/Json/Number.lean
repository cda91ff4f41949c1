import Indentation.Json.Basic

/-! # Numbers of JSON texts -/

namespace Indentation.Json

/-- The digits of a number as they are read: a significand of 64 bits, and the power of ten that the
digits left out of it and the digits behind the point make. -/
structure Digits where
  significand : Nat
  exponent : Int
  /-- A digit has been left out, and every later one is. -/
  full : Bool
deriving DecidableEq, Repr

namespace Digits

def limit : Nat := Nat.pow 2 64

def empty : Digits := ⟨0, 0, false⟩

/-- Read a digit before the point. -/
def whole (d : Digits) (digit : Nat) : Digits :=
  if d.full || limit ≤ d.significand * 10 + digit then ⟨d.significand, d.exponent + 1, true⟩
  else { d with significand := d.significand * 10 + digit }

/-- Read a digit behind the point. -/
def fraction (d : Digits) (digit : Nat) : Digits :=
  if d.full || limit ≤ d.significand * 10 + digit then { d with full := true }
  else { d with significand := d.significand * 10 + digit, exponent := d.exponent - 1 }

/-- The digits before the point are complete: behind it, digits fit or not on their own account. -/
def point (d : Digits) : Digits := { d with full := false }

end Digits

/-- The power of ten that doubles reach. -/
def powerLimit : Nat := 308

def power (n : Nat) : Option Binary64 := Binary64.ofNat (Nat.pow 10 n)

/-- Scale a double by a power of ten, in steps that doubles reach. -/
def scale (x : Binary64) (exponent : Int) : Nat → Option Binary64
  | 0 => some x
  | fuel + 1 =>
    if exponent.natAbs ≤ powerLimit then do
      let p ← power exponent.natAbs
      if 0 ≤ exponent then x.mul p else x.div p
    else if x.mantissa = 0 then some x
    else if 0 ≤ exponent then none
    else do
      let p ← power powerLimit
      scale (← x.div p) (exponent + powerLimit) fuel

/-- The value of a number that has a point or an exponent or too many digits: the rounded
significand times or over a rounded power of ten, rounded. None if it is too large. -/
def floatOf (negative : Bool) (digits : Digits) (exponent : Int) : Option Binary64 := do
  let significand ← Binary64.ofNat digits.significand
  let total := digits.exponent + exponent
  let x ← scale significand total 4
  return x.withSign negative

/-- The value of a number without point and exponent. A negative zero is no whole number. -/
def integerOf (negative : Bool) (digits : Digits) : Option Json :=
  if digits.full then (floatOf negative digits 0).map .float
  else if !negative then some (.int digits.significand)
  else if 0 < digits.significand ∧ digits.significand ≤ Nat.pow 2 63 then
    some (.int (-(digits.significand : Int)))
  else (floatOf true digits 0).map .float

end Indentation.Json
