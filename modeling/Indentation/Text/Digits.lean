import Indentation.Text.Basic

/-! # Digits -/

namespace Indentation.Digit

def decimal? (c : Char) : Option Nat :=
  if c.isDigit then some (c.toNat - '0'.toNat) else none

def hex? (c : Char) : Option Nat :=
  if c.isDigit then some (c.toNat - '0'.toNat)
  else if 'a' ≤ c ∧ c ≤ 'f' then some (c.toNat - 'a'.toNat + 10)
  else if 'A' ≤ c ∧ c ≤ 'F' then some (c.toNat - 'A'.toNat + 10)
  else none

/-- Exactly so many hexadecimal digits, read onto a number. -/
def hexRun? (value : Nat) : Nat → Text → Option (Nat × Text)
  | 0, text => some (value, text)
  | _ + 1, [] => none
  | count + 1, c :: rest => do hexRun? (value * 16 + (← hex? c)) count rest

/-- The number that decimal digits write. -/
def value (digits : Text) : Nat :=
  digits.foldl (fun n c => n * 10 + (decimal? c).getD 0) 0

end Indentation.Digit
