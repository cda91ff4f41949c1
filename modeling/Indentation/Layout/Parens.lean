import Indentation.Layout.Write

/-! # Pairs of parentheses -/

namespace Indentation

namespace Parens

/-- The open parentheses, innermost first, and the pairs found so far, last first. -/
structure Scan where
  opened : List Nat
  pairs : List (Nat × Nat)
deriving DecidableEq, Repr

def step (s : TokenStream) (scan : Scan) (token : Nat) : Scan :=
  if s.isPunctuator token ['('] then { scan with opened := token :: scan.opened }
  else if s.isPunctuator token [')'] then
    match scan.opened with
    | [] => scan
    | left :: opened => ⟨opened, (left, token) :: scan.pairs⟩
  else scan

/-- All pairs of a text, the one that closes last first. A pair comes before those inside it. -/
def pairs (s : TokenStream) : List (Nat × Nat) := (s.ids.foldl (step s) ⟨[], []⟩).pairs

def writes (s : TokenStream) : List Write :=
  (pairs s).map fun (left, right) => .enclose left right

end Parens

end Indentation
