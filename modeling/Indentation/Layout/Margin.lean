import Indentation.Options.Basic
import Indentation.Text.Basic

/-! # The margin of a line -/

namespace Indentation

/-- The spaces and tabs that a line begins with. -/
structure Margin where
  spaces : Nat
  tabs : Nat
deriving DecidableEq, Repr

namespace Margin

def measure (line : Text) : Margin :=
  let lead := line.takeWhile fun c => c = ' ' || c = '\t'
  ⟨lead.count ' ', lead.count '\t'⟩

/-- Characters of the wanted kind. -/
def good (m : Margin) : IndentChar → Nat
  | .space => m.spaces
  | .tab => m.tabs

/-- Characters of the other kind. -/
def bad (m : Margin) : IndentChar → Nat
  | .space => m.tabs
  | .tab => m.spaces

def isMixed (m : Margin) : Bool := m.spaces > 0 && m.tabs > 0

/-- A mixed margin is left to the author. -/
def fits (m : Margin) (c : IndentChar) (expected : Nat) : Bool :=
  m.isMixed || (m.good c == expected && m.bad c == 0)

def plural (word : String) (count : Nat) : String :=
  if count = 1 then word else word ++ "s"

/-- How much was found. The character is only said if it is not the wanted one. -/
def found (m : Margin) (c : IndentChar) : String :=
  let counted (count : Nat) (kind : IndentChar) : String :=
    if kind = c then toString count else toString count ++ " " ++ plural kind.name count
  if m.spaces > 0 then counted m.spaces .space
  else if m.tabs > 0 then counted m.tabs .tab
  else "0"

end Margin

end Indentation
