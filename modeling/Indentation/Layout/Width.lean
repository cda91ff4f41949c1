import Indentation.Options.Basic

/-! # Widths

Widths count indentation characters. One that would pass the limit stays at it. -/

namespace Indentation.Width

/-- Characters of so many levels. -/
def ofLevels (unit levels : Nat) : Nat := min (levels * unit) widthLimit

def add (a b : Nat) : Nat := min (a + b) widthLimit

end Indentation.Width
