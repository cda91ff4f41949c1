import Indentation.Layout.Width

/-! # What each token is measured from -/

namespace Indentation

/-- A token stands `offset` characters in from its anchor, or from the margin of the page if it has
none. -/
structure Edge where
  anchor : Option Nat
  offset : Nat
deriving DecidableEq, Repr, Inhabited

namespace Edge

def margin : Edge := ⟨none, 0⟩

end Edge

/-- The edges of all tokens, the tokens that may stand where they are, and the parentheses that
belong to a list of parameters or arguments. -/
structure Graph where
  edges : Array Edge
  exempted : Array Bool
  brackets : Array Bool
deriving DecidableEq, Repr

namespace Graph

/-- Every token at the margin of the page. -/
def blank (size : Nat) : Graph :=
  ⟨Array.replicate size .margin, Array.replicate size false, Array.replicate size false⟩

def size (g : Graph) : Nat := g.edges.size

def edge (g : Graph) (token : Nat) : Edge := g.edges.getD token .margin

def anchor? (g : Graph) (token : Nat) : Option Nat := (g.edge token).anchor

def isExempt (g : Graph) (token : Nat) : Bool := g.exempted.getD token false

def isBracket (g : Graph) (token : Nat) : Bool := g.brackets.getD token false

def setEdge (g : Graph) (token : Nat) (edge : Edge) : Graph :=
  { g with edges := g.edges.setIfInBounds token edge }

def exempt (g : Graph) (token : Nat) : Graph :=
  { g with exempted := g.exempted.setIfInBounds token true }

def bracket (g : Graph) (token : Nat) : Graph :=
  { g with brackets := g.brackets.setIfInBounds token true }

end Graph

end Indentation
