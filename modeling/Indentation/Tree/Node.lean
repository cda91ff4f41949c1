import Indentation.Text.Range

/-! # Concrete trees -/

namespace Indentation

/-- What a node says of itself. -/
structure Label where
  kind : String
  range : Range
  /-- Named by a rule of the grammar, not only by its text. -/
  named : Bool
  /-- Allowed anywhere by the grammar, as comments are. -/
  extra : Bool
  /-- Put in to mend a broken text. -/
  missing : Bool
  /-- Around a part that could not be read. -/
  broken : Bool
  /-- Missing or broken itself or somewhere below. -/
  tainted : Bool
  /-- The part it plays in its parent. -/
  field : Option String
deriving DecidableEq, Repr

/-- A concrete tree: every character that is not a blank is in one of its leaves. -/
inductive Node where
  | mk (label : Label) (children : List Node)
deriving Repr

namespace Node

def label : Node → Label
  | .mk label _ => label

def children : Node → List Node
  | .mk _ children => children

def kind (n : Node) : String := n.label.kind
def range (n : Node) : Range := n.label.range
def named (n : Node) : Bool := n.label.named
def extra (n : Node) : Bool := n.label.extra

/-- A missing or broken node is where a text went wrong. -/
def isFlaw (n : Node) : Bool := n.label.broken || n.label.missing

def tainted (n : Node) : Bool := n.label.tainted

mutual

/-- Nodes of a tree. -/
def size : Node → Nat
  | .mk _ children => sizeAll children + 1

def sizeAll : List Node → Nat
  | [] => 0
  | n :: rest => size n + sizeAll rest

end

end Node

end Indentation
