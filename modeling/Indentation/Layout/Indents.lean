import Indentation.Layout.Margin
import Indentation.Layout.Write

/-! # From a graph to indentation

A token without an anchor stands at its offset. Any other stands its offset in from where its anchor
stands. A token that may stand where it is keeps its own margin. -/

namespace Indentation

inductive Unresolved where
  /-- Following anchors leads back to a token on the way. -/
  | cycle (token anchor : Nat)
  | unreached (token : Nat)
deriving DecidableEq, Repr

namespace Unresolved

def message : Unresolved → String
  | .cycle token anchor =>
    s!"offset cycle: token {token} is anchored to token {anchor}, which depends on it"
  | .unreached token => s!"token {token} was never resolved"

end Unresolved

/-- How far the search for the width of a token has come. -/
inductive Slot where
  | unvisited
  /-- The token waits for the width of its anchor. -/
  | inProgress
  | done (width : Nat)
deriving DecidableEq, Repr

abbrev Slots := Array Slot

namespace Slots

def slot (slots : Slots) (token : Nat) : Slot := slots.getD token .unvisited

def put (slots : Slots) (token : Nat) (slot : Slot) : Slots := slots.setIfInBounds token slot

def width (slots : Slots) (token : Nat) : Except Unresolved Nat :=
  match slots.slot token with
  | .done width => .ok width
  | _ => .error (.unreached token)

end Slots

namespace TokenStream

def marginOf (s : TokenStream) (token : Nat) : Margin := .measure (s.token token).margin

end TokenStream

namespace Graph

/-- Look at the last token of a chain, before which others wait for it. It gets its width if that is
known by now, and leaves the chain. Otherwise it waits for its anchor, which comes last from then on. -/
def climbStep (s : TokenStream) (c : IndentChar) (g : Graph) (slots : Slots) (token : Nat)
    (waiting : List Nat) : Except Unresolved (Slots × List Nat) :=
  match slots.slot token with
  | .done _ => .ok (slots, waiting)
  | _ =>
    if g.isExempt token then .ok (slots.put token (.done ((s.marginOf token).good c)), waiting)
    else
      let edge := g.edge token
      match edge.anchor with
      | none => .ok (slots.put token (.done edge.offset), waiting)
      | some anchor =>
        match slots.slot anchor with
        | .done base => .ok (slots.put token (.done (Width.add base edge.offset)), waiting)
        | .inProgress => .error (.cycle token anchor)
        | .unvisited => .ok (slots.put token .inProgress, anchor :: token :: waiting)

/-- Look at the last token of a chain until none is left. -/
def climb (s : TokenStream) (c : IndentChar) (g : Graph) : Nat → Slots → List Nat →
    Except Unresolved Slots
  | _, slots, [] => .ok slots
  | 0, _, token :: _ => .error (.unreached token)
  | fuel + 1, slots, token :: waiting => do
    let (slots, chain) ← climbStep s c g slots token waiting
    climb s c g fuel slots chain

/-- Start from a token. Each token comes into the chain once and leaves it once, so that many looks
are enough. -/
def climbFrom (s : TokenStream) (c : IndentChar) (g : Graph) (slots : Slots) (start : Nat) :
    Except Unresolved Slots :=
  match slots.slot start with
  | .done _ => .ok slots
  | _ => climb s c g (2 * slots.size + 1) slots [start]

/-- The width of each token, found from the tokens of a list one after the other. -/
def resolveFrom (s : TokenStream) (c : IndentChar) (g : Graph) (starts : List Nat) :
    Except Unresolved (Array Nat) := do
  let slots ← starts.foldlM (climbFrom s c g) (Array.replicate s.size .unvisited)
  let widths ← s.ids.mapM slots.width
  return widths.toArray

/-- The width of each token. -/
def resolve (s : TokenStream) (c : IndentChar) (g : Graph) : Except Unresolved (Array Nat) :=
  g.resolveFrom s c s.ids

end Graph

end Indentation
