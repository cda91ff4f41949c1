import Indentation.Layout.Graph
import Indentation.Token.Stream

/-! # Writes to a graph

What a construct asks for is a list of writes. A later write to a token replaces an earlier one. -/

namespace Indentation

inductive Write where
  /-- So many levels in from an anchor. -/
  | indent (token : Nat) (anchor : Option Nat) (levels : Nat)
  /-- Level with an anchor. -/
  | align (token anchor : Nat)
  /-- In a column of the page. -/
  | place (token column : Nat)
  /-- Wherever it is, if it comes first on its line. -/
  | exempt (token : Nat)
  /-- A parenthesis of a list of parameters or arguments. -/
  | bracket (token : Nat)
  /-- Move a span further in as one piece. -/
  | shift (span : Span) (levels : Nat)
  /-- Indent what two parentheses group. -/
  | enclose (left right : Nat)
deriving DecidableEq, Repr

namespace Graph

/-- A token is never its own anchor. -/
def align (g : Graph) (token anchor : Nat) : Graph :=
  if anchor = token then g else g.setEdge token ⟨some anchor, 0⟩

/-- Tokens on one line stand level, whatever the levels between them. -/
def indent (s : TokenStream) (unit : Nat) (g : Graph) (token : Nat) (anchor : Option Nat)
    (levels : Nat) : Graph :=
  match anchor with
  | none => g.setEdge token ⟨none, Width.ofLevels unit levels⟩
  | some a =>
    if s.sameStartLine token a then g.align token a
    else g.setEdge token ⟨some a, Width.ofLevels unit levels⟩

/-- A token anchored in the span moves with its anchor. -/
def shiftToken (unit levels : Nat) (span : Span) (g : Graph) (token : Nat) : Graph :=
  if (g.anchor? token).any span.contains then g
  else
    let edge := g.edge token
    g.setEdge token ⟨edge.anchor, Width.add edge.offset (Width.ofLevels unit levels)⟩

/-- A token anchored between the parentheses keeps its anchor. -/
def encloseToken (s : TokenStream) (unit left right : Nat) (g : Graph) (token : Nat) : Graph :=
  if (g.anchor? token).any fun a => left < a && a < right then g
  else g.indent s unit token (some left) 1

/-- The parentheses of parameters and arguments have indented their list already. -/
def enclose (s : TokenStream) (unit : Nat) (g : Graph) (left right : Nat) : Graph :=
  let inner :=
    if g.isBracket left || g.isBracket right then g
    else (Span.interior ⟨left, right⟩).foldl (encloseToken s unit left right) g
  inner.align right left

def write (s : TokenStream) (unit : Nat) (g : Graph) : Write → Graph
  | .indent token anchor levels => g.indent s unit token anchor levels
  | .align token anchor => g.align token anchor
  | .place token column => g.setEdge token ⟨none, column⟩
  | .exempt token => if s.leads token then g.exempt token else g
  | .bracket token => g.bracket token
  | .shift span levels => span.ids.foldl (shiftToken unit levels span) g
  | .enclose left right => g.enclose s unit left right

def writeAll (s : TokenStream) (unit : Nat) (g : Graph) (ws : List Write) : Graph :=
  ws.foldl (write s unit) g

end Graph

end Indentation
