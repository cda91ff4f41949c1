import Indentation.Layout.Indents

/-! # Lines that are not where they should be -/

namespace Indentation

/-- A token that leads its line, where it should stand, and the margin that was found. -/
structure Mismatch where
  token : Nat
  expected : Nat
  found : Margin
deriving DecidableEq, Repr

namespace Mismatch

def message (c : IndentChar) (m : Mismatch) : String :=
  "Expected indentation of " ++ toString m.expected ++ " " ++ Margin.plural c.name m.expected ++
    " but found " ++ m.found.found c ++ "."

/-- Whether a token stands where another should stand. -/
def fits (s : TokenStream) (c : IndentChar) (widths : Array Nat) (token other : Nat) : Bool :=
  (s.marginOf token).fits c (widths.getD other 0)

def of (s : TokenStream) (widths : Array Nat) (token : Nat) : Mismatch :=
  ⟨token, widths.getD token 0, s.marginOf token⟩

def isMisplaced (s : TokenStream) (c : IndentChar) (g : Graph) (widths : Array Nat) (token : Nat) :
    Bool :=
  s.leads token && !g.isExempt token && !fits s c widths token token

/-- The line of the closest token before a comment. -/
def lineBefore? (s : TokenStream) (comment : Nat) : Option Nat :=
  (s.prevCode? comment).map s.leaderOf

/-- The line of the closest token after a comment. -/
def lineAfter? (s : TokenStream) (comment : Nat) : Option Nat :=
  let next :=
    match s.prevCode? comment with
    | some previous => s.nextCode? previous
    | none => s.firstCode?
  next.map s.leaderOf

/-- A comment may also stand as the line before it or the line after it should. -/
def isStray (s : TokenStream) (c : IndentChar) (g : Graph) (widths : Array Nat) (comment : Nat) :
    Bool :=
  s.hasBlankMargin comment && !g.isExempt comment &&
    !(lineBefore? s comment).any (fits s c widths comment) &&
    !(lineAfter? s comment).any (fits s c widths comment) &&
    !fits s c widths comment comment

/-- All mismatches in the order of their tokens. -/
def all (s : TokenStream) (c : IndentChar) (g : Graph) (widths : Array Nat) : List Mismatch :=
  let code := s.codeIds.filter (isMisplaced s c g widths)
  let comments := s.commentIds.filter (isStray s c g widths)
  ((code ++ comments).mergeSort fun a b => a ≤ b).map (of s widths)

end Mismatch

end Indentation
