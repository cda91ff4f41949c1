import Indentation.Text.Range

/-! # Tokens -/

namespace Indentation

inductive TokenKind where
  | identifier
  | keyword
  | punctuator
  | string
  | numeric
  /-- A part of a template literal: from a backquote or a closing brace up to the next opening of a
  substitution or the closing backquote. -/
  | template
  | regularExpression
  | jsxText
  | lineComment
  | blockComment
deriving DecidableEq, Repr, Inhabited

namespace TokenKind

def isComment : TokenKind → Bool
  | .lineComment | .blockComment => true
  | _ => false

end TokenKind

/-- A token or comment, with the line it starts on and the line its end lies on, both counted from 1,
and the characters of its line that precede it. -/
structure Token where
  kind : TokenKind
  range : Range
  text : Text
  margin : Text
  startLine : Nat
  endLine : Nat
  column : Nat
deriving DecidableEq, Repr

instance : Inhabited Token := ⟨⟨.punctuator, .point 0, [], [], 1, 1, 0⟩⟩

namespace Token

def start (t : Token) : Nat := t.range.start
def stop (t : Token) : Nat := t.range.stop
def isComment (t : Token) : Bool := t.kind.isComment

/-- The margin is part of the text before the token. -/
def lineStart (t : Token) : Nat := t.start - Text.size t.margin

/-- What stands before the token on its line. -/
def marginRange (t : Token) : Range := ⟨t.lineStart, t.start, Nat.sub_le _ _⟩

end Token

/-- The tokens and comments from `first` to `last`. Tokens are known by their number in source
order. -/
structure Span where
  first : Nat
  last : Nat
deriving DecidableEq, Repr

namespace Span

def ids (s : Span) : List Nat := List.range' s.first (s.last + 1 - s.first)

/-- Everything between the two ends. -/
def interior (s : Span) : List Nat := s.ids.filter fun id => id ≠ s.first && id ≠ s.last

/-- Everything after the first. -/
def tail (s : Span) : List Nat := s.ids.drop 1

def contains (s : Span) (id : Nat) : Bool := s.first ≤ id && id ≤ s.last

def nth? (s : Span) (n : Nat) : Option Nat :=
  if s.first + n ≤ s.last then some (s.first + n) else none

end Span

end Indentation
