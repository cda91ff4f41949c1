import Indentation.Text.Blank
import Indentation.Token.Lexeme

/-! # The tokens of a text -/

namespace Indentation

/-- All tokens and comments of a text in source order, and for each line the first of them that
starts or ends on it. -/
structure TokenStream where
  source : Text
  tokens : Array Token
  leaders : Array (Option Nat)
deriving Repr

namespace TokenStream

/-- Let a token lead a line that has no leader yet. -/
def lead (leaders : Array (Option Nat)) (id : Nat) (line : Nat) : Array (Option Nat) :=
  if leaders.getD line (some id) = none then leaders.setIfInBounds line (some id) else leaders

def leadersOf (lineCount : Nat) (tokens : List Token) : Array (Option Nat) :=
  tokens.zipIdx.foldl (fun leaders (t, id) => lead (lead leaders id t.startLine) id t.endLine)
    (Array.replicate (lineCount + 2) none)

/-- The tokens of a tree of the text. Lexemes without a character are left out. -/
def ofTree (source : Text) (tree : Node) : Except Fault TokenStream := do
  let lines := Lines.of source
  let lexemes := tree.lexemes.filter fun x => x.start ≠ x.stop
  let ordered := lexemes.mergeSort fun x y => x.start ≤ y.start
  let tokens ← ordered.mapM (Lexeme.cut source lines)
  return ⟨source, tokens.toArray, leadersOf lines.count tokens⟩

def size (s : TokenStream) : Nat := s.tokens.size

def token (s : TokenStream) (id : Nat) : Token := s.tokens.getD id default

def ids (s : TokenStream) : List Nat := List.range s.size

def isComment (s : TokenStream) (id : Nat) : Bool := (s.token id).isComment

def codeIds (s : TokenStream) : List Nat := s.ids.filter fun id => !s.isComment id

def commentIds (s : TokenStream) : List Nat := s.ids.filter s.isComment

def isPunctuator (s : TokenStream) (id : Nat) (text : Text) : Bool :=
  (s.token id).kind == .punctuator && (s.token id).text == text

/-- The token that starts at an offset. -/
def startingAt? (s : TokenStream) (offset : Nat) : Option Nat :=
  if s.size = 0 then none
  else
    let id := Search.narrow (fun i => (s.token i).start ≤ offset) 0 s.size
    if (s.token id).start = offset then some id else none

/-- The closest token from `id` on that is no comment, as long as none ends behind `limit`. -/
def codeFrom? (s : TokenStream) (limit : Nat) (id : Nat) : Option Nat :=
  if id < s.size then
    if limit < (s.token id).stop then none
    else if s.isComment id then codeFrom? s limit (id + 1)
    else some id
  else none
termination_by s.size - id
decreasing_by omega

/-- The closest token before `id` that is no comment, as long as none starts before `limit`. -/
def codeBefore? (s : TokenStream) (limit : Nat) : Nat → Option Nat
  | 0 => none
  | id + 1 =>
    if (s.token id).start < limit then none
    else if s.isComment id then codeBefore? s limit id
    else some id

/-- The first token of a range that is no comment. -/
def firstCodeIn? (s : TokenStream) (range : Range) : Option Nat :=
  s.codeFrom? range.stop (Search.partitionPoint (fun i => (s.token i).start < range.start) s.size)

/-- The last token of a range that is no comment. -/
def lastCodeIn? (s : TokenStream) (range : Range) : Option Nat :=
  s.codeBefore? range.start (Search.partitionPoint (fun i => (s.token i).stop ≤ range.stop) s.size)

/-- From the first to the last token of a range that are no comments. -/
def spanOf? (s : TokenStream) (range : Range) : Option Span := do
  let first ← s.firstCodeIn? range
  let last ← s.lastCodeIn? range
  if first ≤ last then some ⟨first, last⟩ else none

/-- The closest token before another that is no comment. -/
def prevCode? (s : TokenStream) : Nat → Option Nat
  | 0 => none
  | id + 1 => if s.isComment id then prevCode? s id else some id

def nextCodeFrom? (s : TokenStream) (id : Nat) : Option Nat :=
  if id < s.size then
    if s.isComment id then nextCodeFrom? s (id + 1) else some id
  else none
termination_by s.size - id
decreasing_by omega

/-- The closest token after another that is no comment. -/
def nextCode? (s : TokenStream) (id : Nat) : Option Nat := s.nextCodeFrom? (id + 1)

/-- The first token that is no comment. -/
def firstCode? (s : TokenStream) : Option Nat := s.nextCodeFrom? 0

/-- The tokens strictly between two others, without comments. -/
def codeBetween (s : TokenStream) (after before : Nat) : List Nat :=
  (List.range' (after + 1) (before - (after + 1))).filter fun id => !s.isComment id

/-- The first token or comment that starts or ends on a line. -/
def leader? (s : TokenStream) (line : Nat) : Option Nat := s.leaders.getD line none

/-- The first token or comment of the line on which a token starts. -/
def leaderOf (s : TokenStream) (id : Nat) : Nat :=
  (s.leader? (s.token id).startLine).getD id

/-- Whether a token comes first on its line. -/
def leads (s : TokenStream) (id : Nat) : Bool :=
  s.leader? (s.token id).startLine == some id

/-- Whether only white space precedes a token on its line. -/
def hasBlankMargin (s : TokenStream) (id : Nat) : Bool :=
  (s.token id).margin.all isBlank

def sameStartLine (s : TokenStream) (a b : Nat) : Bool :=
  (s.token a).startLine == (s.token b).startLine

end TokenStream

end Indentation
