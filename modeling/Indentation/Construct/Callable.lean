import Indentation.Construct.Sequence

/-! # Parameters and arguments -/

namespace Indentation.Callable

def parameters (c : Cursor) : List Cursor :=
  match c.fieldChild? "parameters" with
  | some list => list.properChildren
  | none => (c.fieldChild? "parameter").toList

/-- From the token before the first parameter to the token before the body, but not from before the
function itself. -/
def parameterSpan? (s : TokenStream) (c : Cursor) : Option Span := do
  let body ← c.fieldChild? "body"
  let bodyStart ← s.firstOf? body.bare
  let opening ←
    match (parameters c).head? with
    | some parameter => do s.prevCode? (← s.firstOf? parameter)
    | none => do s.prevCode? (← s.prevCode? bodyStart)
  let closing ← s.prevCode? bodyStart
  let head ← s.headOf? c
  if max opening head ≤ closing then some ⟨max opening head, closing⟩ else none

def exemptStarts (s : TokenStream) (nodes : List Cursor) : List Write :=
  nodes.filterMap fun node => (s.firstOf? node).map .exempt

/-- The parameters of a function. Without an offset each may stand where it is. -/
def parameterWrites (s : TokenStream) (offset : Option ListOffset) (c : Cursor) : List Write :=
  match parameterSpan? s c with
  | none => []
  | some span =>
    let listed :=
      Sequence.writes s span ((parameters c).map some) (offset.getD (.levels 0))
    let exempted := if offset.isNone then exemptStarts s (parameters c) else []
    .bracket span.first :: .bracket span.last :: (listed ++ exempted)

/-- A body that is an expression stands one level in from the start of the function. -/
def expressionBody (s : TokenStream) (c : Cursor) : List Write :=
  let result : Option (List Write) := do
    let body ← c.fieldChild? "body"
    if body.kind = "statement_block" then none
    else
      let span ← s.spanOfNode? body.bare
      let first ← s.firstOf? c
      return Write.indentAll span.ids (some first) 1
  result.getD []

def arrowWrites (s : TokenStream) (offset : Option ListOffset) (c : Cursor) : List Write :=
  parameterWrites s offset c ++ expressionBody s c

/-- The opening parenthesis stands level with the end of what is called. -/
def openingWrite (s : TokenStream) (calleeField : String) (opening : Nat) (c : Cursor) : List Write :=
  let last := (c.fieldChild? calleeField).bind fun callee => s.lastOf? callee.bare
  (last.map fun last => Write.align opening last).toList

/-- The arguments of a call. Without an offset each may stand where it is. -/
def argumentWrites (s : TokenStream) (offset : Option ListOffset) (calleeField : String)
    (c : Cursor) : List Write :=
  let result : Option (List Write) := do
    let arguments ← c.fieldChild? "arguments"
    if arguments.kind ≠ "arguments" then none
    else
      let opening ← s.firstOf? arguments
      let last ← s.lastOf? c
      let listed := Sequence.writes s ⟨opening, last⟩ (arguments.properChildren.map some)
        (offset.getD (.levels 1))
      let exempted :=
        if offset.isNone then exemptStarts s (arguments.properChildren.map Cursor.bare) else []
      return .bracket opening :: .bracket last ::
        (openingWrite s calleeField opening c ++ listed ++ exempted)
  result.getD []

end Indentation.Callable
