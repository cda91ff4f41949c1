import Indentation.Construct.Sequence

/-! # Operators, member accesses, properties and templates -/

namespace Indentation.Operation

def operatorStart? (s : TokenStream) (c : Cursor) : Option Nat :=
  (c.fieldChild? "operator").bind s.startOf?

/-- What follows the operator stands one level in. The operator and the token after it may stand
where they are. -/
def binaryWrites (s : TokenStream) (c : Cursor) : List Write :=
  let result : Option (List Write) := do
    let operator ← operatorStart? s c
    let after ← s.nextCode? operator
    let first ← s.firstOf? c
    let last ← s.lastOf? c
    let rest :=
      if after < last then Write.indentAll (Span.tail ⟨after, last⟩) (some after) 1 else []
    return .exempt operator :: .exempt after :: .indent after (some first) 1 :: rest
  result.getD []

def assignStart? (s : TokenStream) (c : Cursor) : Option Nat :=
  ((c.fieldChild? "operator").or (c.tokenChild? "=")).bind s.startOf?

/-- From its operator on, an assignment stands one level in from its target. -/
def assignmentWrites (s : TokenStream) (c : Cursor) : List Write :=
  let result : Option (List Write) := do
    let left ← c.fieldChild? "left"
    let operator ← assignStart? s c
    let target ← s.firstOf? left.bare
    let last ← s.lastOf? c
    if last < operator then none
    else
      let span : Span := ⟨operator, last⟩
      return Write.indentAll span.ids (some target) 1 ++
        .exempt operator :: ((span.nth? 1).map .exempt).toList
  result.getD []

/-- All of a conditional stands one level in from its start. -/
def conditionalWrites (s : TokenStream) (c : Cursor) : List Write :=
  match s.spanOfNode? c with
  | none => []
  | some span => Write.indentAll span.tail (some span.first) 1

/-- The first token after an object that closes no parenthesis around it. -/
def accessStart? (s : TokenStream) (object property : Cursor) : Option Nat := do
  let objectLast ← s.lastOf? object
  let propertyFirst ← s.firstOf? property
  (s.codeBetween objectLast propertyFirst).find? fun token => !s.isPunctuator token [')']

/-- The two tokens that lead an access. Without levels they may stand where they are. -/
def leadWrites (s : TokenStream) (levels : Option Nat) (objectFirst token : Nat) : List Write :=
  match levels with
  | some levels => [.indent token (some objectFirst) levels]
  | none => [.align token (s.leaderOf token), .exempt token]

/-- What follows the start of an access stands level with it. -/
def memberWrites (s : TokenStream) (levels : Option Nat) (c : Cursor) : List Write :=
  let result : Option (List Write) := do
    let object := (← c.fieldChild? "object").bare
    let property := (← (c.fieldChild? "property").or (c.fieldChild? "index")).bare
    let objectFirst ← s.firstOf? object
    let last ← s.lastOf? c
    let access ← accessStart? s object property
    let span : Span := ⟨access, last⟩
    let lead := access :: (span.nth? 1).toList
    return Write.indentAll span.tail (some access) 0 ++
      lead.flatMap (leadWrites s levels objectFirst)
  result.getD []

/-- The value of a property may stand where it is, unless the key is computed. -/
def propertyWrites (s : TokenStream) (c : Cursor) : List Write :=
  if (c.fieldChild? "key").any fun key => key.kind == "computed_property_name" then []
  else
    let value := do
      let colon ← (c.tokenChild? ":").bind s.startOf?
      s.nextCode? colon
    (value.map .exempt).toList

/-- The brace that closes a substitution. -/
def closing? (s : TokenStream) (substitution : Cursor) : Option Nat :=
  ((substitution.children.filter fun d => d.kind == "\x7d").getLast?).bind s.startOf?

/-- A substitution is measured from the part of the template before it, if that part fits on one
line. -/
def substitutionWrites (s : TokenStream) (part : Nat) : List Cursor → List Write
  | [] => []
  | substitution :: rest =>
    match closing? s substitution with
    | none => []
    | some next =>
      let token := s.token part
      let anchor := if token.startLine = token.endLine then some part else none
      Write.indentAll (s.codeBetween part next) anchor 1 ++
        .indent next anchor 0 :: substitutionWrites s next rest

def templateWrites (s : TokenStream) (c : Cursor) : List Write :=
  match s.startOf? c with
  | none => []
  | some part =>
    substitutionWrites s part (c.children.filter fun d => d.kind == "template_substitution")

end Indentation.Operation
