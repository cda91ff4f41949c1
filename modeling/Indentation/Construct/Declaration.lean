import Indentation.Construct.Sequence

/-! # Declarations of variables -/

namespace Indentation.Declaration

def keyword (c : Cursor) : DeclarationKeyword :=
  if c.kind ≠ "lexical_declaration" then .varKeyword
  else
    match (c.fieldChild? "kind").or c.firstChild? with
    | some word => if word.kind = "const" then .constKeyword else .letKeyword
    | none => .letKeyword

/-- What follows the keyword stands in by the levels of the keyword. The semicolon may stand where
it is. -/
def writes (s : TokenStream) (o : IndentOptions) (c : Cursor) : List Write :=
  match s.spanOfNode? c with
  | none => []
  | some span =>
    Write.indentAll span.tail (some span.first) (o.declarators.of (keyword c)) ++
      if s.isPunctuator span.last [';'] then [.exempt span.last] else []

/-- The first token of an initial value may stand where it is. -/
def declaratorWrites (s : TokenStream) (c : Cursor) : List Write :=
  let value := (c.fieldChild? "value").bind fun value => s.firstOf? value.bare
  (value.map .exempt).toList

def declarators (c : Cursor) : List Cursor :=
  c.properChildren.filter fun d => d.kind == "variable_declarator"

/-- Whether a place is the first of several declarators. -/
def isFirstOfSeveral (declaration c : Cursor) : Bool :=
  match declarators declaration with
  | first :: _ :: _ => first.samePlace c
  | _ => false

/-- The initial value of the first of several declarators moves in with the names below it. -/
def shiftWrites (s : TokenStream) (o : IndentOptions) (c : Cursor) : List Write :=
  let result : Option (List Write) := do
    let declaration ← c.parent?
    if isFirstOfSeveral declaration c then
      let value ← c.fieldChild? "value"
      let span ← s.spanOfNode? value.bare
      return [Write.shift span (o.declarators.of (keyword declaration))]
    else none
  result.getD []

end Indentation.Declaration
