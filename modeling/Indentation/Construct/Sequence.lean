import Indentation.Construct.Owner
import Indentation.Layout.Write

/-! # Lists between delimiters -/

namespace Indentation

namespace Write

def indentAll (tokens : List Nat) (anchor : Option Nat) (levels : Nat) : List Write :=
  tokens.map fun token => .indent token anchor levels

end Write

namespace Sequence

/-- The closest token before `id` that is neither a comment nor a parenthesis opened after the list
was. -/
def beforeParens? (s : TokenStream) (opening : Nat) : Nat → Option Nat
  | 0 => none
  | id + 1 =>
    if s.isComment id then beforeParens? s opening id
    else if id ≠ opening && s.isPunctuator id ['('] then beforeParens? s opening id
    else some id

/-- The first token of an element, with the parentheses around it. -/
def elementStart? (s : TokenStream) (opening : Nat) (element : Cursor) : Option Nat := do
  let first ← s.firstOf? element
  match beforeParens? s opening first with
  | some before => s.nextCode? before
  | none => s.firstCode?

/-- Later elements stand in the column of the first one, which stands where it is. -/
def alignWithFirst (s : TokenStream) (span : Span) (elements : List (Option Cursor)) : List Write :=
  let lead := elements.head?.join.bind (elementStart? s span.first)
  let inside := Write.indentAll span.interior (some span.first) 1
  match lead with
  | none => inside
  | some lead =>
    let later := (elements.drop 1).filterMap fun element =>
      element.bind (elementStart? s span.first)
    .exempt lead :: (inside ++ later.map fun token => .place token (s.token lead).column)

/-- An element stands level with the one before it if that one ends below the opening. -/
def chain? (s : TokenStream) (span : Span) (previous current : Option Cursor) : Option Write := do
  let previous ← previous
  let current ← current
  let last ← s.lastOf? previous.bare
  if (s.token last).endLine ≤ (s.token span.first).endLine then none
  else
    let anchor ← elementStart? s span.first previous
    let token ← elementStart? s span.first current
    return .align token anchor

def chains (s : TokenStream) (span : Span) (elements : List (Option Cursor)) : List Write :=
  (elements.zip (elements.drop 1)).filterMap fun (previous, current) => chain? s span previous current

/-- The elements of a list that runs from the first to the last token of a span. An element that is
`none` is a hole. -/
def writes (s : TokenStream) (span : Span) (elements : List (Option Cursor)) (offset : ListOffset) :
    List Write :=
  let inside :=
    match offset with
    | .first => alignWithFirst s span elements
    | .levels count =>
      Write.indentAll span.interior (some span.first) count ++ chains s span elements
  inside ++ [.align span.last span.first]

/-- The slots of an array read so far, and the element that waits for its comma. -/
structure Slots where
  closed : List (Option Cursor)
  waiting : Option Cursor

/-- A comma closes a slot, and so does the end of the array if an element waits. -/
def Slots.read (slots : Slots) (c : Cursor) : Slots :=
  match c.kind with
  | "[" => slots
  | "," => ⟨slots.closed ++ [slots.waiting], none⟩
  | "]" =>
    match slots.waiting with
    | none => slots
    | some element => ⟨slots.closed ++ [some element], none⟩
  | _ => { slots with waiting := some c }

/-- The elements of an array in order, with its holes. -/
def arrayElements (c : Cursor) : List (Option Cursor) :=
  ((c.children.filter fun d => !d.extra).foldl Slots.read ⟨[], none⟩).closed

/-- Arrays, objects and the patterns that look like them. -/
def ofLiteral (s : TokenStream) (offset : ListOffset) (c : Cursor) : List Write :=
  match s.spanOfNode? c with
  | none => []
  | some span =>
    let elements :=
      match c.kind with
      | "array" | "array_pattern" => arrayElements c
      | _ => c.properChildren.map some
    writes s span elements offset

def properOfKind (c : Cursor) (kind : String) : List Cursor :=
  c.properChildren.filter fun d => d.kind == kind

/-- The names that a module hands out. -/
def ofExport (s : TokenStream) (c : Cursor) : List Write :=
  let result : Option (List Write) := do
    let clause ← (properOfKind c "export_clause").head?
    let span ← s.spanOfNode? clause
    return writes s span ((properOfKind clause "export_specifier").map some) (.levels 1)
  result.getD []

/-- The names that a module takes in. -/
def ofImport (s : TokenStream) (c : Cursor) : List Write :=
  let result : Option (List Write) := do
    let clause ← (properOfKind c "import_clause").head?
    let named ← (properOfKind clause "named_imports").head?
    let specifiers := properOfKind named "import_specifier"
    if specifiers.isEmpty then none
    else
      let span ← s.spanOfNode? named
      return writes s span (specifiers.map some) (.levels 1)
  result.getD []

end Sequence

end Indentation
