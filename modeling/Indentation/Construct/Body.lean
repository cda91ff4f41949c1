import Indentation.Construct.Sequence

/-! # Blocks, classes, cases and bodies without braces -/

namespace Indentation.Body

/-- Levels of the body that a construct owns. -/
def levels (o : IndentOptions) (owner : Option Cursor) : Nat :=
  match owner with
  | none => 1
  | some c =>
    if c.isOuterCall then o.outerCallBody
    else
      match c.kind with
      | "function_expression" | "function" | "generator_function" | "method_definition"
      | "arrow_function" => o.functionExpression.body
      | "function_declaration" | "generator_function_declaration" => o.functionDeclaration.body
      | _ => 1

/-- What stands in a block is measured from its brace. A brace that does not come first on its line
stands level with the construct it belongs to, however the header of that is broken. -/
def blockWrites (s : TokenStream) (o : IndentOptions) (c : Cursor) : List Write :=
  match s.spanOfNode? c with
  | none => []
  | some span =>
    let owner := c.owner?
    let anchor := if s.leads span.first then span.first else (owner.bind s.headOf?).getD span.first
    .align span.first anchor ::
      (Write.indentAll span.interior (some span.first) (levels o owner) ++ [.align span.last anchor])

/-- A body without braces stands one level in from its statement. -/
def unbracedWrites (s : TokenStream) (statement : Cursor) (body : Option Cursor) : List Write :=
  let result : Option (List Write) := do
    let body ← body
    if body.kind = "statement_block" then none
    else
      let span ← s.spanOfNode? body
      let anchor ← s.firstOf? statement
      return Write.indentAll span.ids (some anchor) 1
  result.getD []

def loopWrites (s : TokenStream) (c : Cursor) : List Write :=
  unbracedWrites s c (c.fieldChild? "body")

/-- What an `else` leads to. -/
def alternative? (c : Cursor) : Option Cursor := do
  let clause ← c.fieldChild? "alternative"
  clause.properChildren.head?

theorem size_lt_of_alternative {c d : Cursor} (h : alternative? c = some d) :
    d.node.size < c.node.size := by
  unfold alternative? at h
  cases hc : c.fieldChild? "alternative" with
  | none => simp [hc] at h
  | some clause =>
    simp only [hc, Option.bind_eq_bind, Option.bind_some] at h
    have := Cursor.size_lt_of_head_properChildren h
    have := Cursor.size_lt_of_mem_children (Cursor.mem_children_of_fieldChild hc)
    omega

/-- Both branches, and those of each `else if`. -/
def branchWrites (s : TokenStream) (c : Cursor) : List Write :=
  unbracedWrites s c (c.fieldChild? "consequence") ++
    match _h : alternative? c with
    | none => []
    | some d => if d.kind = "if_statement" then branchWrites s d else unbracedWrites s c (some d)
termination_by c.node.size
decreasing_by exact size_lt_of_alternative _h

/-- The parts of the header of a `for` are measured from its parenthesis. -/
def headerWrites (s : TokenStream) (c : Cursor) : List Write :=
  match (s.firstOf? c).bind s.nextCode? with
  | none => []
  | some opening =>
    let parts := ["initializer", "condition", "increment"].flatMap c.fieldChildren
    let written := parts.filter fun part => part.named && part.kind != "empty_statement"
    (written.filterMap s.spanOfNode?).flatMap fun span =>
      Write.indentAll span.ids (some opening) 1

def forWrites (s : TokenStream) (c : Cursor) : List Write :=
  headerWrites s c ++ loopWrites s c

/-- What a class holds is measured from its keyword. -/
def classWrites (s : TokenStream) (c : Cursor) : List Write :=
  match s.spanOfNode? c with
  | none => []
  | some span =>
    Write.indentAll span.interior (some span.first) 1 ++ [.align span.last span.first]

/-- Whether a case is nothing but one block. -/
def holdsOneBlock (c : Cursor) : Bool :=
  let past := (c.children.dropWhile fun d => d.named || d.kind != ":").drop 1
  match past.filter fun d => d.named && !d.extra with
  | [only] => only.kind == "statement_block"
  | _ => false

/-- Tokens after a label stand one level in from it, unless the case is one block. Comments after the
last label may stand where they are. -/
def caseWrites (s : TokenStream) (labels blocks : List Nat) (label : Nat) : List Nat → List Write
  | [] => []
  | token :: rest =>
    if labels.contains token then caseWrites s labels blocks token rest
    else
      let later := caseWrites s labels blocks label rest
      if labels.getLast? == some label && s.isComment token then .exempt token :: later
      else if blocks.contains label then later
      else .indent token (some label) 1 :: later

/-- The cases of a `switch` are measured from its brace. -/
def switchWrites (s : TokenStream) (o : IndentOptions) (c : Cursor) : List Write :=
  let result : Option (List Write) := do
    let body ← c.fieldChild? "body"
    let span ← s.spanOfNode? body
    let cases := body.properChildren.filter fun d =>
      d.kind == "switch_case" || d.kind == "switch_default"
    let labels := cases.filterMap s.firstOf?
    let blocks := (cases.filter holdsOneBlock).filterMap s.firstOf?
    return Write.indentAll span.interior (some span.first) o.switchCase ++
      caseWrites s labels blocks span.first span.interior
  result.getD []

end Indentation.Body
