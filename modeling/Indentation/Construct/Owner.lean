import Indentation.Token.Stream
import Indentation.Tree.Cursor

/-! # Constructs around and below a place -/

namespace Indentation.Cursor

/-- Nodes that only group others. -/
def isGrouping (kind : String) : Bool :=
  ["parenthesized_expression", "else_clause", "finally_clause", "arguments", "formal_parameters",
    "switch_body", "class_heritage", "template_substitution", "named_imports", "import_clause",
    "export_clause"].contains kind

def ownerAlong : List Step → Option Cursor
  | [] => none
  | step :: trail =>
    if isGrouping step.parent.kind then ownerAlong trail else some ⟨step.parent, trail⟩

/-- The nearest node above that does more than group. -/
def owner? (c : Cursor) : Option Cursor := ownerAlong c.trail

/-- The expression within any number of grouping parentheses. -/
def bare (c : Cursor) : Cursor :=
  if c.kind = "parenthesized_expression" then
    match _h : c.properChildren.head? with
    | some inner => bare inner
    | none => c
  else c
termination_by c.node.size
decreasing_by exact size_lt_of_head_properChildren _h

def operator? (c : Cursor) : Option String := (c.fieldChild? "operator").map Cursor.kind

/-- Whether an operand that is a call still runs where it stands. -/
def runsOperand (c : Cursor) : Bool :=
  match c.kind with
  | "unary_expression" => c.operator?.any ["!", "~", "+", "-"].contains
  | "binary_expression" => c.operator?.any ["&&", "||", "??"].contains
  | "assignment_expression" | "augmented_assignment_expression" | "sequence_expression"
  | "variable_declarator" => true
  | _ => false

def statementAlong : List Step → Option Cursor
  | [] => none
  | step :: trail =>
    let c : Cursor := ⟨step.parent, trail⟩
    if isGrouping c.kind || c.runsOperand then statementAlong trail else some c

def isTopStatement (c : Cursor) : Bool :=
  ["expression_statement", "variable_declaration", "lexical_declaration"].contains c.kind &&
    c.owner?.any fun parent => parent.kind == "program"

/-- Whether a function is called where it is defined, by a statement of the program itself. -/
def isOuterCall (c : Cursor) : Bool :=
  match c.owner? with
  | none => false
  | some call =>
    call.kind == "call_expression" &&
      (call.fieldChild? "function").any (fun callee => callee.bare.samePlace c) &&
      (statementAlong call.trail).any isTopStatement

end Indentation.Cursor

namespace Indentation.TokenStream

/-- The first token of a node, comments aside. -/
def firstOf? (s : TokenStream) (c : Cursor) : Option Nat := s.firstCodeIn? c.range

/-- The last token of a node, comments aside. -/
def lastOf? (s : TokenStream) (c : Cursor) : Option Nat := s.lastCodeIn? c.range

def spanOfNode? (s : TokenStream) (c : Cursor) : Option Span := s.spanOf? c.range

/-- The token that starts where a node starts. -/
def startOf? (s : TokenStream) (c : Cursor) : Option Nat := s.startingAt? c.range.start

/-- Where a construct is measured from: a method begins at its parameters, after its name. -/
def headOf? (s : TokenStream) (c : Cursor) : Option Nat :=
  if c.kind = "method_definition" then
    match c.fieldChild? "parameters" with
    | some parameters => s.firstOf? parameters
    | none => s.firstOf? c
  else s.firstOf? c

end Indentation.TokenStream
