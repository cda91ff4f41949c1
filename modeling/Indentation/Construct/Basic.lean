import Indentation.Construct.Body
import Indentation.Construct.Callable
import Indentation.Construct.Declaration
import Indentation.Construct.Operation
import Indentation.Tree.Walk

/-! # Constructs

Each construct writes what it asks for when a walk enters it, so what stands inside is written
later. -/

namespace Indentation

inductive Construct where
  | array
  | object
  | pattern
  | arrow
  | assignment
  | binary
  | block
  | call
  | new
  | classBody
  | conditional
  | loop
  | forLoop
  | exports
  | imports
  | functionDeclaration
  | functionExpression
  | branch
  | member
  | property
  | switch
  | template
  | declaration
  | declarator
deriving DecidableEq, Repr

namespace Construct

def ofKind? (kind : String) : Option Construct :=
  match kind with
  | "array" => some .array
  | "object" => some .object
  | "array_pattern" | "object_pattern" => some .pattern
  | "arrow_function" => some .arrow
  | "assignment_expression" | "augmented_assignment_expression" => some .assignment
  | "binary_expression" => some .binary
  | "statement_block" => some .block
  | "call_expression" => some .call
  | "new_expression" => some .new
  | "class_declaration" | "class" => some .classBody
  | "ternary_expression" => some .conditional
  | "do_statement" | "while_statement" | "for_in_statement" => some .loop
  | "for_statement" => some .forLoop
  | "export_statement" => some .exports
  | "import_statement" => some .imports
  | "function_declaration" | "generator_function_declaration" => some .functionDeclaration
  | "function_expression" | "function" | "generator_function" | "method_definition" =>
    some .functionExpression
  | "if_statement" => some .branch
  | "member_expression" | "subscript_expression" => some .member
  | "pair" | "pair_pattern" => some .property
  | "switch_statement" => some .switch
  | "template_string" => some .template
  | "variable_declaration" | "lexical_declaration" => some .declaration
  | "variable_declarator" => some .declarator
  | _ => none

/-- A keyword spelled like a kind is no construct. -/
def ofPlace? (c : Cursor) : Option Construct :=
  if c.named then ofKind? c.kind else none

def enter (s : TokenStream) (o : IndentOptions) (c : Cursor) : Construct → List Write
  | .array => Sequence.ofLiteral s o.array c
  | .object => Sequence.ofLiteral s o.object c
  | .pattern => Sequence.ofLiteral s (.levels 1) c
  | .arrow => Callable.arrowWrites s o.functionExpression.parameters c
  | .assignment => Operation.assignmentWrites s c
  | .binary => Operation.binaryWrites s c
  | .block => Body.blockWrites s o c
  | .call => Callable.argumentWrites s o.callArguments "function" c
  | .new => Callable.argumentWrites s o.callArguments "constructor" c
  | .classBody => Body.classWrites s c
  | .conditional => Operation.conditionalWrites s c
  | .loop => Body.loopWrites s c
  | .forLoop => Body.forWrites s c
  | .exports => Sequence.ofExport s c
  | .imports => Sequence.ofImport s c
  | .functionDeclaration => Callable.parameterWrites s o.functionDeclaration.parameters c
  | .functionExpression => Callable.parameterWrites s o.functionExpression.parameters c
  | .branch => Body.branchWrites s c
  | .member => Operation.memberWrites s o.member c
  | .property => Operation.propertyWrites s c
  | .switch => Body.switchWrites s o c
  | .template => Operation.templateWrites s c
  | .declaration => Declaration.writes s o c
  | .declarator => Declaration.declaratorWrites s c

def leave (s : TokenStream) (o : IndentOptions) (c : Cursor) : Construct → List Write
  | .declarator => Declaration.shiftWrites s o c
  | _ => []

def eventWrites (s : TokenStream) (o : IndentOptions) : Event → List Write
  | .enter c => ((ofPlace? c).map (enter s o c)).getD []
  | .leave c => ((ofPlace? c).map (leave s o c)).getD []

/-- Everything that the constructs of a tree ask for. -/
def writes (s : TokenStream) (o : IndentOptions) (tree : Node) : List Write :=
  tree.events.flatMap (eventWrites s o)

end Construct

end Indentation
