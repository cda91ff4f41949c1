import Indentation.Layout.Indents
import Indentation.Options.Reader
import Indentation.Text.Edit
import Indentation.Token.Stream

/-! # Rules and what they find -/

namespace Indentation

/-- A text as the rules see it. -/
structure Document where
  source : Text
  lines : Lines
  tree : Node
  stream : TokenStream

namespace Document

def of (source : Text) (tree : Node) : Except Fault Document := do
  return ⟨source, .of source, tree, ← TokenStream.ofTree source tree⟩

end Document

/-- Something wrong with a range, and how to mend it. -/
structure Violation where
  code : String
  message : String
  range : Range
  fix : Option Fix
deriving DecidableEq, Repr

/-- Why a text cannot be checked. -/
inductive LintError where
  /-- There is no tree to check. -/
  | noTree
  /-- The text is broken at a place. -/
  | badText (place : LineColumn)
  | options (rule : String) (cause : OptionsError)
  | unresolved (rule : String) (cause : Unresolved)
  | fault (cause : Fault)

namespace LintError

def message : LintError → String
  | .noTree => "the parser produced no tree"
  | .badText place => s!"Parsing error at {place.line}:{place.column}"
  | .options rule cause => s!"invalid options for rule '{rule}': {cause.message}"
  | .unresolved rule cause => s!"internal error in rule '{rule}': {cause.message}"
  | .fault cause => cause.message?.getD "the text cannot be cut"

/-- What went wrong, from the outside in. -/
def causes (e : LintError) : List String :=
  match e with
  | .options _ cause => e.message :: cause.causes
  | _ => [e.message]

def orFault {α : Type} : Except Fault α → Except LintError α
  | .ok a => .ok a
  | .error cause => .error (.fault cause)

end LintError

/-- A rule looks at a document in a round of a series. Each round follows the edits of the one
before it. -/
structure Rule where
  name : String
  check : Nat → Document → Except LintError (List Violation)

end Indentation
