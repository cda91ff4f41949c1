import Indentation.Construct.Basic
import Indentation.Layout.Mismatch
import Indentation.Layout.Parens
import Indentation.Lint.Basic

/-! # The indentation rule

The constructs of a tree write the graph, then the parentheses do. The graph says where each line
should stand. -/

namespace Indentation.IndentRule

def name : String := "indent"

/-- What every token of a text is measured from. -/
def graph (o : IndentOptions) (tree : Node) (s : TokenStream) : Graph :=
  (Graph.blank s.size).writeAll s o.unit (Construct.writes s o tree ++ Parens.writes s)

def mismatches (o : IndentOptions) (tree : Node) (s : TokenStream) :
    Except Unresolved (List Mismatch) := do
  let g := graph o tree s
  let widths ← g.resolve s o.indentChar
  return Mismatch.all s o.indentChar g widths

/-- The fix replaces the whole margin of the line. -/
def violation (o : IndentOptions) (s : TokenStream) (m : Mismatch) : Violation where
  code := "IncorrectIndentation"
  message := m.message o.indentChar
  range := (s.token m.token).range
  fix :=
    let margin := Text.fill o.indentChar.char m.expected
    some ⟨[.replacement margin (s.token m.token).marginRange], .safe⟩

def check (o : IndentOptions) (d : Document) : Except LintError (List Violation) :=
  match mismatches o d.tree d.stream with
  | .ok ms => .ok (ms.map (violation o d.stream))
  | .error cause => .error (.unresolved name cause)

def rule (o : IndentOptions) : Rule := ⟨name, fun _ d => check o d⟩

def read (options : List Json) : Except OptionsError Rule :=
  (IndentOptions.read options).map rule

end Indentation.IndentRule
