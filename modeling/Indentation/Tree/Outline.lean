import Indentation.Text.Quoted
import Indentation.Tree.Cursor

/-! # Outlines of trees -/

namespace Indentation.Outline

/-- The line and the byte column of an offset, where only LF ends a line. -/
def position (text : Text) (offset : Nat) : Except Fault (Nat × Nat) := do
  let (before, _) ← Text.split text offset
  let tail := (before.reverse.takeWhile (· ≠ '\n')).reverse
  return (before.count '\n' + 1, Text.size tail)

def fieldText (label : Label) : String :=
  match label.field with
  | some field => s!"{field}: "
  | none => ""

/-- One line: the part that a node plays, its kind, the text of a leaf, and where it starts. -/
def line (text : Text) (depth : Nat) (n : Node) : Except Fault String := do
  let (row, column) ← position text n.range.start
  let indent := String.ofList (Text.fill ' ' (2 * depth))
  let own ←
    if n.children.isEmpty then do
      pure (" " ++ String.ofList (Text.quoted (← Text.slice text n.range)))
    else pure ""
  return s!"{indent}{fieldText n.label}{n.kind}{own} @{row}:{column}"

mutual

/-- A line for every node, indented by its depth. -/
def lines (text : Text) (depth : Nat) : Node → Except Fault (List String)
  | .mk label children => do
    let own ← line text depth (.mk label children)
    return own :: (← linesAmong text (depth + 1) children)

def linesAmong (text : Text) (depth : Nat) : List Node → Except Fault (List String)
  | [] => return []
  | n :: rest => do
    let own ← lines text depth n
    return own ++ (← linesAmong text depth rest)

end

end Indentation.Outline
