import Indentation.Text.Range
import Indentation.Text.Search

/-! # Lines and columns -/

namespace Indentation

/-- A line and a column, both counted from 1. Columns count characters. -/
structure LineColumn where
  line : Nat
  column : Nat
deriving DecidableEq, Repr

/-- Where the lines of a text start. A line ends with LF, with CR LF or with a CR of its own. -/
structure Lines where
  starts : Array Nat
deriving DecidableEq, Repr

namespace Lines

/-- The offsets just past each line terminator of a text that begins at `offset`. -/
def startsFrom (offset : Nat) : Text → List Nat
  | [] => []
  | '\r' :: '\n' :: rest => (offset + 2) :: startsFrom (offset + 2) rest
  | c :: rest =>
    let next := offset + c.utf8Size
    if c = '\n' ∨ c = '\r' then next :: startsFrom next rest else startsFrom next rest

def of (text : Text) : Lines := ⟨(0 :: startsFrom 0 text).toArray⟩

def count (lines : Lines) : Nat := lines.starts.size

/-- The line that holds an offset: the last one that starts at or before it. -/
def lineOf (lines : Lines) (offset : Nat) : Nat :=
  max 1 (Search.partitionPoint (fun row => lines.starts.getD row 0 ≤ offset) lines.starts.size)

/-- Where a line starts. A line past the end starts at the end of the text. -/
def lineStart (lines : Lines) (text : Text) (line : Nat) : Nat :=
  (lines.starts[line - 1]?).getD (Text.size text)

/-- Bytes of the line terminator that ends a text. -/
def terminatorSize (text : Text) : Nat :=
  match text.reverse with
  | '\n' :: '\r' :: _ => 2
  | '\n' :: _ | '\r' :: _ => 1
  | _ => 0

/-- Where a line ends, its terminator not included. -/
def lineEnd (lines : Lines) (text : Text) (line : Nat) : Nat :=
  match lines.starts[line]? with
  | none => Text.size text
  | some next =>
    match Text.split? text next with
    | none => next
    | some (before, _) => next - terminatorSize before

def lineRange (lines : Lines) (text : Text) (line : Nat) : Except Fault Range :=
  Range.of (lines.lineStart text line) (lines.lineEnd text line)

def lineText (lines : Lines) (text : Text) (line : Nat) : Except Fault Text := do
  Text.slice text (← lines.lineRange text line)

/-- Characters between the start of the line of an offset and the offset. -/
def column (lines : Lines) (text : Text) (offset : Nat) : Except Fault Nat := do
  let (before, _) ← Text.split text offset
  let (_, lead) ← Text.split before (lines.lineStart text (lines.lineOf offset))
  return lead.length

def lineColumn (lines : Lines) (text : Text) (offset : Nat) : Except Fault LineColumn := do
  return ⟨lines.lineOf offset, (← lines.column text offset) + 1⟩

end Lines

end Indentation
