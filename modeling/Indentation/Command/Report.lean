import Indentation.Diff.Basic
import Indentation.Files.Tree
import Indentation.Lint.Fixing

/-! # Checking and fixing one file -/

namespace Indentation

/-- A failure that ends the command: what went wrong, from the outside in. -/
structure Failure where
  title : String
  causes : List String
deriving DecidableEq, Repr

namespace Failure

/-- Further lines of a cause are as far in as its first one. -/
def indented (first further cause : String) : String :=
  first ++ ("\n" ++ further).intercalate (cause.splitOn "\n")

def numbered (number : Nat) (cause : String) : String :=
  let digits := toString number
  indented (String.ofList (Text.fill ' ' (5 - digits.length)) ++ digits ++ ": ") "       " cause

/-- Causes are numbered if there is more than one. -/
def causeLines (causes : List String) : List String :=
  match causes with
  | [cause] => [indented "    " "    " cause]
  | causes => causes.zipIdx.map fun (cause, number) => numbered number cause

def lines (f : Failure) : List String :=
  let below := if f.causes.isEmpty then [] else ["", "Caused by:"] ++ causeLines f.causes
  ("Error: " ++ f.title) :: below

end Failure

/-- What came out for one file. -/
structure Report where
  /-- What is found in the file. -/
  findings : List String
  violations : Nat
  fixable : Nat
  fixed : Nat
  changed : Bool
  diff : List String
  /-- What is said at once. -/
  notes : List String
deriving DecidableEq, Repr

namespace Report

def empty : Report := ⟨[], 0, 0, 0, false, [], []⟩

/-- A broken text is noted and passed over. -/
def skipped (path : String) (cause : LintError) : Report :=
  { empty with notes := [path ++ ": " ++ cause.message] }

def failedLint (path : String) (cause : LintError) : Failure :=
  ⟨"Failed to lint " ++ path, cause.causes⟩

def line (path : String) (source : Text) (lines : Lines) (f : Finding) : Except Failure String :=
  match lines.lineColumn source f.start with
  | .error cause => .error (failedLint path (.fault cause))
  | .ok place =>
    .ok s!"{path}:{place.line}:{place.column}: [{f.rule}] {f.violation.message}"

def findingLines (path : String) (source : Text) (found : List Finding) :
    Except Failure (List String) :=
  found.mapM (line path source (.of source))

def source (t : FileTree) (path : String) : Except Failure Text :=
  match t.read path with
  | .ok text => .ok text
  | .error cause => .error ⟨"Failed to read " ++ path, [cause.message]⟩

def ofCheck (l : Linter) (parse : Parser) (t : FileTree) (path : String) :
    Except Failure Report := do
  let text ← source t path
  match l.lint parse 0 text with
  | .error (.badText place) => return skipped path (.badText place)
  | .error cause => .error (failedLint path cause)
  | .ok found =>
    return { empty with
      findings := ← findingLines path text found
      violations := found.length
      fixable := (found.filter Finding.isFixable).length }

/-- Fix a file. Unless only the difference is wanted, the file is written. -/
def ofFix (l : Linter) (parse : Parser) (level : Applicability) (diffOnly : Bool) (t : FileTree)
    (path : String) : Except Failure (Report × FileTree) := do
  let text ← source t path
  match l.fix parse level text with
  | .error (.badText place) => return (skipped path (.badText place), t)
  | .error cause => .error (failedLint path cause)
  | .ok s =>
    let report : Report := { empty with
      findings := ← findingLines path s.source s.remaining
      violations := s.remaining.length
      fixed := s.fixed
      changed := s.changed }
    if !s.changed then return (report, t)
    else if diffOnly then
      return ({ report with diff := (Diff.render path text s.source).map String.ofList }, t)
    else
      let note := s!"{path}: {s.fixed} fix(es) applied in {s.passes} pass(es)"
      let written := ((t.locate? path).map fun place => t.write place s.source s.passes).getD t
      return ({ report with notes := [note] }, written)

end Report

end Indentation
