import Indentation.Lint.Linter

/-! # Fixing a text

A pass carries out all fixes that apply, as far as they do not overlap, and checks the text that
comes out. -/

namespace Indentation

/-- A text after some passes: how many edits were made, and what is still found. -/
structure FixState where
  source : Text
  fixed : Nat
  passes : Nat
  remaining : List Finding
deriving DecidableEq, Repr

namespace FixState

def changed (s : FixState) : Bool := s.fixed > 0

end FixState

namespace Linter

/-- The most passes over one text. -/
def passLimit : Nat := 10

/-- The edits of all fixes that apply. -/
def wantedEdits (level : Applicability) (found : List Finding) : List Edit :=
  (found.filterMap fun f => f.violation.fix).flatMap fun fix =>
    if fix.applies level then fix.edits else []

/-- Carry out edits, then check the text that they leave. -/
def pass (l : Linter) (parse : Parser) (s : FixState) (edits : List Edit) :
    Except LintError FixState := do
  let source ← LintError.orFault (Edit.applyAll s.source edits)
  let remaining ← l.lint parse (s.passes + 1) source
  return ⟨source, s.fixed + edits.length, s.passes + 1, remaining⟩

/-- At most so many passes more. -/
def fixFrom (l : Linter) (parse : Parser) (level : Applicability) :
    Nat → FixState → Except LintError FixState
  | 0, s => .ok s
  | left + 1, s =>
    match wantedEdits level s.remaining with
    | [] => .ok s
    | edits => do l.fixFrom parse level left (← l.pass parse s (Edit.select edits))

def fix (l : Linter) (parse : Parser) (level : Applicability) (source : Text) :
    Except LintError FixState := do
  let found ← l.lint parse 0 source
  l.fixFrom parse level passLimit ⟨source, 0, 0, found⟩

end Linter

end Indentation
