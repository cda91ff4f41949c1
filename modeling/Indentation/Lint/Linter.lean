import Indentation.Directive.Suppression
import Indentation.Lint.Basic
import Indentation.Tree.Walk

/-! # Checking a text against rules -/

namespace Indentation

/-- A rule that runs, and whether its fixes are kept. -/
structure ActiveRule where
  rule : Rule
  keepsFixes : Bool

/-- A violation of a rule. -/
structure Finding where
  rule : String
  violation : Violation
deriving DecidableEq, Repr

namespace Finding

def start (f : Finding) : Nat := f.violation.range.start

def isFixable (f : Finding) : Bool := f.violation.fix.isSome

/-- Findings are reported from the start of the text on, and at one place by the name of the
rule. -/
def atMost (f g : Finding) : Bool :=
  f.start < g.start || (f.start == g.start && decide (f.rule ≤ g.rule))

end Finding

/-- How a text is read: the tree of the text of a round. -/
abbrev Parser := Nat → Text → Option Node

structure Linter where
  rules : List ActiveRule

namespace Linter

def ruleNames (l : Linter) : List String := l.rules.map fun active => active.rule.name

/-- What one rule finds, apart from what the directives of the text suppress. -/
def findings (suppression : Suppression) (round : Nat) (d : Document) (active : ActiveRule) :
    Except LintError (List Finding) := do
  let violations ← active.rule.check round d
  let name := active.rule.name
  let open_ := violations.filter fun v => !suppression.holds name.toList v.range.start
  return open_.map fun v => ⟨name, if active.keepsFixes then v else { v with fix := none }⟩

/-- Where a broken text is broken. -/
def brokenAt (source : Text) (tree : Node) : LintError :=
  match (Lines.of source).lineColumn source (tree.firstFlaw?.getD 0) with
  | .ok place => .badText place
  | .error cause => .fault cause

def lintTree (l : Linter) (round : Nat) (source : Text) (tree : Node) :
    Except LintError (List Finding) :=
  if tree.tainted then .error (brokenAt source tree)
  else do
    let d ← LintError.orFault (Document.of source tree)
    let found ← l.rules.mapM (findings (.ofTokens d.stream) round d)
    return found.flatten.mergeSort Finding.atMost

def lint (l : Linter) (parse : Parser) (round : Nat) (source : Text) :
    Except LintError (List Finding) :=
  match parse round source with
  | none => .error .noTree
  | some tree => l.lintTree round source tree

end Linter

end Indentation
