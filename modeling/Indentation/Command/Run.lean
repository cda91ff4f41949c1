import Indentation.Command.Arguments
import Indentation.Command.Report
import Indentation.Config.Loader

/-! # Running a command -/

namespace Indentation

/-- What a command leaves: its exit code, what it printed, and the files. -/
structure Ending where
  code : Nat
  output : List String
  notes : List String
  files : FileTree

/-- How the file at a location is read in a round. -/
abbrev FileParser := Location → Parser

namespace Command

def endWith (f : Failure) (notes : List String) (t : FileTree) : Ending :=
  ⟨1, [], notes ++ f.lines, t⟩

/-- The configuration of the home directory. -/
def configure (t : FileTree) (table : Option String) : Except Failure Configuration :=
  let found := (Loader.start.findOverlay t t.home).findTable t t.home
  let loader := (table.map found.withTable).getD found
  match loader.load t with
  | .ok c => .ok c
  | .error cause => .error ⟨"Failed to load configuration", cause.causes⟩

def configurationNotes (c : Configuration) : List String :=
  if c.sources.isEmpty then ["No .eslintrc.json found, using default indent rule"]
  else c.sources.map fun path => "Loaded config from: " ++ path

/-- Only the unit of the options changes. -/
def withUnit (unit : Option Json) (c : Configuration) : Configuration :=
  match unit with
  | none => c
  | some unit =>
    let options := ((c.rule? IndentRule.name).map ConfiguredRule.options).getD []
    c.override IndentRule.name (unit :: options.drop 1)

def linter (c : Configuration) : Except Failure Linter :=
  match Linter.ofConfiguration .standard c with
  | .ok l => .ok l
  | .error cause => .error ⟨"Invalid rule configuration", cause.causes⟩

/-- The files that paths stand for, and a note for each path that leads nowhere. -/
def collect (t : FileTree) (extensions paths : List String) : List String × List String :=
  let expanded := paths.map fun path => (path, t.expand? extensions path)
  let missing := expanded.filter fun (_, found) => found.isNone
  (Path.arrange (expanded.flatMap fun (_, found) => found.getD []),
    missing.map fun (path, _) => "Warning: " ++ path ++ " not found")

/-- The parser of a file starts at the rounds that were written to it. -/
def parserAt (parse : FileParser) (t : FileTree) (path : String) : Parser := fun round text =>
  let place := (t.locate? path).getD []
  parse place (t.roundsAt place + round) text

/-- Reports on files one after the other, the files as they leave them, and the failure that ended
the run early. -/
structure Progress where
  reports : List Report
  files : FileTree
  failure : Option Failure

def handle (step : FileTree → String → Except Failure (Report × FileTree)) (t : FileTree) :
    List String → Progress
  | [] => ⟨[], t, none⟩
  | path :: rest =>
    match step t path with
    | .error failure => ⟨[], t, some failure⟩
    | .ok (report, t) =>
      let later := handle step t rest
      { later with reports := report :: later.reports }

def checkStep (l : Linter) (parse : FileParser) (t : FileTree) (path : String) :
    Except Failure (Report × FileTree) := do
  return (← Report.ofCheck l (parserAt parse t path) t path, t)

def fixStep (l : Linter) (parse : FileParser) (level : Applicability) (diffOnly : Bool)
    (t : FileTree) (path : String) : Except Failure (Report × FileTree) :=
  Report.ofFix l (parserAt parse t path) level diffOnly t path

def total (count : Report → Nat) (reports : List Report) : Nat := (reports.map count).foldl (· + ·) 0

def checkSummary (reports : List Report) : List String :=
  let violations := total Report.violations reports
  let fixable := total Report.fixable reports
  if violations = 0 then ["No violations found"]
  else ["", s!"Found {violations} violations ({fixable} fixable)"]

def fixSummary (diffOnly : Bool) (reports : List Report) : List String :=
  let fixed := total Report.fixed reports
  let files := (reports.filter Report.changed).length
  if diffOnly then ["", s!"{fixed} fix(es) available in {files} file(s)"]
  else if fixed = 0 then ["No fixes to apply"]
  else ["", s!"{fixed} fix(es) applied in {files} file(s)"]

/-- What was found stays when all is fixed that can be. -/
def leftNotes (kind : CommandKind) (left : Nat) : List String :=
  match kind with
  | .check => []
  | .fix .. => if left = 0 then [] else [s!"{left} violation(s) could not be fixed automatically"]

def summary (kind : CommandKind) (reports : List Report) : List String :=
  match kind with
  | .check => checkSummary reports
  | .fix diffOnly _ => fixSummary diffOnly reports

/-- Print the reports. The exit code tells whether violations are left. -/
def conclude (kind : CommandKind) (notes : List String) (p : Progress) : Ending :=
  let notes := notes ++ p.reports.flatMap Report.notes
  match p.failure with
  | some failure => endWith failure notes p.files
  | none =>
    let left := total Report.violations p.reports
    let printed := p.reports.flatMap fun r => r.diff ++ r.findings
    ⟨if left = 0 then 0 else 1, printed ++ summary kind p.reports,
      notes ++ leftNotes kind left, p.files⟩

def verb : CommandKind → String
  | .check => "Checking"
  | .fix .. => "Fixing"

def stepOf (kind : CommandKind) (c : Configuration) (l : Linter) (parse : FileParser) :
    FileTree → String → Except Failure (Report × FileTree) :=
  match kind with
  | .check => checkStep l parse
  | .fix diffOnly risky =>
    fixStep l parse (if risky || c.unsafeFixes then .risky else .safe) diffOnly

/-- Run over all files with a linter. -/
def runWith (i : Invocation) (c : Configuration) (l : Linter) (parse : FileParser) (t : FileTree)
    (notes : List String) : Ending :=
  if l.rules.isEmpty then ⟨0, [], notes ++ ["Warning: No rules configured"], t⟩
  else
    let (files, missing) := collect t c.extensions i.paths
    let names := ", ".intercalate l.ruleNames
    let opening := s!"{verb i.kind} {files.length} file(s) with: {names}"
    conclude i.kind (notes ++ missing ++ [opening]) (handle (stepOf i.kind c l parse) t files)

def run (i : Invocation) (parse : FileParser) (t : FileTree) : Ending :=
  match configure t i.table with
  | .error failure => endWith failure [] t
  | .ok c =>
    let notes := configurationNotes c
    match linter (withUnit i.unit c) with
    | .error failure => endWith failure notes t
    | .ok l => runWith i c l parse t notes

/-- Do what a command line asks for. A wrong one leaves the exit code 2. -/
def ofArguments (arguments : List String) (parse : FileParser) (t : FileTree) : Ending :=
  match Arguments.parse arguments with
  | .run i => run i parse t
  | .help text => ⟨0, text.splitOn "\n", [], t⟩
  | .wrong => ⟨2, [], ["Usage: jsindent <COMMAND>"], t⟩

end Command

end Indentation
