import Indentation.Json.Basic
import Indentation.Options.Basic

/-! # Command lines -/

namespace Indentation

inductive CommandKind where
  | check
  | fix (diffOnly risky : Bool)
deriving DecidableEq, Repr

/-- What is asked for. -/
structure Invocation where
  kind : CommandKind
  paths : List String
  /-- The table to read instead of the one that would be found. -/
  table : Option String
  /-- The unit to indent with instead of the configured one. -/
  unit : Option Json

/-- What a command line says. -/
inductive Request where
  | run (invocation : Invocation)
  /-- Print a help text. -/
  | help (text : String)
  /-- The command line is wrong. -/
  | wrong

namespace Arguments

/-- A unit is a width or the word for tabs. A width may have a plus sign and leading zeros. -/
def unit? (value : String) : Option Json :=
  if value = "tab" then some (.str "tab")
  else
    let digits :=
      match value.toList with
      | '+' :: rest => rest
      | cs => cs
    if digits.isEmpty || !digits.all Char.isDigit then none
    else
      let width := digits.foldl (fun n c => 10 * n + (c.toNat - '0'.toNat)) 0
      if width ≤ widthLimit then some (.int width) else none

/-- The settings read so far. -/
structure Settings where
  paths : List String
  table : Option String
  unit : Option Json
  diffOnly : Bool
  risky : Bool

inductive Outcome where
  | go (settings : Settings)
  | help
  | wrong

/-- Go on unless the command line is settled. -/
def Outcome.andThen (o : Outcome) (next : Settings → Outcome) : Outcome :=
  match o with
  | .go settings => next settings
  | settled => settled

inductive Flag where
  | diffOnly
  | risky

namespace Settings

def blank : Settings := ⟨[], none, none, false, false⟩

/-- A path cannot be empty. -/
def addPath (s : Settings) (path : String) : Outcome :=
  if path.isEmpty then .wrong else .go { s with paths := s.paths ++ [path] }

/-- A table may be given once. -/
def setTable (s : Settings) (path : String) : Outcome :=
  if path.isEmpty || s.table.isSome then .wrong else .go { s with table := some path }

/-- A unit may be given once. -/
def setUnit (s : Settings) (value : String) : Outcome :=
  match unit? value, s.unit with
  | some unit, none => .go { s with unit := some unit }
  | _, _ => .wrong

/-- A flag may be given once. -/
def raise (s : Settings) : Flag → Outcome
  | .diffOnly => if s.diffOnly then .wrong else .go { s with diffOnly := true }
  | .risky => if s.risky then .wrong else .go { s with risky := true }

end Settings

/-- How one argument is understood, before options are ended. -/
inductive Form where
  /-- Everything that follows is a path. -/
  | ending
  | help
  | flag (flag : Flag)
  /-- The value is part of the argument. -/
  | table (value : String)
  | unit (value : String)
  /-- The value is the next argument. -/
  | tableNext
  | unitNext
  | path (path : String)
  | wrong

/-- The value behind a long option, if it has one: nothing or an equals sign follows its name. -/
def valueOf? : List Char → List Char → Option (Option String)
  | [], [] => some none
  | [], '=' :: value => some (some (String.ofList value))
  | c :: name, d :: rest => if c = d then valueOf? name rest else none
  | _, _ => none

def longForm (fixes : Bool) (name : List Char) : Form :=
  match valueOf? "config".toList name, valueOf? "indent".toList name with
  | some (some value), _ => .table value
  | some none, _ => .tableNext
  | _, some (some value) => .unit value
  | _, some none => .unitNext
  | none, none =>
    match String.ofList name, fixes with
    | "help", _ => .help
    | "diff", true => .flag .diffOnly
    | "unsafe", true => .flag .risky
    | _, _ => .wrong

/-- A hyphen by itself is a path. -/
def form (fixes : Bool) (argument : String) : Form :=
  match argument.toList with
  | ['-', '-'] => .ending
  | '-' :: '-' :: name => longForm fixes name
  | '-' :: 'h' :: _ => .help
  | ['-', 'c'] => .tableNext
  | '-' :: 'c' :: '=' :: value => .table (String.ofList value)
  | '-' :: 'c' :: value => .table (String.ofList value)
  | '-' :: _ :: _ => .wrong
  | _ => .path argument

/-- Whether an argument can be the value of the option before it. -/
def isValue (argument : String) : Bool :=
  match argument.toList with
  | '-' :: _ :: _ => false
  | _ => true

def addPaths (s : Settings) : List String → Outcome
  | [] => .go s
  | path :: rest => (s.addPath path).andThen fun s => addPaths s rest

/-- Read arguments from left to right. The first thing that is wrong counts. -/
def read (fixes : Bool) (s : Settings) : List String → Outcome
  | [] => .go s
  | argument :: rest =>
    match form fixes argument with
    | .ending => addPaths s rest
    | .help => .help
    | .flag flag => (s.raise flag).andThen fun s => read fixes s rest
    | .table value => (s.setTable value).andThen fun s => read fixes s rest
    | .unit value => (s.setUnit value).andThen fun s => read fixes s rest
    | .tableNext =>
      match rest with
      | [] => .wrong
      | value :: rest =>
        if isValue value then (s.setTable value).andThen fun s => read fixes s rest else .wrong
    | .unitNext =>
      match rest with
      | [] => .wrong
      | value :: rest =>
        if isValue value then (s.setUnit value).andThen fun s => read fixes s rest else .wrong
    | .path path => (s.addPath path).andThen fun s => read fixes s rest
    | .wrong => .wrong

/-- At least one path is needed. -/
def request (kind : Settings → CommandKind) (help : String) : Outcome → Request
  | .go s => if s.paths.isEmpty then .wrong else .run ⟨kind s, s.paths, s.table, s.unit⟩
  | .help => .help help
  | .wrong => .wrong

def checkHelp : String :=
  "Check files for indentation errors\n\nUsage: jsindent check [OPTIONS] <PATHS>...\n\n" ++
  "Arguments:\n  <PATHS>...  Paths to check\n\nOptions:\n" ++
  "  -c, --config <CONFIG>  Path to an ESLint JSON config\n" ++
  "      --indent <INDENT>  Indentation unit, overriding the config: a width or `tab`\n" ++
  "  -h, --help             Print help"

def fixHelp : String :=
  "Fix indentation in files\n\nUsage: jsindent fix [OPTIONS] <PATHS>...\n\n" ++
  "Arguments:\n  <PATHS>...  Paths to fix\n\nOptions:\n" ++
  "  -c, --config <CONFIG>  Path to an ESLint JSON config\n" ++
  "      --indent <INDENT>  Indentation unit, overriding the config: a width or `tab`\n" ++
  "      --diff             Show diff without applying fixes\n" ++
  "      --unsafe           Apply unsafe fixes\n" ++
  "  -h, --help             Print help"

def generalHelp : String :=
  "A JavaScript indentation checker with auto-fix support\n\nUsage: jsindent <COMMAND>\n\n" ++
  "Commands:\n  check  Check files for indentation errors\n  fix    Fix indentation in files\n" ++
  "  help   Print this message or the help of the given subcommand(s)\n\n" ++
  "Options:\n  -h, --help  Print help"

def helpHelp : String :=
  "Print this message or the help of the given subcommand(s)\n\nUsage: jsindent help [COMMAND]...\n\n" ++
  "Arguments:\n  [COMMAND]...  Print help for the subcommand(s)"

/-- What the help command prints. -/
def helpOn : List String → Request
  | [] => .help generalHelp
  | ["check"] => .help checkHelp
  | ["fix"] => .help fixHelp
  | ["help"] => .help helpHelp
  | _ => .wrong

/-- The first argument names the command. -/
def parse : List String → Request
  | "check" :: rest => request (fun _ => .check) checkHelp (read false .blank rest)
  | "fix" :: rest => request (fun s => .fix s.diffOnly s.risky) fixHelp (read true .blank rest)
  | "help" :: rest => helpOn rest
  | "--help" :: _ => .help generalHelp
  | argument :: _ =>
    match argument.toList with
    | '-' :: 'h' :: _ => .help generalHelp
    | _ => .wrong
  | [] => .wrong

end Arguments

end Indentation
