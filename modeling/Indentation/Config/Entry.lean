import Indentation.Json.Reader
import Indentation.Json.Writer

/-! # Rule entries -/

namespace Indentation

inductive Severity where
  | off
  | warn
  | error
deriving DecidableEq, Repr

namespace Severity

/-- A severity is given by its name or its number. -/
def read? : Json → Option Severity
  | .str "off" | .int 0 => some .off
  | .str "warn" | .int 1 => some .warn
  | .str "error" | .int 2 => some .error
  | _ => none

end Severity

/-- Why an entry cannot be read. -/
inductive EntryError where
  | severity (rule : String) (found : Json)
  | empty (rule : String)

namespace EntryError

def message : EntryError → String
  | .severity rule found => s!"Rule '{rule}': invalid severity {found.render}"
  | .empty rule => s!"Rule '{rule}': expected a severity or an array starting with one"

end EntryError

/-- A rule, how severe its findings are, and its options. -/
structure RuleEntry where
  name : String
  severity : Severity
  options : List Json

namespace RuleEntry

def ofSeverity (name : String) (severity : Json) (options : List Json) :
    Except EntryError RuleEntry :=
  match Severity.read? severity with
  | some s => .ok ⟨name, s, options⟩
  | none => .error (.severity name severity)

/-- An entry is a severity, or an array of one and of options. -/
def read (name : String) : Json → Except EntryError RuleEntry
  | .arr [] => .error (.empty name)
  | .arr (severity :: options) => ofSeverity name severity options
  | severity => ofSeverity name severity []

def isEnabled (e : RuleEntry) : Bool := e.severity ≠ .off

end RuleEntry

/-- The rules that a configuration file names, in the order of their names. Entries are read when
they are asked for. -/
structure RuleTable where
  entries : List (String × Json)

namespace RuleTable

def rules (t : RuleTable) : Except EntryError (List RuleEntry) :=
  t.entries.mapM fun (name, value) => RuleEntry.read name value

def rule? (t : RuleTable) (name : String) : Except EntryError (Option RuleEntry) :=
  match t.entries.lookup name with
  | none => .ok none
  | some value => (RuleEntry.read name value).map some

open Json Reader

/-- The value of the member with the rules, which has to be an object. -/
def section? (inner : Keep) (text : Text) : Option (List (String × Json) × Text) := do
  let (value, rest) ← Reader.value inner text
  match value with
  | .obj members => return (members, rest)
  | _ => none

/-- The members of the top level. The one with the rules may come once, and the others are
skipped. -/
def topLevel? (inner : Keep) : Nat → Option (List (String × Json)) → Text →
    Option (List (String × Json) × Text)
  | 0, _, _ => none
  | fuel + 1, found, text =>
    match skipBlanks text with
    | '"' :: rest => do
      let (name, rest) ← stringTail inner (Reader.steps rest) [] rest
      match skipBlanks rest with
      | ':' :: rest =>
        let (found, rest) ←
          if name = "rules" then
            if found.isSome then none
            else (section? inner rest).map fun (members, rest) => (some members, rest)
          else (Reader.value .skipped rest).map fun (_, rest) => (found, rest)
        match skipBlanks rest with
        | ',' :: rest => topLevel? inner fuel found rest
        | '\x7d' :: rest => return (found.getD [], rest)
        | _ => none
      | _ => none
    | _ => none

/-- The top level is an object, or an array with at most the object of rules in it. -/
def members? (text : Text) : Option (List (String × Json) × Text) := do
  let inner ← (Keep.kept levelLimit).descend?
  match skipBlanks text with
  | '\x7b' :: rest =>
    match skipBlanks rest with
    | '\x7d' :: rest => return ([], rest)
    | rest => topLevel? inner (rest.length + 1) none rest
  | '[' :: rest =>
    match skipBlanks rest with
    | ']' :: rest => return ([], rest)
    | rest =>
      let (members, rest) ← section? inner rest
      match skipBlanks rest with
      | ']' :: rest => return (members, rest)
      | _ => none
  | _ => none

def read? (text : Text) : Option RuleTable := (Reader.whole? (members? text)).map RuleTable.mk

end RuleTable

end Indentation
