import Indentation.Toml.Reader

/-! # The overlay: how findings are handled -/

namespace Indentation

/-- How the findings of a rule are handled. -/
inductive RuleMode where
  /-- Reported and fixed. -/
  | fix
  /-- Only reported. -/
  | check
  /-- The rule does not run. -/
  | disabled
deriving DecidableEq, Repr

namespace RuleMode

/-- Lower case as far as mode names go: besides the ASCII capitals, only the kelvin sign is the
capital of an ASCII letter. -/
def lower (c : Char) : Char := if c = '\u212a' then 'k' else c.toLower

def read? (name : String) : Option RuleMode :=
  match String.ofList (name.toList.map lower) with
  | "fix" => some .fix
  | "check" => some .check
  | "disabled" | "disable" | "off" => some .disabled
  | _ => none

end RuleMode

structure Overlay where
  unsafeFixes : Bool
  modes : List (String × RuleMode)
  /-- The path of the file with the rules. -/
  rulesPath : Option String
  extensions : List String
deriving DecidableEq, Repr

namespace Overlay

/-- Nothing is overlaid. -/
def none : Overlay := ⟨false, [], Option.none, ["js", "mjs", "cjs", "jsx"]⟩

def ruleMode (o : Overlay) (rule : String) : RuleMode := (o.modes.lookup rule).getD .fix

def isRuleEnabled (o : Overlay) (rule : String) : Bool := o.ruleMode rule ≠ .disabled

open Toml

def mode? : String × Value → Option (String × RuleMode)
  | (rule, .str name) => (RuleMode.read? name).map (rule, ·)
  | _ => .none

def extension? : Value → Option String
  | .str s => some s
  | _ => .none

/-- Put a setting of a section into its place. Settings without a place are passed over. -/
def put (o : Overlay) (section_ field : String) (v : Value) : Option Overlay :=
  match section_, field, v with
  | "fix", "unsafe_fixes", .bool b => some { o with unsafeFixes := b }
  | "fix", "unsafe_fixes", _ => .none
  | "fix", "rules", .table t => do return { o with modes := ← t.entries.mapM mode? }
  | "fix", "rules", _ => .none
  | "eslint", "config", .str s => some { o with rulesPath := some s }
  | "eslint", "config", _ => .none
  | "files", "extensions", .arr items => do return { o with extensions := ← items.mapM extension? }
  | "files", "extensions", _ => .none
  | _, _, _ => some o

def putItems (o : Overlay) (section_ : String) : List String → List Value → Option Overlay
  | field :: fields, v :: rest => do putItems (← o.put section_ field v) section_ fields rest
  | _, _ => some o

/-- A section is a table, or an array of the settings in order. -/
def putSection (o : Overlay) (section_ : String) (fields : List String) (required : Nat) :
    Value → Option Overlay
  | .table t => t.entries.foldlM (fun o (field, v) => o.put section_ field v) o
  | .arr items => if items.length < required then .none else o.putItems section_ fields items
  | .tables items => o.putItems section_ fields (items.map .table)
  | _ => .none

def putEntry (o : Overlay) : String × Value → Option Overlay
  | ("fix", v) => o.putSection "fix" ["unsafe_fixes", "rules"] 0 v
  | ("eslint", v) => o.putSection "eslint" ["config"] 1 v
  | ("files", v) => o.putSection "files" ["extensions"] 0 v
  | _ => some o

def read? (text : Text) : Option Overlay := do
  let t ← Toml.read? text
  if t.representable then t.entries.foldlM putEntry none else .none

end Overlay

end Indentation
