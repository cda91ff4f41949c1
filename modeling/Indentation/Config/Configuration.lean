import Indentation.Config.Entry
import Indentation.Config.Overlay
import Indentation.Lint.Linter
import Indentation.Lint.Registry

/-! # Configurations

The table says which rules run and with which options. The overlay says how their findings are
handled. -/

namespace Indentation

structure ConfiguredRule where
  name : String
  options : List Json
  mode : RuleMode

namespace ConfiguredRule

def isEnabled (r : ConfiguredRule) : Bool := r.mode ≠ .disabled

def keepsFixes (r : ConfiguredRule) : Bool := r.mode = .fix

end ConfiguredRule

structure Configuration where
  rules : List ConfiguredRule
  unsafeFixes : Bool
  extensions : List String
  /-- The files that were read. -/
  sources : List String

namespace Configuration

/-- The rule that runs if there is no table. -/
def defaultRule : String := IndentRule.name

def ruleOf (o : Overlay) (name : String) (options : List Json) : ConfiguredRule :=
  ⟨name, options, o.ruleMode name⟩

/-- Every entry of the table has to be good, also one that is off. -/
def rulesOf (o : Overlay) : Option RuleTable → Except EntryError (List ConfiguredRule)
  | none => .ok [ruleOf o defaultRule []]
  | some table => do
    let entries ← table.rules
    return (entries.filter RuleEntry.isEnabled).map fun e => ruleOf o e.name e.options

def of (table : Option RuleTable) (overlay : Option Overlay) : Except EntryError Configuration := do
  let o := overlay.getD .none
  return ⟨← rulesOf o table, o.unsafeFixes, o.extensions, []⟩

def enabledRules (c : Configuration) : List ConfiguredRule :=
  c.rules.filter ConfiguredRule.isEnabled

def rule? (c : Configuration) (name : String) : Option ConfiguredRule :=
  c.rules.find? fun r => r.name == name

def isRuleEnabled (c : Configuration) (name : String) : Bool :=
  (c.rule? name).any ConfiguredRule.isEnabled

def replaceOptions (name : String) (options : List Json) : List ConfiguredRule → List ConfiguredRule
  | [] => [⟨name, options, .fix⟩]
  | r :: rest =>
    if r.name = name then { r with options := options } :: rest
    else r :: replaceOptions name options rest

/-- Replace the options of a rule. A rule that is not there yet comes last, and its findings are
fixed. -/
def override (c : Configuration) (name : String) (options : List Json) : Configuration :=
  { c with rules := replaceOptions name options c.rules }

end Configuration

namespace Linter

/-- A rule that is not known is passed over. -/
def activate (registry : Registry) (r : ConfiguredRule) : Except LintError (Option ActiveRule) :=
  match registry.make? r.name r.options with
  | none => .ok none
  | some (.ok rule) => .ok (some ⟨rule, r.keepsFixes⟩)
  | some (.error cause) => .error (.options r.name cause)

/-- The linter that a configuration asks for. -/
def ofConfiguration (registry : Registry) (c : Configuration) : Except LintError Linter := do
  let active ← c.enabledRules.mapM (activate registry)
  return ⟨active.filterMap id⟩

end Linter

end Indentation
