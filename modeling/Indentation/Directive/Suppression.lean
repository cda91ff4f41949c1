import Indentation.Directive.Basic
import Indentation.Token.Stream

/-! # Suppressed regions -/

namespace Indentation

/-- A rule, or every rule, is off from `start` up to `stop`. The end may lie one byte behind the text, so
it is an offset only if the text is shorter than the largest one. -/
structure Region where
  rule : Text
  start : Nat
  stop : Nat
deriving DecidableEq, Repr

namespace Region

def contains (r : Region) (offset : Nat) : Bool := r.start ≤ offset && offset < r.stop

end Region

/-- The regions that the directives of a text suppress. -/
structure Suppression where
  regions : List Region
deriving DecidableEq, Repr

namespace Suppression

/-- Rules that are off and since where, and the regions that are complete. -/
structure State where
  since : List (Text × Nat)
  regions : List Region
deriving DecidableEq, Repr

namespace State

/-- A rule that is off already stays off from where it was. -/
def disable (start : Nat) (s : State) (rule : Text) : State :=
  if (s.since.lookup rule).isSome then s else { s with since := s.since ++ [(rule, start)] }

def enable (stop : Nat) (s : State) (rule : Text) : State :=
  match s.since.lookup rule with
  | none => s
  | some start =>
    ⟨s.since.filter fun entry => entry.1 ≠ rule, s.regions ++ [⟨rule, start, stop⟩]⟩

def suppress (start stop : Nat) (s : State) (rule : Text) : State :=
  { s with regions := s.regions ++ [⟨rule, start, stop⟩] }

/-- Follow the directive of a comment that starts at an offset. A region on a line takes the end of
the line in. -/
def follow (s : State) (source : Text) (lines : Lines) (start : Nat) (d : Directive) : State :=
  match d.action with
  | .disable => d.rules.foldl (disable start) s
  | .enable =>
    let closing := if d.rules = [Directive.everyRule] then s.since.map Prod.fst else d.rules
    closing.foldl (enable start) s
  | .disableLine =>
    let line := lines.lineOf start
    d.rules.foldl (suppress (lines.lineStart source line) (lines.lineEnd source line + 1)) s
  | .disableNextLine =>
    let line := lines.lineOf start + 1
    d.rules.foldl (suppress (lines.lineStart source line) (lines.lineEnd source line + 1)) s

/-- Read a comment. Most are no directives. -/
def read (tokens : TokenStream) (lines : Lines) (s : State) (id : Nat) : State :=
  let t := tokens.token id
  match Directive.ofComment? t.kind t.text with
  | some d => s.follow tokens.source lines t.start d
  | none => s

/-- What is still off at the end stays off up to the end of the text. -/
def close (stop : Nat) (s : State) : List Region :=
  s.regions ++ s.since.map fun (rule, start) => ⟨rule, start, stop⟩

end State

def ofTokens (tokens : TokenStream) : Suppression :=
  let lines := Lines.of tokens.source
  let last := tokens.commentIds.foldl (State.read tokens lines) ⟨[], []⟩
  ⟨last.close (Text.size tokens.source + 1)⟩

/-- Whether a rule is off at an offset, by its own name or with every rule. -/
def holds (s : Suppression) (rule : Text) (offset : Nat) : Bool :=
  s.regions.any fun r => (r.rule = rule || r.rule = Directive.everyRule) && r.contains offset

def isEmpty (s : Suppression) : Bool := s.regions.isEmpty

end Suppression

end Indentation
