import Indentation.Text.Range

/-! # Edits and fixes -/

namespace Indentation

/-- Replace a range by a content, or delete it. -/
structure Edit where
  range : Range
  content : Option Text
deriving DecidableEq, Repr

namespace Edit

def insertion (content : Text) (offset : Nat) : Edit := ⟨.point offset, some content⟩

def deletion (range : Range) : Edit := ⟨range, none⟩

/-- Replacing by nothing is deleting. -/
def replacement (content : Text) (range : Range) : Edit :=
  if content.isEmpty then deletion range else ⟨range, some content⟩

def isInsertion (e : Edit) : Bool := e.range.isEmpty && e.content.isSome

def isDeletion (e : Edit) : Bool := e.content.isNone

/-- The text with one edit carried out. -/
def apply (text : Text) (e : Edit) : Except Fault Text := do
  let (upTo, after) ← Text.split text e.range.stop
  let (before, _) ← Text.split upTo e.range.start
  return before ++ e.content.getD [] ++ after

/-- Carry out edits one after the other, each on the text that the one before it left. -/
def applyAll (text : Text) (edits : List Edit) : Except Fault Text :=
  edits.foldlM apply text

/-- Whether an edit can join edits that all start at or after its own start. -/
def clearOf (kept : List Edit) (e : Edit) : Bool :=
  kept.all fun k => e.range.stop ≤ k.range.start

/-- Order edits from the end of the text to its start and drop each one that reaches into an edit
kept before it. -/
def select (edits : List Edit) : List Edit :=
  let ordered := edits.mergeSort fun a b => b.range.start ≤ a.range.start
  ordered.foldl (fun kept e => if clearOf kept e then kept ++ [e] else kept) []

end Edit

/-- How sure it is that a fix keeps the meaning of the program. -/
inductive Applicability where
  | risky
  | safe
deriving DecidableEq, Repr

namespace Applicability

/-- A safe fix may be applied at either level, a risky one only when risky fixes are asked for. -/
def allowedAt : Applicability → Applicability → Bool
  | .safe, _ => true
  | .risky, requested => requested == .risky

end Applicability

/-- Edits that are made together. -/
structure Fix where
  edits : List Edit
  applicability : Applicability
deriving DecidableEq, Repr

namespace Fix

def applies (fix : Fix) (requested : Applicability) : Bool :=
  fix.applicability.allowedAt requested

end Fix

end Indentation
