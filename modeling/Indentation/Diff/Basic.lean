import Indentation.Text.Rows

/-! # Differences of two texts

The rows of the texts are compared one by one. Rows that differ are shown with the equal rows around
them. -/

namespace Indentation.Diff

inductive Line where
  | kept (row : Text)
  | removed (row : Text)
  | added (row : Text)
deriving DecidableEq, Repr

def Line.text : Line → Text
  | .kept row => ' ' :: row
  | .removed row => '-' :: row
  | .added row => '+' :: row

/-- Lines from a row on, counted from 1. While lines come in, the rows of each text that they show and
the equal rows at the end are counted. -/
structure Hunk where
  start : Nat
  lines : List Line
  oldCount : Nat
  newCount : Nat
  trailing : Nat
deriving DecidableEq, Repr

namespace Hunk

def add (h : Hunk) (line : Line) : Hunk :=
  match line with
  | .kept _ => ⟨h.start, h.lines ++ [line], h.oldCount + 1, h.newCount + 1, h.trailing + 1⟩
  | .removed _ => ⟨h.start, h.lines ++ [line], h.oldCount + 1, h.newCount, 0⟩
  | .added _ => ⟨h.start, h.lines ++ [line], h.oldCount, h.newCount + 1, 0⟩

/-- A hunk that begins with equal rows. -/
def opening (start : Nat) (rows : List Text) : Hunk :=
  (rows.map Line.kept).foldl add ⟨start, [], 0, 0, 0⟩

/-- Keep at most so many equal rows at the end. -/
def trim (context : Nat) (h : Hunk) : Hunk :=
  let extra := h.trailing - context
  ⟨h.start, h.lines.take (h.lines.length - extra), h.oldCount - extra, h.newCount - extra,
    h.trailing - extra⟩

def header (h : Hunk) : Text :=
  (s!"@@ -{h.start},{h.oldCount} +{h.start},{h.newCount} @@").toList

def texts (h : Hunk) : List Text := h.header :: h.lines.map Line.text

end Hunk

/-- Equal rows shown around a difference. -/
def context : Nat := 3

/-- The hunks that are complete, the one that is open, and the last equal rows since a difference. -/
structure Scan where
  complete : List Hunk
  opened : Option Hunk
  recent : List Text
deriving DecidableEq, Repr

namespace Scan

def start : Scan := ⟨[], none, []⟩

/-- End the open hunk. -/
def close (s : Scan) : Scan :=
  match s.opened with
  | none => s
  | some h => { s with complete := s.complete ++ [h.trim context], opened := none }

/-- An equal row. A hunk ends when the next one could no longer reach it. -/
def keep (s : Scan) (row : Text) : Scan :=
  let recent := (s.recent ++ [row]).drop (s.recent.length + 1 - context)
  match s.opened with
  | none => { s with recent }
  | some h =>
    let h := h.add (.kept row)
    let s : Scan := { s with opened := some h, recent }
    if 2 * context < h.trailing then s.close else s

/-- Rows that differ, at a place counted from 1. -/
def change (s : Scan) (place : Nat) (old new : Option Text) : Scan :=
  let h := s.opened.getD (.opening (place - s.recent.length) s.recent)
  let lines := (old.map .removed).toList ++ (new.map .added).toList
  { s with opened := some (lines.foldl Hunk.add h), recent := [] }

def run (s : Scan) (place : Nat) : List Text → List Text → Scan
  | [], [] => s
  | old :: olds, [] => (s.change place (some old) none).run (place + 1) olds []
  | [], new :: news => (s.change place none (some new)).run (place + 1) [] news
  | old :: olds, new :: news =>
    let next := if old = new then s.keep old else s.change place (some old) (some new)
    next.run (place + 1) olds news

end Scan

/-- The hunks that lead from one text to another. -/
def hunks (old new : Text) : List Hunk :=
  (Scan.start.run 1 (Text.rows old) (Text.rows new)).close.complete

/-- A diff as it is printed, line by line. -/
def render (path : String) (old new : Text) : List Text :=
  ("--- a/" ++ path).toList :: ("+++ b/" ++ path).toList ::
    (hunks old new).flatMap Hunk.texts

end Indentation.Diff
