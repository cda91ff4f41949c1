import Indentation.Files.Path
import Indentation.Text.Basic

/-! # Files in a directory -/

namespace Indentation

inductive Content where
  /-- A text, and how many rounds of edits were written to it. -/
  | text (text : Text) (rounds : Nat)
  /-- Bytes that are no text. -/
  | bytes
  | directory
deriving DecidableEq, Repr

/-- Why a file cannot be read. -/
inductive ReadError where
  | notText
  | isDirectory
deriving DecidableEq, Repr

namespace ReadError

def message : ReadError → String
  | .notText => "stream did not contain valid UTF-8"
  | .isDirectory => "Is a directory (os error 21)"

end ReadError

/-- The names that lead from the home directory to a file. -/
abbrev Location := List String

/-- The files below a home directory. A directory that holds a file need not be listed. -/
structure FileTree where
  home : String
  entries : List (Location × Content)
deriving Repr

namespace FileTree

/-- What is left of a location behind a directory. -/
def below? : Location → Location → Option Location
  | [], rest => some rest
  | a :: as, b :: bs => if a = b then below? as bs else none
  | _ :: _, [] => none

def contentAt? (t : FileTree) (place : Location) : Option Content :=
  match t.entries.lookup place with
  | some content => some content
  | none =>
    if place = [] ∨ t.entries.any fun e => (below? place e.1).isSome then some .directory else none

def isDirectoryAt (t : FileTree) (place : Location) : Bool :=
  t.contentAt? place == some .directory

/-- One step of a path. Only a directory leads on, and nothing leads out of the home directory. -/
def step? (t : FileTree) (place : Location) (segment : String) : Option Location :=
  if t.isDirectoryAt place then
    match segment with
    | "" | "." => some place
    | ".." => if place = [] then none else some place.dropLast
    | name => if (t.contentAt? (place ++ [name])).isSome then some (place ++ [name]) else none
  else none

/-- The part of a path behind the home directory. -/
def relative? (t : FileTree) (path : String) : Option (List String) :=
  if Path.isAbsolute path || path.startsWith t.home then
    below? (Path.segments t.home) (Path.segments path)
  else if path.isEmpty then none
  else some (Path.segments path)

/-- Where a path leads. -/
def locate? (t : FileTree) (path : String) : Option Location := do
  (← t.relative? path).foldlM t.step? []

def find? (t : FileTree) (path : String) : Option Content := do
  t.contentAt? (← t.locate? path)

def holds (t : FileTree) (path : String) : Bool := (t.find? path).isSome

/-- The text of a path that leads somewhere. -/
def read (t : FileTree) (path : String) : Except ReadError Text :=
  match t.find? path with
  | some (.text text _) => .ok text
  | some .bytes => .error .notText
  | _ => .error .isDirectory

/-- The rounds of edits that a file has seen. -/
def roundsAt (t : FileTree) (place : Location) : Nat :=
  match t.contentAt? place with
  | some (.text _ rounds) => rounds
  | _ => 0

/-- Replace the text of a file after some more rounds of edits. -/
def write (t : FileTree) (place : Location) (text : Text) (rounds : Nat) : FileTree :=
  { t with
    entries := t.entries.map fun e =>
      if e.1 = place then (e.1, .text text (t.roundsAt place + rounds)) else e }

/-- The files below a directory. -/
def filesBelow (t : FileTree) (place : Location) : List Location :=
  t.entries.filterMap fun e =>
    match below? place e.1, e.2 with
    | some (name :: names), .text .. | some (name :: names), .bytes => some (name :: names)
    | _, _ => none

/-- The paths that a path stands for: itself, or the files below it with a wanted extension. A path
that leads nowhere stands for none. -/
def expand? (t : FileTree) (extensions : List String) (path : String) : Option (List String) := do
  let place ← t.locate? path
  match ← t.contentAt? place with
  | .directory =>
    let paths := (t.filesBelow place).map fun names => names.foldl Path.join path
    return paths.filter fun path => (Path.extension? path).any extensions.contains
  | _ => return [path]

end FileTree

end Indentation
