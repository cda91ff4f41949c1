/-! # Paths -/

namespace Indentation.Path

/-- The parts of a path between slashes. -/
def splitSlashes : List Char → List (List Char)
  | [] => [[]]
  | '/' :: rest => [] :: splitSlashes rest
  | c :: rest =>
    match splitSlashes rest with
    | [] => [[c]]
    | part :: parts => (c :: part) :: parts

def segments (path : String) : List String := (splitSlashes path.toList).map String.ofList

inductive Component where
  | root
  | current
  | parent
  | name (text : String)
deriving DecidableEq, Repr

namespace Component

def rank : Component → Nat
  | .root => 0
  | .current => 1
  | .parent => 2
  | .name _ => 3

def precedes : Component → Component → Bool
  | .name a, .name b => a < b
  | a, b => a.rank < b.rank

/-- A segment that says nothing has no component. -/
def ofSegment? : String → Option Component
  | "" | "." => none
  | ".." => some .parent
  | s => some (.name s)

end Component

/-- What a path says step by step. A dot counts only at its beginning. -/
def components (path : String) : List Component :=
  let parts := segments path
  let start :=
    match parts with
    | "" :: _ :: _ => [.root]
    | "." :: _ => [.current]
    | _ => []
  start ++ parts.filterMap Component.ofSegment?

def isAbsolute (path : String) : Bool := path.startsWith "/"

/-- The path of a name within a directory. -/
def join (directory name : String) : String :=
  if isAbsolute name || directory.isEmpty then name
  else if directory.endsWith "/" then directory ++ name
  else directory ++ "/" ++ name

/-- What follows the last dot of a name, unless the name begins with that dot. -/
def extensionOf? (name : List Char) : Option (List Char) :=
  let after := name.reverse.takeWhile (· ≠ '.')
  match name.reverse.drop after.length with
  | _ :: _ :: _ => some after.reverse
  | _ => none

def extension? (path : String) : Option String :=
  match (components path).getLast? with
  | some (.name s) => (extensionOf? s.toList).map String.ofList
  | _ => none

/-- Paths are ordered by their components. -/
def atMost : List Component → List Component → Bool
  | [], _ => true
  | _ :: _, [] => false
  | a :: as, b :: bs => a.precedes b || (a == b && atMost as bs)

def dropRepeats : List String → List String
  | [] => []
  | path :: rest =>
    match dropRepeats rest with
    | [] => [path]
    | next :: later =>
      if components path = components next then path :: later else path :: next :: later

/-- Sort paths, and keep the first of those that say the same. -/
def arrange (paths : List String) : List String :=
  dropRepeats (paths.mergeSort fun a b => atMost (components a) (components b))

end Indentation.Path
