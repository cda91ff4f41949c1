import Indentation.Config.Configuration
import Indentation.Files.Tree

/-! # Finding a configuration -/

namespace Indentation

/-- Why there is no configuration. -/
inductive ConfigError where
  | tableUnreadable (cause : ReadError)
  | badTable
  | badEntry (cause : EntryError)
  | overlayUnreadable (cause : ReadError)
  | badOverlay
  | notFound (path : String)

namespace ConfigError

/-- What went wrong, from the outside in. -/
def causes : ConfigError → List String
  | .tableUnreadable cause =>
    let inner := "Failed to read config file: " ++ cause.message
    ["ESLint config error: " ++ inner, inner, cause.message]
  | .badTable => ["ESLint config error: Failed to parse JSON", "Failed to parse JSON"]
  | .badEntry cause => ["ESLint config error: " ++ cause.message, cause.message]
  | .overlayUnreadable cause =>
    let inner := "Failed to read config file: " ++ cause.message
    ["jsindent.toml error: " ++ inner, inner, cause.message]
  | .badOverlay => ["jsindent.toml error: Failed to parse TOML", "Failed to parse TOML"]
  | .notFound path => ["ESLint config not found: " ++ path]

def message (e : ConfigError) : String := e.causes.headD ""

end ConfigError

/-- Where a configuration is looked for. -/
structure Loader where
  /-- The table that was asked for. -/
  tablePath : Option String
  overlayPath : Option String
  /-- The table that was found. It counts only if nothing else names one. -/
  foundTable : Option String
deriving Repr

namespace Loader

def start : Loader := ⟨none, none, none⟩

def withTable (l : Loader) (path : String) : Loader := { l with tablePath := some path }

def withOverlay (l : Loader) (path : String) : Loader := { l with overlayPath := some path }

/-- The first of some names that a directory holds. -/
def firstHeld? (t : FileTree) (directory : String) (names : List String) : Option String :=
  (names.map (Path.join directory)).find? t.holds

/-- Look for an overlay in a directory, unless there is one already. -/
def findOverlay (l : Loader) (t : FileTree) (directory : String) : Loader :=
  match l.overlayPath with
  | some _ => l
  | none => { l with overlayPath := firstHeld? t directory ["jsindent.toml", ".jsindent.toml"] }

/-- Look for a table in a directory. What was found before no longer counts. -/
def findTable (l : Loader) (t : FileTree) (directory : String) : Loader :=
  { l with foundTable := firstHeld? t directory [".eslintrc.json", ".eslintrc"] }

def readOverlay (t : FileTree) (path : String) : Except ConfigError Overlay :=
  match t.read path with
  | .error cause => .error (.overlayUnreadable cause)
  | .ok text =>
    match Overlay.read? text with
    | some overlay => .ok overlay
    | none => .error .badOverlay

def readTable (t : FileTree) (path : String) : Except ConfigError RuleTable :=
  if t.holds path then
    match t.read path with
    | .error cause => .error (.tableUnreadable cause)
    | .ok text =>
      match RuleTable.read? text with
      | some table => .ok table
      | none => .error .badTable
  else .error (.notFound path)

/-- Read a path if there is one. -/
def readEach {α : Type} (read : String → Except ConfigError α) :
    Option String → Except ConfigError (Option α)
  | none => .ok none
  | some path => (read path).map some

/-- An overlay that is not there is passed over. A table has to be there: it is the one asked for,
else the one that the overlay names, else the one found. -/
def load (l : Loader) (t : FileTree) : Except ConfigError Configuration := do
  let overlayPath := l.overlayPath.filter t.holds
  let overlay ← readEach (readOverlay t) overlayPath
  let tablePath := (l.tablePath.or (overlay.bind Overlay.rulesPath)).or l.foundTable
  let table ← readEach (readTable t) tablePath
  match Configuration.of table overlay with
  | .error cause => .error (.badEntry cause)
  | .ok c => return { c with sources := overlayPath.toList ++ tablePath.toList }

end Loader

end Indentation
