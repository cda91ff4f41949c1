import Indentation.Json.Basic
import Indentation.Text.Quoted

/-! # Values of a given shape -/

namespace Indentation

/-- Why a JSON value does not have the shape it should have. -/
inductive ShapeError where
  | unknownField (name : String) (expected : List String)
  | wrongType (found : Json) (expected : String)
  | outOfRange (found : Int) (expected : String)
  | wrongLength (found : Nat) (expected : String)
  | noVariant (name : String)

namespace ShapeError

/-- What a value is called where another was expected. -/
def foundText : Json → String
  | .null => "null"
  | .bool true => "boolean `true`"
  | .bool false => "boolean `false`"
  | .int n => s!"integer `{n}`"
  | .float x => s!"floating point `{x.text}`"
  | .str s => s!"string {String.ofList (Text.quoted s.toList)}"
  | .arr _ => "sequence"
  | .obj _ => "map"

def codeText (name : String) : String := s!"`{name}`"

/-- A list of names to choose from. -/
def choiceText (names : List String) : String :=
  match names with
  | [a] => codeText a
  | [a, b] => s!"{codeText a} or {codeText b}"
  | names => "one of " ++ String.intercalate ", " (names.map codeText)

def message : ShapeError → String
  | .unknownField name expected =>
    s!"unknown field {codeText name}, expected {choiceText expected}"
  | .wrongType found expected => s!"invalid type: {foundText found}, expected {expected}"
  | .outOfRange found expected => s!"invalid value: integer `{found}`, expected {expected}"
  | .wrongLength found expected => s!"invalid length {found}, expected {expected}"
  | .noVariant name => s!"data did not match any variant of untagged enum {name}"

end ShapeError

namespace Json

/-- Null stands for a value that is not given. -/
def optional {α : Type} (read : Json → Except ShapeError α) (j : Json) :
    Except ShapeError (Option α) :=
  match j with
  | .null => .ok none
  | j => (read j).map some

/-- A word may stand alone or as the one name of an object, with null under it. -/
def isWord (word : String) : Json → Bool
  | .str s => s == word
  | .obj [(name, .null)] => name == word
  | _ => false

/-- A record: its name, its fields in order, and how the value of a field is put into it. -/
structure Record (α : Type) where
  name : String
  fields : List String
  put : α → String → Json → Except ShapeError α

namespace Record

variable {α : Type}

def title (r : Record α) : String := s!"struct {r.name}"

def lengthText (r : Record α) : String :=
  match r.fields with
  | [_] => s!"{r.title} with 1 element"
  | fields => s!"{r.title} with {fields.length} elements"

def putMember (r : Record α) (value : α) (member : String × Json) : Except ShapeError α :=
  if r.fields.contains member.1 then r.put value member.1 member.2
  else .error (.unknownField member.1 r.fields)

/-- Put the items of an array into the fields from a given one on. -/
def putItems (r : Record α) (value : α) (count : Nat) : List String → List Json → Except ShapeError α
  | [], [] => .ok value
  | [], items => .error (.wrongLength (count + items.length) "fewer elements in array")
  | _ :: _, [] => .error (.wrongLength count r.lengthText)
  | field :: fields, item :: items => do
    putItems r (← r.put value field item) (count + 1) fields items

/-- A record is given as an object, or as an array of all its fields. -/
def read (r : Record α) (value : α) : Json → Except ShapeError α
  | .obj members => members.foldlM r.putMember value
  | .arr items => r.putItems value 0 r.fields items
  | j => .error (.wrongType j r.title)

end Record

end Json

end Indentation
