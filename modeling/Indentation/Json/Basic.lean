import Indentation.Decimal.Shortest

/-! # JSON values -/

namespace Indentation

/-- A JSON value. The members of an object are in the order of their names, each name once. -/
inductive Json where
  | null
  | bool (value : Bool)
  /-- A whole number that was written as one and fits 64 bits, signed or not. -/
  | int (value : Int)
  | float (value : Binary64)
  | str (value : String)
  | arr (items : List Json)
  | obj (members : List (String × Json))
deriving Repr, Inhabited

namespace Json

/-- Put a member in its place. A name that is there already gets the new value. -/
def insert (members : List (String × Json)) (name : String) (value : Json) :
    List (String × Json) :=
  match members with
  | [] => [(name, value)]
  | (other, old) :: rest =>
    if name = other then (name, value) :: rest
    else if name < other then (name, value) :: (other, old) :: rest
    else (other, old) :: insert rest name value

def ofMembers (members : List (String × Json)) : Json :=
  .obj (members.foldl (fun sorted (name, value) => insert sorted name value) [])

def member? : Json → String → Option Json
  | .obj members, name => members.lookup name
  | _, _ => none

end Json

end Indentation
