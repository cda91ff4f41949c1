import Indentation.Lint.Indent

/-! # Rules by name -/

namespace Indentation

/-- How to make a rule from its options, for each name that is known. -/
structure Registry where
  makers : List (String × (List Json → Except OptionsError Rule))

namespace Registry

def standard : Registry := ⟨[(IndentRule.name, IndentRule.read)]⟩

def maker? (r : Registry) (name : String) : Option (List Json → Except OptionsError Rule) :=
  r.makers.lookup name

def knows (r : Registry) (name : String) : Bool := (r.maker? name).isSome

def make? (r : Registry) (name : String) (options : List Json) :
    Option (Except OptionsError Rule) :=
  (r.maker? name).map fun make => make options

end Registry

end Indentation
