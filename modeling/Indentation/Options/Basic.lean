/-! # Options of the indentation rule -/

namespace Indentation

/-- The largest number of levels or characters. Larger ones stay at it. -/
def widthLimit : Nat := 4294967295

/-- The character that lines are indented with. -/
inductive IndentChar where
  | space
  | tab
deriving DecidableEq, Repr

namespace IndentChar

def char : IndentChar → Char
  | .space => ' '
  | .tab => '\t'

def name : IndentChar → String
  | .space => "space"
  | .tab => "tab"

end IndentChar

/-- Where the elements of a list stand. -/
inductive ListOffset where
  /-- So many levels in from the opening delimiter. -/
  | levels (count : Nat)
  /-- In the column of the first element. -/
  | first
deriving DecidableEq, Repr

/-- The keyword of a declaration. -/
inductive DeclarationKeyword where
  | varKeyword
  | letKeyword
  | constKeyword
deriving DecidableEq, Repr

structure DeclaratorLevels where
  varLevels : Nat
  letLevels : Nat
  constLevels : Nat
deriving DecidableEq, Repr

namespace DeclaratorLevels

def uniform (levels : Nat) : DeclaratorLevels := ⟨levels, levels, levels⟩

def of (d : DeclaratorLevels) : DeclarationKeyword → Nat
  | .varKeyword => d.varLevels
  | .letKeyword => d.letLevels
  | .constKeyword => d.constLevels

end DeclaratorLevels

structure FunctionOptions where
  /-- Without an offset, parameters may stand anywhere. -/
  parameters : Option ListOffset
  body : Nat
deriving DecidableEq, Repr

structure IndentOptions where
  indentChar : IndentChar
  /-- Characters that make a level. -/
  unit : Nat
  switchCase : Nat
  declarators : DeclaratorLevels
  /-- Levels of the body of a function that the program calls where it defines it. -/
  outerCallBody : Nat
  /-- Without levels, a member access may stand anywhere. -/
  member : Option Nat
  functionDeclaration : FunctionOptions
  functionExpression : FunctionOptions
  /-- Without an offset, arguments may stand anywhere. -/
  callArguments : Option ListOffset
  array : ListOffset
  object : ListOffset
deriving DecidableEq, Repr

namespace IndentOptions

/-- Four spaces a level, one level almost everywhere. -/
def standard : IndentOptions where
  indentChar := .space
  unit := 4
  switchCase := 0
  declarators := .uniform 1
  outerCallBody := 1
  member := none
  functionDeclaration := ⟨none, 1⟩
  functionExpression := ⟨none, 1⟩
  callArguments := none
  array := .levels 1
  object := .levels 1

end IndentOptions

end Indentation
