import Indentation.Json.Shape
import Indentation.Json.Writer
import Indentation.Options.Basic

/-! # Reading options

Options are a unit and an object of settings, both optional. What is not given keeps its value. -/

namespace Indentation

inductive OptionsError where
  | unit (found : Json)
  | settings (cause : ShapeError)
  | tooMany (count : Nat)

namespace OptionsError

def message : OptionsError → String
  | .unit found => s!"indent unit must be \"tab\" or a non-negative integer, got {found.render}"
  | .settings cause => s!"invalid indent options: {cause.message}"
  | .tooMany count => s!"indent takes at most two options, got {count}"

/-- What went wrong, from the outside in. -/
def causes (e : OptionsError) : List String :=
  match e with
  | .settings cause => [e.message, cause.message]
  | _ => [e.message]

end OptionsError

namespace Options

def readLevels (j : Json) : Except ShapeError Nat :=
  match j with
  | .int n =>
    if 0 ≤ n ∧ n ≤ widthLimit then .ok n.toNat else .error (.outOfRange n "u32")
  | j => .error (.wrongType j "u32")

def readListOffset (j : Json) : Except ShapeError ListOffset :=
  match readLevels j with
  | .ok count => .ok (.levels count)
  | .error _ => if j.isWord "first" then .ok .first else .error (.noVariant "RawListOffset")

def putDeclarator (d : DeclaratorLevels) (field : String) (j : Json) :
    Except ShapeError DeclaratorLevels := do
  match field, ← Json.optional readLevels j with
  | "var", some n => return { d with varLevels := n }
  | "let", some n => return { d with letLevels := n }
  | "const", some n => return { d with constLevels := n }
  | _, _ => return d

def declaratorRecord : Json.Record DeclaratorLevels :=
  ⟨"RawPerKind", ["var", "let", "const"], putDeclarator⟩

/-- One number for all keywords, or a record with one for each. -/
def readDeclarators (d : DeclaratorLevels) (j : Json) : Except ShapeError DeclaratorLevels :=
  match readLevels j with
  | .ok count => .ok (.uniform count)
  | .error _ =>
    match declaratorRecord.read d j with
    | .ok d => .ok d
    | .error _ => .error (.noVariant "RawDeclarator")

def putFunction (f : FunctionOptions) (field : String) (j : Json) :
    Except ShapeError FunctionOptions := do
  match field with
  | "parameters" => return { f with parameters := (← Json.optional readListOffset j) <|> f.parameters }
  | "body" => return { f with body := (← Json.optional readLevels j).getD f.body }
  | _ => return f

def functionRecord : Json.Record FunctionOptions :=
  ⟨"RawFunction", ["parameters", "body"], putFunction⟩

def putCall (offset : Option ListOffset) (field : String) (j : Json) :
    Except ShapeError (Option ListOffset) := do
  match field with
  | "arguments" => return (← Json.optional readListOffset j) <|> offset
  | _ => return offset

def callRecord : Json.Record (Option ListOffset) := ⟨"RawCall", ["arguments"], putCall⟩

/-- Read a value that updates what is there, unless it is null. -/
def update {α : Type} (read : α → Json → Except ShapeError α) (value : α) (j : Json) :
    Except ShapeError α :=
  match j with
  | .null => .ok value
  | j => read value j

def replace {α : Type} (read : Json → Except ShapeError α) (value : α) (j : Json) :
    Except ShapeError α := do
  return (← Json.optional read j).getD value

def putSetting (o : IndentOptions) (field : String) (j : Json) : Except ShapeError IndentOptions := do
  match field with
  | "SwitchCase" => return { o with switchCase := ← replace readLevels o.switchCase j }
  | "VariableDeclarator" => return { o with declarators := ← update readDeclarators o.declarators j }
  | "outerIIFEBody" => return { o with outerCallBody := ← replace readLevels o.outerCallBody j }
  | "MemberExpression" => return { o with member := (← Json.optional readLevels j) <|> o.member }
  | "FunctionDeclaration" =>
    return { o with functionDeclaration := ← update functionRecord.read o.functionDeclaration j }
  | "FunctionExpression" =>
    return { o with functionExpression := ← update functionRecord.read o.functionExpression j }
  | "CallExpression" => return { o with callArguments := ← update callRecord.read o.callArguments j }
  | "ArrayExpression" => return { o with array := ← replace readListOffset o.array j }
  | "ObjectExpression" => return { o with object := ← replace readListOffset o.object j }
  | _ => return o

def settingsRecord : Json.Record IndentOptions where
  name := "RawOptions"
  fields := ["SwitchCase", "VariableDeclarator", "outerIIFEBody", "MemberExpression",
    "FunctionDeclaration", "FunctionExpression", "CallExpression", "ArrayExpression",
    "ObjectExpression"]
  put := putSetting

/-- The unit is the word for tabs or a number of spaces. -/
def readUnit (o : IndentOptions) (j : Json) : Except OptionsError IndentOptions :=
  if j.isWord "tab" then .ok { o with indentChar := .tab, unit := 1 }
  else
    match readLevels j with
    | .ok width => .ok { o with indentChar := .space, unit := width }
    | .error _ => .error (.unit j)

def readSettings (o : IndentOptions) (j : Json) : Except OptionsError IndentOptions :=
  match update settingsRecord.read o j with
  | .ok o => .ok o
  | .error cause => .error (.settings cause)

end Options

namespace IndentOptions

def read (options : List Json) : Except OptionsError IndentOptions :=
  match options with
  | [] => .ok standard
  | [unit] => Options.readUnit standard unit
  | [unit, settings] => do Options.readSettings (← Options.readUnit standard unit) settings
  | options => .error (.tooMany options.length)

end IndentOptions

end Indentation
