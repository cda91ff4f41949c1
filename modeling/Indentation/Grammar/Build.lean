import Indentation.Grammar.Piece

/-! # Building trees

A part of a tree under construction is a list of nodes: comments that belong further out, then the
node itself. -/

namespace Indentation.Grammar

/-- What was built, and the pieces after it. -/
abbrev Parsed := Option (List Node × List Piece)

def leaf (kind : String) (named : Bool) (p : Piece) : Node :=
  .mk ⟨kind, p.range, named, false, false, false, false, none⟩ []

/-- A leaf that is only named by its text. -/
def token (p : Piece) : List Node := p.comments ++ [leaf (String.ofList p.text) false p]

def term (kind : String) (p : Piece) : List Node := p.comments ++ [leaf kind true p]

/-- A node around its parts. Comments before the first part stay outside. -/
def group (kind : String) (parts : List Node) : List Node :=
  let outside := parts.takeWhile Node.extra
  match parts.dropWhile Node.extra with
  | [] => outside
  | first :: rest =>
    let last := (first :: rest).getLastD first
    outside ++
      [.mk ⟨kind, first.range.cover last.range, true, false, false, false, false, none⟩
        (first :: rest)]

def setField (field : String) : Node → Node
  | .mk label children => .mk { label with field := some field } children

/-- Let what was built play a part in its parent. -/
def asField (field : String) : List Node → List Node
  | [] => []
  | [n] => [setField field n]
  | n :: rest => n :: asField field rest

/-- Let everything that was built play a part, comments aside. -/
def eachAsField (field : String) (nodes : List Node) : List Node :=
  nodes.map fun n => if n.extra then n else setField field n

/-- The next piece has to be a certain word or mark. -/
def take? (key : String) : List Piece → Parsed
  | p :: rest => if p.key = key then some (token p, rest) else none
  | [] => none

def nextIs (key : String) : List Piece → Bool
  | p :: _ => p.key == key
  | [] => false

/-- Words that name nothing. -/
def reserved : List String :=
  ["var", "const", "function", "if", "else", "for", "while", "do", "return", "break", "continue",
    "switch", "case", "default", "throw", "new", "typeof", "void", "delete", "in", "instanceof",
    "this", "null", "true", "false", "class", "import", "export", "try", "catch", "finally", "with",
    "debugger", "yield", "await", "super", "async", "static"]

def isName (p : Piece) : Bool := p.form == .word && !reserved.contains p.key

def name? (kind : String) : List Piece → Parsed
  | p :: rest => if isName p then some (term kind p, rest) else none
  | [] => none

/-- The end of a statement: a semicolon, or nothing where the line or the block ends. -/
def ending? : List Piece → Parsed
  | [] => some ([], [])
  | p :: rest =>
    if p.key = ";" then some (token p, rest)
    else if p.fresh || p.key = "\x7d" then some ([], p :: rest)
    else none

/-- Whether what was built is an array or an object. To assign to one is not of the core language. -/
def isLiteral (built : List Node) : Bool :=
  (built.getLast?.map Node.kind).any fun kind => kind == "array" || kind == "object"

/-- How tight a binary operator binds. -/
def tightness? : String → Option Nat
  | "??" => some 1
  | "||" => some 2
  | "&&" => some 3
  | "|" => some 4
  | "^" => some 5
  | "&" => some 6
  | "==" | "!=" | "===" | "!==" => some 7
  | "<" | ">" | "<=" | ">=" | "in" | "instanceof" => some 8
  | "<<" | ">>" | ">>>" => some 9
  | "+" | "-" => some 10
  | "*" | "/" | "%" => some 11
  | "**" => some 12
  | _ => none

/-- An operator that takes its right operand as far as it goes stays as tight on that side. -/
def rightTightness (operator : String) (tightness : Nat) : Nat :=
  if operator = "**" then tightness else tightness + 1

def assignsWith (key : String) : Bool :=
  ["+=", "-=", "*=", "/=", "%=", "&=", "|=", "^=", "<<=", ">>=", ">>>=", "**=", "&&=", "||=",
    "??="].contains key

def isPrefix (key : String) : Bool := ["!", "~", "+", "-", "typeof", "void", "delete"].contains key

/-- Whether the parenthesis that closes the open ones is followed by an arrow. -/
def arrowAfter : Nat → List Piece → Bool
  | _, [] => false
  | depth, p :: rest =>
    match p.key, depth with
    | "(", _ => arrowAfter (depth + 1) rest
    | ")", 0 => false
    | ")", 1 => nextIs "=>" rest
    | ")", depth + 1 => arrowAfter depth rest
    | _, _ => arrowAfter depth rest

/-- Whether an arrow function comes next. -/
def arrowNext : List Piece → Bool
  | p :: rest => if p.key = "(" then arrowAfter 1 rest else isName p && nextIs "=>" rest
  | [] => false

end Indentation.Grammar
