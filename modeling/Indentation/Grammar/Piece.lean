import Indentation.Text.Blank
import Indentation.Text.Letter
import Indentation.Tree.Node

/-! # Pieces of a text

A text of the core language is cut into words, numbers, strings, templates and marks. Comments stay
with the piece after them. -/

namespace Indentation

inductive PieceForm where
  | word
  | number
  | string
  | template
  | mark
deriving DecidableEq, Repr

/-- A piece, the comments before it, and whether a line ends before it. -/
structure Piece where
  form : PieceForm
  text : Text
  range : Range
  comments : List Node
  fresh : Bool
deriving Repr

namespace Piece

/-- What a word or mark says. Other pieces say nothing. -/
def key (p : Piece) : String :=
  match p.form with
  | .word | .mark => String.ofList p.text
  | _ => ""

def startsWord (c : Char) : Bool := isLetter c || c = '_' || c = '$'

def continuesWord (c : Char) : Bool := startsWord c || c.isDigit

def continuesNumber (c : Char) : Bool := c.isAlphanum || c = '.' || c = '_'

def endsLine (c : Char) : Bool := c = '\n' || c = '\r'

/-- All marks. One that begins another comes after it. -/
def marks : List Text :=
  [">>>=", "...", "===", "!==", "**=", "<<=", ">>=", ">>>", "&&=", "||=", "??=", "=>", "==", "!=",
    "<=", ">=", "&&", "||", "??", "?.", "++", "--", "+=", "-=", "*=", "/=", "%=", "&=", "|=", "^=",
    "<<", ">>", "**", "\x7b", "\x7d", "(", ")", "[", "]", ";", ",", ".", "<", ">", "=", "+", "-", "*",
    "/", "%", "&", "|", "^", "!", "~", "?", ":"].map String.toList

/-- The rest of a quoted text with its closing character. A backslash hides the character after it.
Only a template goes over lines, and one with a substitution is not of the core language. -/
def quoteTail? (close : Char) : Text → Option (Text × Text)
  | [] => none
  | '\\' :: c :: rest => do
    let (inside, rest) ← quoteTail? close rest
    return ('\\' :: c :: inside, rest)
  | c :: rest =>
    if c = close then some ([c], rest)
    else if endsLine c && close ≠ '`' then none
    else if close = '`' && c = '$' && rest.head? = some '\x7b' then none
    else do
      let (inside, rest) ← quoteTail? close rest
      return (c :: inside, rest)

/-- The rest of a comment up to its closing. -/
def commentTail? : Text → Option (Text × Text)
  | [] => none
  | '*' :: '/' :: rest => some (['*', '/'], rest)
  | c :: rest => do
    let (inside, rest) ← commentTail? rest
    return (c :: inside, rest)

def mark? (text : Text) : Option (Text × Text) :=
  marks.findSome? fun m => (Text.after? m text).map (m, ·)

/-- What a text begins with. -/
inductive Cut where
  | comment (text rest : Text)
  | piece (form : PieceForm) (text rest : Text)

def quote? (form : PieceForm) (close : Char) (rest : Text) : Option Cut := do
  let (inside, rest) ← quoteTail? close rest
  return .piece form (close :: inside) rest

/-- Cut off what a text without blanks in front begins with. -/
def cut? (text : Text) : Option Cut :=
  match text with
  | [] => none
  | '/' :: '/' :: rest =>
    some (.comment ('/' :: '/' :: rest.takeWhile fun c => !endsLine c)
      (rest.dropWhile fun c => !endsLine c))
  | '/' :: '*' :: rest => do
    let (inside, rest) ← commentTail? rest
    return .comment ('/' :: '*' :: inside) rest
  | c :: rest =>
    if c = '"' || c = '\'' then quote? .string c rest
    else if c = '`' then quote? .template c rest
    else if c.isDigit then
      some (.piece .number (c :: rest.takeWhile continuesNumber) (rest.dropWhile continuesNumber))
    else if startsWord c then
      some (.piece .word (c :: rest.takeWhile continuesWord) (rest.dropWhile continuesWord))
    else do
      let (m, rest) ← mark? text
      return .piece .mark m rest

def rangeOf (offset : Nat) (text : Text) : Range :=
  ⟨offset, offset + Text.size text, Nat.le_add_right _ _⟩

def comment (offset : Nat) (text : Text) : Node :=
  .mk ⟨"comment", rangeOf offset text, true, true, false, false, false, none⟩ []

/-- The pieces of a text from an offset on, and the comments behind the last one. -/
def scan : Nat → Nat → Bool → List Node → Text → Option (List Piece × List Node)
  | 0, _, _, _, _ => none
  | fuel + 1, offset, fresh, comments, text =>
    let blanks := text.takeWhile isBlank
    let offset := offset + Text.size blanks
    let fresh := fresh || blanks.any endsLine
    match text.dropWhile isBlank with
    | [] => some ([], comments)
    | text => do
      match ← cut? text with
      | .comment found rest =>
        scan fuel (offset + Text.size found) (fresh || found.any endsLine)
          (comments ++ [comment offset found]) rest
      | .piece form found rest =>
        let (pieces, trailing) ← scan fuel (offset + Text.size found) false [] rest
        return (⟨form, found, rangeOf offset found, comments, fresh⟩ :: pieces, trailing)

def ofText? (text : Text) : Option (List Piece × List Node) :=
  scan (text.length + 1) 0 false [] text

end Piece

end Indentation
