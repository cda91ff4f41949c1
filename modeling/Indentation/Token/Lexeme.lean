import Indentation.Text.Letter
import Indentation.Text.Lines
import Indentation.Token.Basic
import Indentation.Tree.Node

/-! # From leaves to tokens

A tree is cut into lexemes without a look at the text. The text decides what kind of token a lexeme
is. -/

namespace Indentation

/-- What the tree knows of a lexeme. -/
inductive Form where
  | comment
  | string
  | number
  | regex
  | jsxText
  | templatePart
  | leaf (kind : String) (named : Bool)
deriving DecidableEq, Repr

namespace Form

/-- Nodes that are one token, whatever is below them. -/
def ofKind? (kind : String) : Option Form :=
  match kind with
  | "comment" | "html_comment" | "hash_bang_line" => some .comment
  | "string" => some .string
  | "number" => some .number
  | "regex" => some .regex
  | "jsx_text" => some .jsxText
  | _ => none

def startsWord : Text → Bool
  | c :: _ => isLetter c || c = '_' || c = '$'
  | [] => false

/-- A word is a keyword if the grammar knows it by its text. -/
def classify (form : Form) (text : Text) : TokenKind :=
  match form with
  | .comment =>
    match text with
    | '/' :: '*' :: _ => .blockComment
    | _ => .lineComment
  | .string => .string
  | .number => .numeric
  | .regex => .regularExpression
  | .jsxText => .jsxText
  | .templatePart => .template
  | .leaf kind named =>
    if !startsWord text then .punctuator
    else if !named || kind.toList = text then .keyword
    else .identifier

end Form

/-- A piece of the text that will be a token. -/
structure Lexeme where
  start : Nat
  stop : Nat
  form : Form
deriving DecidableEq, Repr

namespace Node

/-- Where a substitution closes: its last child, which is also its first if it has no other. -/
def closerStart (opener : Node) (inner : List Node) : Nat :=
  (inner.getLast?.getD opener).range.start

mutual

/-- The lexemes of a tree, in the order of its leaves. -/
def lexemes : Node → List Lexeme
  | .mk label children =>
    match Form.ofKind? label.kind with
    | some form => [⟨label.range.start, label.range.stop, form⟩]
    | none =>
      if label.kind = "template_string" then
        templateLexemes label.range.start label.range.stop children
      else
        match children with
        | [] => [⟨label.range.start, label.range.stop, .leaf label.kind label.named⟩]
        | n :: rest => lexemes n ++ lexemesAll rest

def lexemesAll : List Node → List Lexeme
  | [] => []
  | n :: rest => lexemes n ++ lexemesAll rest

/-- The literal parts of a template from `start` on, and between them the lexemes of what is
substituted. A part takes the opening of the substitution after it and the closing of the one before
it. -/
def templateLexemes (start stop : Nat) : List Node → List Lexeme
  | [] => [⟨start, stop, .templatePart⟩]
  | .mk label parts :: rest =>
    if label.kind = "template_substitution" then
      match parts with
      | [] => templateLexemes start stop rest
      | opener :: inner =>
        ⟨start, opener.range.stop, .templatePart⟩ ::
          (lexemesButLast inner ++ templateLexemes (closerStart opener inner) stop rest)
    else templateLexemes start stop rest

def lexemesButLast : List Node → List Lexeme
  | [] => []
  | n :: rest =>
    match rest with
    | [] => []
    | _ :: _ => lexemes n ++ lexemesButLast rest

end

end Node

namespace Lexeme

def isTerminator (c : Char) : Bool := c = '\n' || c = '\r'

/-- The end of a text after its last line terminator. -/
def lastLine (text : Text) : Text := (text.reverse.takeWhile fun c => !isTerminator c).reverse

/-- Cut a lexeme out of the text. -/
def cut (source : Text) (lines : Lines) (x : Lexeme) : Except Fault Token := do
  let range ← Range.of x.start x.stop
  let (upTo, _) ← Text.split source range.stop
  let (before, text) ← Text.split upTo range.start
  let column ← lines.column source range.start
  return {
    kind := x.form.classify text
    range, text, column
    margin := lastLine before
    startLine := lines.lineOf range.start
    endLine := lines.lineOf range.stop
  }

end Lexeme

end Indentation
