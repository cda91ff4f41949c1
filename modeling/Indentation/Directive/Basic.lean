import Indentation.Text.Blank
import Indentation.Token.Basic

/-! # Directive comments

A comment whose body is a keyword, optionally followed by white space and the names of rules with
commas between them, switches rules off or on. -/

namespace Indentation

inductive Action where
  | disable
  | enable
  | disableLine
  | disableNextLine
deriving DecidableEq, Repr

structure Directive where
  action : Action
  rules : List Text
deriving DecidableEq, Repr

namespace Directive

/-- Stands for every rule. A directive that names no rule is about this one. -/
def everyRule : Text := ['*']

def keywords : List (Text × Action) := [
  ("eslint-disable-next-line".toList, .disableNextLine),
  ("eslint-disable-line".toList, .disableLine),
  ("eslint-disable".toList, .disable),
  ("eslint-enable".toList, .enable)]

/-- The text of a comment without its delimiters. -/
def body? (kind : TokenKind) (comment : Text) : Option Text :=
  match kind with
  | .lineComment => Text.after? ['/', '/'] comment
  | .blockComment => do Text.before? ['*', '/'] (← Text.after? ['/', '*'] comment)
  | _ => none

def commaPieces : Text → List Text
  | [] => [[]]
  | c :: rest =>
    if c = ',' then [] :: commaPieces rest
    else
      match commaPieces rest with
      | [] => [[c]]
      | piece :: pieces => (c :: piece) :: pieces

/-- The names in a list of rules. -/
def names (text : Text) : List Text :=
  ((commaPieces text).map Text.trim).filter fun name => !name.isEmpty

/-- The names after a keyword. They stand on one line and apart from the keyword. -/
def namesAfter? (rest : Text) : Option (List Text) :=
  match rest with
  | [] => some []
  | c :: _ =>
    let listed := Text.trim rest
    if isBlank c && !listed.contains '\n' then some (names listed) else none

def ofKeyword? (body : Text) (keyword : Text × Action) : Option Directive := do
  let rest ← Text.after? keyword.1 body
  let rules ← namesAfter? rest
  return ⟨keyword.2, if rules.isEmpty then [everyRule] else rules⟩

def isForLine : Action → Bool
  | .disableLine | .disableNextLine => true
  | .disable | .enable => false

/-- Read a comment. A line comment can only be about lines. -/
def ofComment? (kind : TokenKind) (comment : Text) : Option Directive := do
  let body ← body? kind comment
  let directive ← keywords.findSome? (ofKeyword? (body.dropWhile isBlank))
  if kind = .lineComment && !isForLine directive.action then none else some directive

end Directive

end Indentation
