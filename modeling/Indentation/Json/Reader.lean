import Indentation.Json.Number
import Indentation.Text.Digits

/-! # Reading JSON

A reader takes the characters that are left and returns a value with those left after it. A value is
either kept or skipped. A skipped one must have the form of a value, but its numbers may be too
large, its strings may have surrogate escapes of their own, and it may be nested to any depth. -/

namespace Indentation.Json

/-- How a value is read. -/
inductive Keep where
  | skipped
  /-- Kept, with that many levels of nesting still allowed. -/
  | kept (levels : Nat)
deriving DecidableEq, Repr

namespace Keep

/-- Go one level down. -/
def descend? : Keep → Option Keep
  | .skipped => some .skipped
  | .kept 0 => none
  | .kept (levels + 1) => some (.kept levels)

end Keep

namespace Reader

def isBlank (c : Char) : Bool := c = ' ' || c = '\n' || c = '\t' || c = '\r'

def skipBlanks (text : Text) : Text := text.dropWhile isBlank

def isLead (unit : Nat) : Bool := 0xD800 ≤ unit && unit < 0xDC00

def isTrail (unit : Nat) : Bool := 0xDC00 ≤ unit && unit < 0xE000

/-- The character of a four-digit escape. A leading surrogate needs a trailing one after it. -/
def unicodeEscape? (keep : Keep) (text : Text) : Option (Char × Text) := do
  let (unit, rest) ← Digit.hexRun? 0 4 text
  if keep = .skipped then return (Char.ofNat unit, rest)
  if isTrail unit then none
  else if isLead unit then do
    let rest ← Text.after? ['\\', 'u'] rest
    let (second, rest) ← Digit.hexRun? 0 4 rest
    if isTrail second then
      return (Char.ofNat (0x10000 + (unit - 0xD800) * 0x400 + (second - 0xDC00)), rest)
    else none
  else return (Char.ofNat unit, rest)

def simpleEscape? (c : Char) : Option Char :=
  match c with
  | '"' => some '"'
  | '\\' => some '\\'
  | '/' => some '/'
  | 'b' => some '\x08'
  | 'f' => some '\x0c'
  | 'n' => some '\n'
  | 'r' => some '\r'
  | 't' => some '\t'
  | _ => none

/-- The rest of a string up to its closing quote, collected in reverse. -/
def stringTail (keep : Keep) : Nat → Text → Text → Option (String × Text)
  | 0, _, _ => none
  | _ + 1, _, [] => none
  | fuel + 1, reversed, c :: rest =>
    if c = '"' then some (String.ofList reversed.reverse, rest)
    else if c = '\\' then
      match rest with
      | 'u' :: rest => do
        let (d, rest) ← unicodeEscape? keep rest
        stringTail keep fuel (d :: reversed) rest
      | d :: rest => do
        let d ← simpleEscape? d
        stringTail keep fuel (d :: reversed) rest
      | [] => none
    else if c.toNat < 0x20 then none
    else stringTail keep fuel (c :: reversed) rest

def digitsWith (step : Digits → Nat → Digits) (digits : Digits) : Text → Digits × Text
  | [] => (digits, [])
  | c :: rest =>
    match Digit.decimal? c with
    | some d => digitsWith step (step digits d) rest
    | none => (digits, c :: rest)

def startsWithDigit (text : Text) : Bool :=
  match text with
  | c :: _ => c.isDigit
  | [] => false

/-- Digits of an exponent, at least one. -/
def exponent? (text : Text) : Option (Int × Text) := do
  let (negative, text) :=
    match text with
    | '+' :: rest => (false, rest)
    | '-' :: rest => (true, rest)
    | text => (false, text)
  guard (startsWithDigit text)
  let size : Int := Digit.value (text.takeWhile Char.isDigit)
  return (if negative then -size else size, text.dropWhile Char.isDigit)

def finish (keep : Keep) (value : Option Json) (rest : Text) : Option (Json × Text) :=
  if keep = .skipped then some (.null, rest) else value.map (·, rest)

/-- What may follow the digits of a number. -/
def afterDigits (keep : Keep) (negative isWhole : Bool) (digits : Digits) (text : Text) :
    Option (Json × Text) :=
  match text with
  | 'e' :: rest | 'E' :: rest => do
    let (exponent, rest) ← exponent? rest
    finish keep ((floatOf negative digits exponent).map .float) rest
  | text =>
    if isWhole then finish keep (integerOf negative digits) text
    else finish keep ((floatOf negative digits 0).map .float) text

/-- A number whose sign has been read. A leading zero stands alone before the point. -/
def number? (keep : Keep) (negative : Bool) (text : Text) : Option (Json × Text) := do
  guard (startsWithDigit text)
  let (digits, rest) := digitsWith Digits.whole .empty text
  match text with
  | '0' :: after => guard (!startsWithDigit after)
  | _ => pure ()
  match rest with
  | '.' :: rest =>
    guard (startsWithDigit rest)
    let (digits, rest) := digitsWith Digits.fraction digits.point rest
    afterDigits keep negative false digits rest
  | rest => afterDigits keep negative true digits rest

mutual

def value? (keep : Keep) : Nat → Text → Option (Json × Text)
  | 0, _ => none
  | fuel + 1, text =>
    match skipBlanks text with
    | 'n' :: rest => (Text.after? ['u', 'l', 'l'] rest).map (.null, ·)
    | 't' :: rest => (Text.after? ['r', 'u', 'e'] rest).map (.bool true, ·)
    | 'f' :: rest => (Text.after? ['a', 'l', 's', 'e'] rest).map (.bool false, ·)
    | '"' :: rest => (stringTail keep fuel [] rest).map fun (s, rest) => (.str s, rest)
    | '-' :: rest => number? keep true rest
    | '[' :: rest => do
      let inner ← keep.descend?
      match skipBlanks rest with
      | ']' :: rest => return (.arr [], rest)
      | rest =>
        let (items, rest) ← items? inner fuel [] rest
        return (.arr items, rest)
    | '\x7b' :: rest => do
      let inner ← keep.descend?
      match skipBlanks rest with
      | '\x7d' :: rest => return (.obj [], rest)
      | rest =>
        let (members, rest) ← members? inner fuel [] rest
        return (.obj members, rest)
    | rest => number? keep false rest

/-- The items of an array that is not empty, collected in reverse. -/
def items? (keep : Keep) : Nat → List Json → Text → Option (List Json × Text)
  | 0, _, _ => none
  | fuel + 1, reversed, text => do
    let (item, rest) ← value? keep fuel text
    match skipBlanks rest with
    | ',' :: rest => items? keep fuel (item :: reversed) rest
    | ']' :: rest => return ((item :: reversed).reverse, rest)
    | _ => none

/-- The members of an object that is not empty. -/
def members? (keep : Keep) : Nat → List (String × Json) → Text → Option (List (String × Json) × Text)
  | 0, _, _ => none
  | fuel + 1, members, text =>
    match skipBlanks text with
    | '"' :: rest => do
      let (name, rest) ← stringTail keep fuel [] rest
      match skipBlanks rest with
      | ':' :: rest =>
        let (value, rest) ← value? keep fuel rest
        let members := insert members name value
        match skipBlanks rest with
        | ',' :: rest => members? keep fuel members rest
        | '\x7d' :: rest => return (members, rest)
        | _ => none
      | _ => none
    | _ => none

end

/-- A level of nesting or an item takes two steps at most and a character at least, so this many
steps are enough. -/
def steps (text : Text) : Nat := 2 * text.length + 2

def value (keep : Keep) (text : Text) : Option (Json × Text) := value? keep (steps text) text

/-- Nothing but blanks may follow. -/
def whole? {α : Type} (read : Option (α × Text)) : Option α := do
  let (value, rest) ← read
  guard (skipBlanks rest).isEmpty
  return value

end Reader

/-- Levels of nesting that a kept text may have. -/
def levelLimit : Nat := 127

/-- Read a text that is one value, nested at most so deep. -/
def read (levels : Nat) (text : Text) : Option Json :=
  Reader.whole? (Reader.value (.kept levels) text)

end Indentation.Json
