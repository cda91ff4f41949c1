import Indentation.Text.Digits
import Indentation.Toml.Basic

/-! # Numbers, dates and times of TOML -/

namespace Indentation.Toml.Scalar

/-- Digits, with single underscores between them. -/
def digitsOf? (isDigit : Char → Bool) : Text → Option Text
  | [] => none
  | [c] => if isDigit c then some [c] else none
  | c :: '_' :: rest =>
    if isDigit c then (digitsOf? isDigit rest).map (c :: ·) else none
  | c :: rest => if isDigit c then (digitsOf? isDigit rest).map (c :: ·) else none

def unsigned (text : Text) : Bool × Text :=
  match text with
  | '+' :: rest => (false, rest)
  | '-' :: rest => (true, rest)
  | text => (false, text)

def startsWithZero : Text → Bool
  | '0' :: _ :: _ => true
  | _ => false

/-- Decimal digits without a zero before others. -/
def decimal? (text : Text) : Option Text :=
  if startsWithZero text then none else digitsOf? Char.isDigit text

def isHexDigit (c : Char) : Bool := (Digit.hex? c).isSome

def isOctalDigit (c : Char) : Bool := '0' ≤ c && c ≤ '7'

def isBinaryDigit (c : Char) : Bool := c = '0' || c = '1'

def valueIn (base : Nat) (digits : Text) : Nat :=
  digits.foldl (fun n c => n * base + (Digit.hex? c).getD 0) 0

def integer? (text : Text) : Option Value :=
  match text with
  | '0' :: 'x' :: rest => (digitsOf? isHexDigit rest).map fun ds => .int (valueIn 16 ds)
  | '0' :: 'o' :: rest => (digitsOf? isOctalDigit rest).map fun ds => .int (valueIn 8 ds)
  | '0' :: 'b' :: rest => (digitsOf? isBinaryDigit rest).map fun ds => .int (valueIn 2 ds)
  | text =>
    let (negative, rest) := unsigned text
    (decimal? rest).map fun ds =>
      let size : Int := valueIn 10 ds
      .int (if negative then -size else size)

/-- What a double rounds to infinity. -/
def floatLimit : Nat := Nat.pow 2 1024 - Nat.pow 2 970

/-- Whether `digits * 10 ^ exponent` fits a double. Far from the limit the digits do not matter. -/
def fitsDouble (digits : Text) (exponent : Int) : Bool :=
  let significand := valueIn 10 digits
  let reach := exponent + digits.length
  if significand = 0 || reach ≤ 300 then true
  else if 1000 + digits.length ≤ reach then false
  else if 0 ≤ exponent then significand * Nat.pow 10 exponent.toNat < floatLimit
  else significand < floatLimit * Nat.pow 10 (-exponent).toNat

def exponent? (text : Text) : Option Int := do
  let (negative, rest) := unsigned text
  let size : Int := valueIn 10 (← digitsOf? Char.isDigit rest)
  return if negative then -size else size

/-- Split at the first character of a kind, which is dropped. -/
def cutAt (isCut : Char → Bool) (text : Text) : Text × Option Text :=
  match text.dropWhile fun c => !isCut c with
  | [] => (text, none)
  | _ :: rest => (text.takeWhile fun c => !isCut c, some rest)

/-- Digits with a fraction or an exponent or both. -/
def float? (text : Text) : Option Value := do
  let (_, rest) := unsigned text
  if rest = "inf".toList ∨ rest = "nan".toList then return .float true
  let (mantissa, exponentText) := cutAt (fun c => c = 'e' || c = 'E') rest
  let (wholeText, fractionText) := cutAt (· = '.') mantissa
  guard (exponentText.isSome || fractionText.isSome)
  let whole ← decimal? wholeText
  let fraction ←
    match fractionText with
    | some text => digitsOf? Char.isDigit text
    | none => some []
  let exponent ←
    match exponentText with
    | some text => exponent? text
    | none => some 0
  return .float (fitsDouble (whole ++ fraction) (exponent - fraction.length))

/-- Two digits within bounds. -/
def pair? (low high : Nat) : Text → Option Text
  | a :: b :: rest => do
    let n := (← Digit.decimal? a) * 10 + (← Digit.decimal? b)
    if low ≤ n ∧ n ≤ high then some rest else none
  | _ => none

def isLeapYear (year : Nat) : Bool :=
  year % 4 == 0 && (year % 100 != 0 || year % 400 == 0)

def daysIn (year month : Nat) : Nat :=
  if month = 2 then (if isLeapYear year then 29 else 28)
  else if month = 4 ∨ month = 6 ∨ month = 9 ∨ month = 11 then 30
  else 31

/-- A date, and what follows it. -/
def date? : Text → Option Text
  | a :: b :: c :: d :: '-' :: m :: n :: '-' :: rest => do
    guard ([a, b, c, d, m, n].all Char.isDigit)
    let month := Digit.value [m, n]
    guard (1 ≤ month ∧ month ≤ 12)
    pair? 1 (daysIn (Digit.value [a, b, c, d]) month) rest
  | _ => none

/-- A fraction of a second, if there is one. -/
def fraction? (text : Text) : Option Text :=
  match text with
  | '.' :: c :: rest => if c.isDigit then some (rest.dropWhile Char.isDigit) else none
  | '.' :: [] => none
  | text => some text

/-- A time, and what follows it. Seconds may be left out. -/
def time? (text : Text) : Option Text := do
  match ← pair? 0 23 text with
  | ':' :: rest =>
    match ← pair? 0 59 rest with
    | ':' :: rest => fraction? (← pair? 0 60 rest)
    | rest => some rest
  | _ => none

/-- Nothing, or the distance from the zero meridian. -/
def isOffset (text : Text) : Bool :=
  match text with
  | [] | ['Z'] | ['z'] => true
  | sign :: rest =>
    (sign = '+' || sign = '-') &&
      (match pair? 0 23 rest with
      | some (':' :: rest) => pair? 0 59 rest == some []
      | _ => false)

/-- A date, a time, or both with a letter or a space between them. -/
def datetime? (text : Text) : Option Value :=
  match date? text with
  | some [] => some .datetime
  | some (c :: rest) =>
    if c = 'T' ∨ c = 't' ∨ c = ' ' then
      match time? rest with
      | some offset => if isOffset offset then some .datetime else none
      | none => none
    else none
  | none => if time? text = some [] then some .datetime else none

def read? (text : Text) : Option Value :=
  if text = "true".toList then some (.bool true)
  else if text = "false".toList then some (.bool false)
  else integer? text <|> float? text <|> datetime? text

end Indentation.Toml.Scalar
