import Indentation.Toml.Scalar

/-! # Reading TOML

A reader takes the characters that are left and returns a value with those left after it. -/

namespace Indentation.Toml

namespace Reader

def isSpace (c : Char) : Bool := c = ' ' || c = '\t'

def skipSpaces (text : Text) : Text := text.dropWhile isSpace

/-- What follows a line ending. A CR of its own ends no line. -/
def newline? : Text → Option Text
  | '\n' :: rest | '\r' :: '\n' :: rest => some rest
  | _ => none

/-- Characters that strings and comments may hold as they are. -/
def isPlain (c : Char) : Bool := c = '\t' || (0x20 ≤ c.toNat && c.toNat ≠ 0x7f)

/-- Skip a comment, if there is one, up to the end of its line. -/
def comment? (text : Text) : Option Text :=
  match text with
  | '#' :: rest =>
    let after := rest.dropWhile isPlain
    if after.isEmpty || (newline? after).isSome then some after else none
  | text => some text

/-- The rest of a line that holds nothing more. -/
def endOfLine? (text : Text) : Option Text := do
  let rest ← comment? (skipSpaces text)
  if rest.isEmpty then some [] else newline? rest

/-- Skip spaces, comments and line endings. -/
def skipLines? : Nat → Text → Option Text
  | 0, _ => none
  | fuel + 1, text => do
    let rest ← comment? (skipSpaces text)
    match newline? rest with
    | some rest => skipLines? fuel rest
    | none => some rest

def scalarValue? (code : Nat) : Option Char :=
  if code.isValidChar then some (Char.ofNat code) else none

/-- A character written after a backslash. -/
def escape? : Text → Option (Char × Text)
  | 'b' :: rest => some ('\x08', rest)
  | 't' :: rest => some ('\t', rest)
  | 'n' :: rest => some ('\n', rest)
  | 'f' :: rest => some ('\x0c', rest)
  | 'r' :: rest => some ('\r', rest)
  | 'e' :: rest => some ('\x1b', rest)
  | '"' :: rest => some ('"', rest)
  | '\\' :: rest => some ('\\', rest)
  | 'x' :: rest => coded 2 rest
  | 'u' :: rest => coded 4 rest
  | 'U' :: rest => coded 8 rest
  | _ => none
where
  coded (count : Nat) (text : Text) : Option (Char × Text) := do
    let (code, rest) ← Digit.hexRun? 0 count text
    return (← scalarValue? code, rest)

/-- The rest of a string on one line. -/
def basicTail : Nat → Text → Text → Option (String × Text)
  | 0, _, _ => none
  | _ + 1, _, [] => none
  | fuel + 1, reversed, c :: rest =>
    if c = '"' then some (String.ofList reversed.reverse, rest)
    else if c = '\\' then do
      let (d, rest) ← escape? rest
      basicTail fuel (d :: reversed) rest
    else if isPlain c then basicTail fuel (c :: reversed) rest
    else none

/-- The rest of a string on one line without escapes. -/
def literalTail (text : Text) : Option (String × Text) :=
  match text.dropWhile fun c => isPlain c && c ≠ '\'' with
  | '\'' :: rest => some (String.ofList (text.takeWhile fun c => isPlain c && c ≠ '\''), rest)
  | _ => none

/-- Up to two more quotes after the three that could close a string belong to it. -/
def closing? (quote : Char) : Text → Option (Text × Text)
  | a :: b :: c :: rest =>
    if a = quote ∧ b = quote ∧ c = quote then
      match rest with
      | d :: e :: more =>
        if d = quote ∧ e = quote then some ([quote, quote], more)
        else if d = quote then some ([quote], e :: more)
        else some ([], rest)
      | [d] => if d = quote then some ([quote], []) else some ([], [d])
      | [] => some ([], [])
    else none
  | _ => none

/-- What follows a backslash at the end of a line, blank lines and all. -/
def joined? (text : Text) : Option Text := do
  let rest ← newline? (skipSpaces text)
  return rest.dropWhile fun c => isSpace c || c = '\n' || c = '\r'

/-- The rest of a string over several lines. Only the basic kind knows escapes. -/
def multilineTail (quote : Char) : Nat → Text → Text → Option (String × Text)
  | 0, _, _ => none
  | _ + 1, _, [] => none
  | fuel + 1, reversed, c :: rest =>
    match closing? quote (c :: rest) with
    | some (quotes, rest) => some (String.ofList (reversed.reverse ++ quotes), rest)
    | none =>
      if c = '\\' && quote = '"' then
        match joined? rest with
        | some rest => multilineTail quote fuel reversed rest
        | none => do
          let (d, rest) ← escape? rest
          multilineTail quote fuel (d :: reversed) rest
      else if c = '\r' then
        match rest with
        | '\n' :: rest => multilineTail quote fuel ('\n' :: '\r' :: reversed) rest
        | _ => none
      else if c = '\n' || isPlain c then multilineTail quote fuel (c :: reversed) rest
      else none

/-- A line ending right after the opening quotes does not count. -/
def multiline (quote : Char) (fuel : Nat) (text : Text) : Option (String × Text) :=
  multilineTail quote fuel [] ((newline? text).getD text)

/-- A string of any kind. -/
def string? (fuel : Nat) : Text → Option (String × Text)
  | '"' :: '"' :: '"' :: rest => multiline '"' fuel rest
  | '\'' :: '\'' :: '\'' :: rest => multiline '\'' fuel rest
  | '"' :: rest => basicTail fuel [] rest
  | '\'' :: rest => literalTail rest
  | _ => none

def isBareKey (c : Char) : Bool := c.isAlphanum || c = '_' || c = '-'

/-- A key without dots. -/
def simpleKey? (fuel : Nat) : Text → Option (String × Text)
  | '"' :: '"' :: '"' :: _ | '\'' :: '\'' :: '\'' :: _ => none
  | '"' :: rest => basicTail fuel [] rest
  | '\'' :: rest => literalTail rest
  | text =>
    let bare := text.takeWhile isBareKey
    if bare.isEmpty then none else some (String.ofList bare, text.dropWhile isBareKey)

/-- Keys with dots between them, and the spaces after them. -/
def key? : Nat → Text → Option (List String × Text)
  | 0, _ => none
  | fuel + 1, text => do
    let (key, rest) ← simpleKey? fuel (skipSpaces text)
    match skipSpaces rest with
    | '.' :: rest =>
      let (path, rest) ← key? fuel rest
      return (key :: path, rest)
    | rest => return ([key], rest)

/-- Characters that end a value without quotes. -/
def endsScalar (c : Char) : Bool :=
  isSpace c || c = '\n' || c = '\r' || "#,[]\x7b\x7d=\"'".toList.contains c

/-- A value without quotes. A space may stand between a date and a time. -/
def scalar? (text : Text) : Option (Value × Text) :=
  let word := text.takeWhile fun c => !endsScalar c
  let rest := text.dropWhile fun c => !endsScalar c
  match Scalar.date? word, rest with
  | some [], ' ' :: c :: more =>
    if c.isDigit then
      let second := (c :: more).takeWhile fun c => !endsScalar c
      (Scalar.read? (word ++ ' ' :: second)).map
        (·, (c :: more).dropWhile fun c => !endsScalar c)
    else (Scalar.read? word).map (·, rest)
  | _, _ => (Scalar.read? word).map (·, rest)

mutual

/-- A value, with so many levels of nesting still allowed. -/
def value? : Nat → Nat → Text → Option (Value × Text)
  | 0, _, _ => none
  | fuel + 1, levels, text =>
    match text with
    | '"' :: _ | '\'' :: _ => (string? fuel text).map fun (s, rest) => (.str s, rest)
    | '[' :: rest =>
      if levels = 0 then none
      else do
        let (items, rest) ← items? fuel (levels - 1) [] rest
        return (.arr items, rest)
    | '\x7b' :: rest =>
      if levels = 0 then none
      else do
        let (t, rest) ← members? fuel (levels - 1) (.empty .inline) rest
        return (.table (t.withOrigin .inline), rest)
    | text => scalar? text

/-- The rest of an array after its opening bracket or a comma. -/
def items? : Nat → Nat → List Value → Text → Option (List Value × Text)
  | 0, _, _, _ => none
  | fuel + 1, levels, reversed, text => do
    match ← skipLines? fuel text with
    | ']' :: rest => return (reversed.reverse, rest)
    | rest =>
      let (item, rest) ← value? fuel levels rest
      match ← skipLines? fuel rest with
      | ',' :: rest => items? fuel levels (item :: reversed) rest
      | ']' :: rest => return ((item :: reversed).reverse, rest)
      | _ => none

/-- The rest of an inline table after its opening brace or a comma. -/
def members? : Nat → Nat → Table → Text → Option (Table × Text)
  | 0, _, _, _ => none
  | fuel + 1, levels, t, text => do
    match ← skipLines? fuel text with
    | '\x7d' :: rest => return (t, rest)
    | rest =>
      let (path, value, rest) ← pair? fuel levels rest
      let t ← t.add? path value
      match ← skipLines? fuel rest with
      | ',' :: rest => members? fuel levels t rest
      | '\x7d' :: rest => return (t, rest)
      | _ => none

/-- A key and its value. -/
def pair? : Nat → Nat → Text → Option (List String × Value × Text)
  | 0, _, _ => none
  | fuel + 1, levels, text => do
    let (path, rest) ← key? fuel text
    match rest with
    | '=' :: rest =>
      let (value, rest) ← value? fuel levels (skipSpaces rest)
      return (path, value, rest)
    | _ => none

end

/-- Levels of nesting that a value may have. -/
def levelLimit : Nat := 80

/-- The document so far, and the header that the pairs now read belong to. -/
structure State where
  root : Table
  header : List String

namespace State

def start : State := ⟨.empty .header, []⟩

def beginTable? (s : State) (path : List String) : Option State := do
  let key ← path.getLast?
  return ⟨← s.root.within? (Table.begin? key) path.dropLast, path⟩

def appendTable? (s : State) (path : List String) : Option State := do
  let key ← path.getLast?
  return ⟨← s.root.within? (Table.append? key) path.dropLast, path⟩

def addPair? (s : State) (path : List String) (value : Value) : Option State := do
  return { s with root := ← s.root.within? (·.add? path value) s.header }

end State

/-- One line that is not blank, or one pair over several lines. -/
def expression? (fuel : Nat) (s : State) (text : Text) : Option (State × Text) :=
  match text with
  | '[' :: '[' :: rest => do
    let (path, rest) ← key? fuel rest
    match rest with
    | ']' :: ']' :: rest => return (← s.appendTable? path, rest)
    | _ => none
  | '[' :: rest => do
    let (path, rest) ← key? fuel rest
    match rest with
    | ']' :: rest => return (← s.beginTable? path, rest)
    | _ => none
  | text => do
    let (path, value, rest) ← pair? fuel levelLimit text
    return (← s.addPair? path value, rest)

def lines? (steps : Nat) : Nat → State → Text → Option Table
  | 0, _, _ => none
  | fuel + 1, s, text => do
    match ← skipLines? steps text with
    | [] => return s.root
    | rest =>
      let (s, rest) ← expression? steps s rest
      lines? steps fuel s (← endOfLine? rest)

end Reader

/-- Read a document. A byte order mark may precede it. -/
def read? (text : Text) : Option Table :=
  let text :=
    match text with
    | '\ufeff' :: rest => rest
    | text => text
  let steps := 4 * text.length + 8
  Reader.lines? steps steps .start text

end Indentation.Toml
