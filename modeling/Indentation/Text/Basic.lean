/-! # Texts and byte offsets -/

namespace Indentation

/-- A source text. An offset into it counts the bytes of the UTF-8 form. -/
abbrev Text := List Char

/-- Why an operation on offsets has no answer. -/
inductive Fault where
  /-- An offset would be negative or larger than the largest offset. -/
  | overflow
  /-- A range would end before it starts. -/
  | backward (start stop : Nat)
  /-- An offset lies past the end of the text or inside a character. -/
  | badCut
deriving DecidableEq, Repr

namespace Fault

/-- Only a backward range says what was wrong with it. -/
def message? : Fault → Option String
  | .overflow | .badCut => none
  | .backward start stop => some s!"invalid text range {start}..{stop}"

end Fault

namespace Offset

/-- The largest offset: texts are shorter than 4 GiB. -/
def limit : Nat := 4294967295

/-- A size too large for an offset counts as the largest one. -/
def clamp (n : Nat) : Nat := min n limit

def fits? (n : Nat) : Option Nat :=
  if n ≤ limit then some n else none

def add (a b : Nat) : Except Fault Nat :=
  if a + b ≤ limit then .ok (a + b) else .error .overflow

def sub? (a b : Nat) : Option Nat :=
  if b ≤ a then some (a - b) else none

def sub (a b : Nat) : Except Fault Nat :=
  match sub? a b with
  | some n => .ok n
  | none => .error .overflow

end Offset

namespace Text

/-- Bytes of the UTF-8 form. -/
def size : Text → Nat
  | [] => 0
  | c :: rest => c.utf8Size + size rest

/-- Cut a text at a byte offset, or nowhere if the offset is no character boundary of it. -/
def split? : Text → Nat → Option (Text × Text)
  | text, 0 => some ([], text)
  | [], _ + 1 => none
  | c :: rest, n + 1 =>
    if c.utf8Size ≤ n + 1 then
      (split? rest (n + 1 - c.utf8Size)).map fun (before, after) => (c :: before, after)
    else none

def split (text : Text) (offset : Nat) : Except Fault (Text × Text) :=
  match split? text offset with
  | some parts => .ok parts
  | none => .error .badCut

/-- What follows a given beginning. -/
def after? : Text → Text → Option Text
  | [], text => some text
  | c :: word, d :: text => if c = d then after? word text else none
  | _ :: _, [] => none

/-- What precedes a given ending. -/
def before? (ending text : Text) : Option Text :=
  (after? ending.reverse text.reverse).map List.reverse

/-- Repeat a character. -/
def fill (c : Char) (count : Nat) : Text := List.replicate count c

end Text

end Indentation
