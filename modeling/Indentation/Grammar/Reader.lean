import Indentation.Grammar.Parse

/-! # Reading a text of the core language

A text that cannot be read to its end gives a tree with a flaw where it goes wrong. -/

namespace Indentation.Grammar

/-- Putting a semicolon in costs as much as leaving out so many bytes. -/
def semicolonCost : Nat := 10

def isOperand (p : Piece) : Bool :=
  match p.form with
  | .mark => false
  | _ => true

/-- Where two operands side by side go wrong. The cheapest way to mend them counts: to leave out the
first one, which only the first statement of a text can do, to leave out the second one, which has to
leave a semicolon next, or to put a semicolon between them. A third operand spoils the whole
statement. -/
def clash (first : Bool) (left : Range) (second : Piece) (rest : List Piece) : Nat :=
  match rest with
  | third :: _ =>
    if isOperand third && !third.fresh then left.start
    else
      let dropFirst := if first then left.length else semicolonCost
      let dropSecond := if third.key = ";" then second.range.length else semicolonCost
      if first && dropFirst ≤ min dropSecond semicolonCost then left.start
      else if dropSecond < semicolonCost then second.range.start
      else left.stop
  | [] => if first then left.start else left.stop

/-- Where a statement that cannot be read goes wrong. -/
def flawAt (fuel : Nat) (first : Bool) (ps : List Piece) : Nat :=
  let start := (ps.head?.map fun p => p.range.start).getD 0
  match sequence fuel ps with
  | some (built, second :: rest) =>
    if isOperand second && !second.fresh then
      match built.getLast? with
      | some left => clash first left.range second rest
      | none => start
    else start
  | _ => start

/-- The statements of a text, or where it goes wrong. -/
def program (fuel : Nat) (first : Bool) (ps : List Piece) : Except Nat (List Node) :=
  match fuel, ps with
  | _, [] => .ok []
  | 0, ps => .error (flawAt 0 first ps)
  | fuel + 1, ps =>
    match statement fuel ps with
    | none => .error (flawAt fuel first ps)
    | some (nodes, ps) => do return nodes ++ (← program fuel false ps)

/-- The offset of the first character that is not blank. -/
def firstVisible (text : Text) : Nat := Text.size (text.takeWhile isBlank)

/-- A program reaches from its first visible character to the end of the text. -/
def root (text : Text) (tainted : Bool) (children : List Node) : Node :=
  let stop := Text.size text
  let range : Range := ⟨min (firstVisible text) stop, stop, Nat.min_le_right _ _⟩
  .mk ⟨"program", range, true, false, false, false, tainted, none⟩ children

def flaw (offset : Nat) : Node :=
  .mk ⟨"ERROR", .point offset, true, false, false, true, true, none⟩ []

/-- Steps that are enough for any text: few of them come between two pieces. -/
def enough (pieces : List Piece) : Nat := 32 * (pieces.length + 2)

/-- The tree of a text. -/
def read (text : Text) : Node :=
  match Piece.ofText? text with
  | none => root text true [flaw (firstVisible text)]
  | some (pieces, trailing) =>
    match program (enough pieces) true pieces with
    | .ok nodes => root text false (nodes ++ trailing)
    | .error offset => root text true [flaw offset]

end Indentation.Grammar
