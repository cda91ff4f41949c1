import Indentation.Text.Basic
import Indentation.Text.Invisible

/-! # Quoted texts -/

namespace Indentation.Text

/-- A code point in hexadecimal between braces. -/
def codeEscape (c : Char) : Text :=
  ['\\', 'u', '\x7b'] ++ Nat.toDigits 16 c.toNat ++ ['\x7d']

def quoteChar (c : Char) : Text :=
  match c with
  | '\x00' => ['\\', '0']
  | '\t' => ['\\', 't']
  | '\r' => ['\\', 'r']
  | '\n' => ['\\', 'n']
  | '"' => ['\\', '"']
  | '\\' => ['\\', '\\']
  | c => if isInvisible c then codeEscape c else [c]

/-- A text between quotes on one line, with a code point for every character that does not show. -/
def quoted (text : Text) : Text := '"' :: text.flatMap quoteChar ++ ['"']

end Indentation.Text
