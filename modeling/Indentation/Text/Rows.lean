import Indentation.Text.Basic

/-! # Rows of a text -/

namespace Indentation.Text

/-- The rows that LF or CR LF end, without these. Nothing follows the last terminator. -/
def rows : Text → List Text
  | [] => []
  | '\n' :: rest => [] :: rows rest
  | '\r' :: '\n' :: rest => [] :: rows rest
  | c :: rest =>
    match rest with
    | [] => [[c]]
    | _ :: _ =>
      match rows rest with
      | [] => [[c]]
      | row :: later => (c :: row) :: later

end Indentation.Text
