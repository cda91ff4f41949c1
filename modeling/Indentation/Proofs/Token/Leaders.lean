import Indentation.Token.Stream
import Mathlib.Data.List.Basic

/-!
# The leaders of lines

The table of leaders is filled token by token, and an entry that is filled stays as it is.  So a line
is led by the first token that starts or ends on it.
-/

namespace Indentation

namespace Token

/-- Whether a token starts or ends on a line. -/
def touches (line : Nat) (t : Token) : Bool := t.startLine == line || t.endLine == line

end Token

namespace TokenStream

theorem size_lead (leaders : Array (Option Nat)) (id line : Nat) :
    (lead leaders id line).size = leaders.size := by
  unfold lead
  split <;> simp

/-- Only the entry of the line can change, and only if it was empty. -/
theorem getD_lead {leaders : Array (Option Nat)} {id line row : Nat} (hrow : row < leaders.size) :
    (lead leaders id line).getD row none =
      (leaders.getD row none).or (if line = row then some id else none) := by
  unfold lead
  by_cases hline : line = row
  · subst hline
    rw [if_pos rfl]
    simp only [Array.getD_eq_getD_getElem?, Array.getElem?_eq_getElem hrow, Option.getD_some]
    split
    · next hnone => simp [hnone, hrow]
    · next hsome =>
      obtain ⟨k, hk⟩ := Option.ne_none_iff_exists'.1 hsome
      simp [hk, hrow]
  · rw [if_neg hline, Option.or_none]
    by_cases hfree : leaders.getD line (some id) = none
    · rw [if_pos hfree, Array.getD_eq_getD_getElem?, Array.getElem?_setIfInBounds_ne hline,
        ← Array.getD_eq_getD_getElem?]
    · rw [if_neg hfree]

theorem foldl_lead {tokens : List Token} {leaders : Array (Option Nat)} {k row : Nat}
    (hrow : row < leaders.size) :
    ((tokens.zipIdx k).foldl (fun leaders (t, id) => lead (lead leaders id t.startLine) id t.endLine)
        leaders).getD row none =
      (leaders.getD row none).or ((tokens.findIdx? (Token.touches row)).map (· + k)) := by
  induction tokens generalizing leaders k with
  | nil => simp
  | cons t tokens ih =>
    rw [List.zipIdx_cons, List.foldl_cons, ih (by simpa [size_lead] using hrow)]
    simp only
    rw [getD_lead (by simpa [size_lead] using hrow), getD_lead hrow, List.findIdx?_cons]
    by_cases ht : Token.touches row t = true
    · rw [if_pos ht]
      simp only [Token.touches, Bool.or_eq_true, beq_iff_eq] at ht
      by_cases hs : t.startLine = row
      · simp [hs]
      · simp [hs, ht.resolve_left hs]
    · rw [if_neg ht]
      simp only [Token.touches, Bool.or_eq_true, beq_iff_eq, not_or] at ht
      simp [ht.1, ht.2, Option.map_map, Function.comp_def, Nat.add_right_comm, Nat.add_assoc]

/-- A line is led by the first token that starts or ends on it. -/
theorem getD_leadersOf {tokens : List Token} {count line : Nat} (hline : line < count + 2) :
    (leadersOf count tokens).getD line none = tokens.findIdx? (Token.touches line) := by
  unfold leadersOf
  rw [foldl_lead (by simpa using hline)]
  simp [Array.getD_eq_getD_getElem?, hline]

end TokenStream

end Indentation
