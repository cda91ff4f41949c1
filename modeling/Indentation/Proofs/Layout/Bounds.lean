import Indentation.Proofs.Layout.Resolve
import Indentation.Proofs.Layout.Steps
import Indentation.Proofs.Token.Rows

/-!
# Widths within the limit

A text that is shorter than the largest offset has no column and no margin beyond the limit of a width.
Every width that a graph prescribes is then within the limit, so nothing is added on to a width by
standing level with another token.
-/

namespace Indentation

namespace Width

theorem ofLevels_le (unit levels : Nat) : ofLevels unit levels ≤ widthLimit := Nat.min_le_right _ _

theorem add_le (a b : Nat) : add a b ≤ widthLimit := Nat.min_le_right _ _

/-- A width within the limit is not changed by nothing. -/
theorem add_zero {a : Nat} (h : a ≤ widthLimit) : add a 0 = a := Nat.min_eq_left h

theorem add_zero_add (a b : Nat) : add (add a 0) b = add a b := by
  simp only [add]
  omega

end Width

theorem Margin.good_measure_le (line : Text) (c : IndentChar) :
    (Margin.measure line).good c ≤ line.length := by
  have hlead := (List.takeWhile_sublist (l := line) fun d => d = ' ' || d = '\t').length_le
  cases c <;> exact Nat.le_trans List.count_le_length hlead

namespace TokenStream.CutFrom

variable {source : Text} {xs : List Lexeme} {s : TokenStream} (h : s.CutFrom source xs)
include h

/-- What stands before a token on its line is part of the text. -/
theorem length_margin_le (i : Nat) : (s.token i).margin.length ≤ Text.size source := by
  by_cases hi : i < s.size
  · obtain ⟨x, -, hcut⟩ := h.getElem_cut hi
    obtain ⟨a, b, hsource, -, -, hmargin⟩ := hcut.parts
    have hline := congrArg Text.size (Text.earlierLines_append_lastLine a)
    rw [Text.size_append] at hline
    refine Nat.le_trans (Text.length_le_size _) ?_
    rw [hmargin, hsource, List.append_assoc, Text.size_append]
    omega
  · rw [token, Array.getD_eq_getD_getElem?, Array.getElem?_eq_none (Nat.le_of_not_lt hi)]
    exact Nat.zero_le _

/-- The column of a token is a column of the text. -/
theorem column_le (i : Nat) : (s.token i).column ≤ Text.size source := by
  by_cases hi : i < s.size
  · obtain ⟨x, -, hcut⟩ := h.getElem_cut hi
    have hcolumn := hcut.column_eq
    simp only [Lines.column, bind, Except.bind, pure, Except.pure] at hcolumn
    split at hcolumn
    · cases hcolumn
    · next before hbefore =>
      split at hcolumn
      · cases hcolumn
      · next lead hlead =>
        obtain ⟨hsource, -⟩ := Text.split_eq_ok_iff.1 hbefore
        obtain ⟨hbegin, -⟩ := Text.split_eq_ok_iff.1 hlead
        have hlength := Text.length_le_size lead.2
        rw [← Except.ok.inj hcolumn, hsource, Text.size_append, hbegin, Text.size_append]
        omega
  · rw [token, Array.getD_eq_getD_getElem?, Array.getElem?_eq_none (Nat.le_of_not_lt hi)]
    exact Nat.zero_le _

end TokenStream.CutFrom

/-- No offset is beyond the limit, as long as no token is put into a column that is. -/
theorem Write.Makes.offset_le {s : TokenStream} {unit t : Nat} {e e' : Edge} {w : Write}
    (h : w.Makes s unit t e e') (hw : ∀ token column, w = .place token column → column ≤ widthLimit)
    (he : e.offset ≤ widthLimit) : e'.offset ≤ widthLimit := by
  have hinset : ∀ a levels, (Graph.inset s unit t a levels).offset ≤ widthLimit := fun a levels => by
    rw [Graph.inset]
    dsimp only
    split
    · exact Nat.zero_le _
    · exact Width.ofLevels_le unit levels
  cases h with
  | keep => exact he
  | indent levels => exact Width.ofLevels_le unit levels
  | inset _ levels => exact hinset _ levels
  | align => exact Nat.zero_le _
  | place column => exact hw t column rfl
  | shift => exact Width.add_le _ _
  | group => exact hinset _ 1
  | close => exact Nat.zero_le _

namespace Graph

variable {g : Graph} {s : TokenStream} {unit : Nat}

/-- Every offset is within the limit. -/
def Bounded (g : Graph) : Prop := ∀ t, (g.edge t).offset ≤ widthLimit

theorem bounded_blank (n : Nat) : (blank n).Bounded := by
  intro t
  rw [edge_blank]
  exact Nat.zero_le _

namespace Bounded

theorem writeAll (h : g.Bounded) {ws : List Write}
    (hws : ∀ token column, .place token column ∈ ws → column ≤ widthLimit) :
    (g.writeAll s unit ws).Bounded :=
  forall_edge_writeAll (Q := fun _ e => e.offset ≤ widthLimit)
    (fun _ hw _ _ _ hmakes => hmakes.offset_le fun token column heq => hws token column (heq ▸ hw)) h

/-- No width is beyond the limit. -/
theorem prescribed_le (h : g.Bounded) {c : IndentChar} {t : Nat}
    (hmargin : (s.token t).margin.length ≤ widthLimit) (width : Nat → Nat) :
    g.prescribed s c width t ≤ widthLimit := by
  rw [prescribed]
  split
  · exact Nat.le_trans (Margin.good_measure_le _ c) hmargin
  · split
    · exact h t
    · exact Width.add_le _ _

end Bounded

end Graph

end Indentation
