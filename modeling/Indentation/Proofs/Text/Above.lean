import Indentation.Proofs.Text.Reindent
import Mathlib.Data.List.Nodup

/-!
# What stands above a line

The lines above a line are a beginning of the text that ends with a terminator and parts no pair.  Two
texts that are the same above a line are the same above every line before it.
-/

namespace Indentation

namespace Text

open Lines

/-- The part of a text above a line. -/
def above (text : Text) (line : Nat) : Except Fault Text := do
  let (before, _) ← split text ((Lines.of text).lineStart text line)
  return before

/-- Two texts have the same lines above one. -/
def SameAbove (line : Nat) (t t' : Text) : Prop :=
  ∃ upTo, above t line = .ok upTo ∧ above t' line = .ok upTo

theorem EndsLine.earlierLines_eq {t : Text} (h : t.EndsLine) : earlierLines t = t := by
  have := earlierLines_append_lastLine t
  rwa [h.lastLine_eq_nil, List.append_nil] at this

/-- A line starts behind the terminators before it. -/
theorem lineStart_of_endsLine {a b : Text} (hend : a.EndsLine) (hp : ¬PartsPair a b) :
    (Lines.of (a ++ b)).lineStart (a ++ b) ((terminators a).length + 1) = size a := by
  rw [← lineOf_append hp, lineStart_lineOf hp, hend.earlierLines_eq]

/-- A text falls apart where a line starts. -/
theorem exists_endsLine {t : Text} {line : Nat} (h₁ : 1 ≤ line) (h : line ≤ (Lines.of t).count) :
    ∃ a b, t = a ++ b ∧ a.EndsLine ∧ ¬PartsPair a b ∧ (terminators a).length + 1 = line := by
  by_cases hone : line = 1
  · exact ⟨[], t, rfl, nofun, not_partsPair_nil_left t, hone.symm⟩
  · obtain ⟨k, rfl⟩ : ∃ k, line = k + 2 := ⟨line - 2, by omega⟩
    obtain ⟨a, b, rfl, hsize, ⟨c, hc, hterm⟩, hp⟩ := exists_cut_of_row k h
    have hend : a.EndsLine := fun d hd => by
      obtain rfl : c = d := Option.some.inj (Eq.symm hc |>.trans hd)
      exact hterm
    refine ⟨a, b, rfl, hend, hp, ?_⟩
    -- no two lines start at one place
    have hlow := one_le_lineOf (a ++ b) (size a)
    have hcount := lineOf_le_count (a ++ b) (size a)
    have hstart := lineStart_of_le_count hlow hcount
    rw [lineStart_lineOf hp, hend.earlierLines_eq] at hstart
    replace hstart := hsize.symm.trans hstart
    have hlen : (0 :: startsFrom 0 (a ++ b)).length = (Lines.of (a ++ b)).count := by
      rw [count, size_starts]
    have hnodup : (0 :: startsFrom 0 (a ++ b)).Nodup :=
      (pairwise_starts (a ++ b)).imp Nat.ne_of_lt
    rw [List.getD_eq_getElem _ _ (by omega), List.getD_eq_getElem _ _ (by omega)] at hstart
    have hrow := (List.Nodup.getElem_inj_iff hnodup).1 hstart
    rw [← lineOf_append hp]
    omega

theorem above_eq_ok_iff {t a : Text} {line : Nat} (h₁ : 1 ≤ line) (h : line ≤ (Lines.of t).count) :
    above t line = .ok a ↔
      ∃ b, t = a ++ b ∧ a.EndsLine ∧ ¬PartsPair a b ∧ (terminators a).length + 1 = line := by
  obtain ⟨u, v, rfl, hend, hp, rfl⟩ := exists_endsLine h₁ h
  have habove : above (u ++ v) ((terminators u).length + 1) = .ok u := by
    rw [above, lineStart_of_endsLine hend hp, split_append]
    rfl
  rw [habove, Except.ok.injEq]
  constructor
  · rintro rfl
    exact ⟨v, rfl, hend, hp, rfl⟩
  · rintro ⟨b, heq, hend', hp', hline⟩
    have hstart := lineStart_of_endsLine hend' hp'
    rw [← heq, hline, lineStart_of_endsLine hend hp] at hstart
    exact (append_inj_of_size heq hstart).1

/-- What stands above a line begins with the lines above another one and the margin of that. -/
theorem above_reindented {u m l q : Text} (hm : m.Flat) (hne : l ≠ []) (hhead : l.head? ≠ some '\n')
    (hend : l.EndsLine) (hp : ¬PartsPair l q) :
    above (u ++ m ++ l ++ q) ((terminators u).length + (terminators l).length + 1) =
      .ok (u ++ m ++ l) := by
  have hpair : ¬PartsPair (u ++ m ++ l) q := by rwa [partsPair_append_left hne]
  have hterm : (terminators (u ++ m ++ l)).length =
      (terminators u).length + (terminators l).length := by
    rw [List.append_assoc, terminators_append (not_partsPair_of_head? (hm.head?_append hhead)),
      terminators_append hm.not_partsPair_left, hm.terminators_eq, List.nil_append, List.length_append]
  refine (above_eq_ok_iff (Nat.le_add_left 1 _) ?_).2 ⟨q, rfl, fun c hc => ?_, hpair, by rw [hterm]⟩
  · rw [count_of, terminators_append hpair, List.length_append, hterm]
    omega
  · rw [List.getLast?_append_of_ne_nil _ hne] at hc
    exact hend c hc

theorem above_of_count_lt {t : Text} {line : Nat} (h : (Lines.of t).count < line) :
    above t line = .ok t := by
  have hsplit := split_append t []
  rw [List.append_nil] at hsplit
  rw [above, lineStart_of_count_lt h, hsplit]
  rfl

namespace SameAbove

variable {t t' : Text} {line line' : Nat}

theorem above_eq (h : SameAbove line t t') : above t line = above t' line := by
  obtain ⟨a, ha, ha'⟩ := h
  rw [ha, ha']

/-- What is the same above a line is the same above those before it. -/
theorem mono (h : SameAbove line' t t') (h₁ : 1 ≤ line) (hle : line ≤ line')
    (ht : line' ≤ (Lines.of t).count) (ht' : line' ≤ (Lines.of t').count) : SameAbove line t t' := by
  obtain ⟨a, ha, ha'⟩ := h
  obtain ⟨b, rfl, -, hp, hline⟩ := (above_eq_ok_iff (by omega) ht).1 ha
  obtain ⟨b', rfl, -, hp', -⟩ := (above_eq_ok_iff (by omega) ht').1 ha'
  obtain ⟨x, y, rfl, hend, hpxy, hlinex⟩ := exists_endsLine (t := a) h₁ (by rwa [count_of, hline])
  have hparts : ∀ z, ¬PartsPair (x ++ y) z → ¬PartsPair x (y ++ z) := by
    intro z hz
    by_cases hy : y = []
    · subst hy
      rwa [List.append_nil] at hz
    · rwa [partsPair_append_right hy]
  refine ⟨x, (above_eq_ok_iff h₁ (by omega)).2 ⟨y ++ b, ?_, hend, hparts b hp, hlinex⟩,
    (above_eq_ok_iff h₁ (by omega)).2 ⟨y ++ b', ?_, hend, hparts b' hp', hlinex⟩⟩
  · rw [List.append_assoc]
  · rw [List.append_assoc]

end SameAbove

end Text

end Indentation
