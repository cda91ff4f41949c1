import Indentation.Proofs.Text.LineEnds
import Mathlib.Order.Bounds.Basic

/-! # Places and offsets

Every cut of a text has a line and a column, which can be turned back into its offset and come in the
order of the offsets. -/

namespace Indentation

/-- A place is before another one on an earlier line, or on the same line in an earlier column. -/
def LineColumn.Before (a b : LineColumn) : Prop :=
  a.line < b.line ∨ a.line = b.line ∧ a.column < b.column

theorem LineColumn.Before.asymm {a b : LineColumn} (h : a.Before b) : ¬b.Before a := by
  rintro (hba | ⟨hline, hba⟩) <;> rcases h with hab | ⟨hline', hab⟩ <;> omega

theorem LineColumn.not_before_self (a : LineColumn) : ¬a.Before a := fun h => h.asymm h

namespace Lines

open Text

/-- The offset of a place: that of its line and the size of the characters before its column. -/
def offset (lines : Lines) (text : Text) (place : LineColumn) : Except Fault Nat := do
  let start := lines.lineStart text place.line
  let (_, rest) ← Text.split text start
  return start + Text.size (rest.take (place.column - 1))

/-- The line of an offset is the last one that starts at it or before it. -/
theorem isGreatest_lineOf (t : Text) (p : Nat) :
    IsGreatest {line | 1 ≤ line ∧ line ≤ (of t).count ∧ (of t).lineStart t line ≤ p}
      ((of t).lineOf p) := by
  have hlow := one_le_lineOf t p
  have hcount := lineOf_le_count t p
  refine ⟨⟨hlow, hcount, ?_⟩, fun line ⟨h₁, h, hle⟩ => ?_⟩
  · rw [lineStart_of_le_count hlow hcount, ← row_lt_lineOf_iff (by omega)]
    omega
  · rw [lineStart_of_le_count h₁ h, ← row_lt_lineOf_iff (by omega)] at hle
    omega

/-- A text around an offset: what is above the line of the offset, what leads up to the offset on that
line, and what is behind it. -/
structure Around (t : Text) (p : Nat) (above lead behind : Text) : Prop where
  text_eq : t = above ++ (lead ++ behind)
  size_above : size above = (of t).lineStart t ((of t).lineOf p)
  size_lead : size above + size lead = p

variable {t above lead behind above' lead' behind' : Text} {p q : Nat} {a b : LineColumn}

theorem exists_around (h : t.Cuts p) : ∃ above lead behind, Around t p above lead behind := by
  obtain ⟨u, behind, rfl, rfl⟩ := cuts_iff.1 h
  obtain ⟨above, lead, hu, -, hsize⟩ := exists_lineStart u behind
  refine ⟨above, lead, behind, by rw [← List.append_assoc, ← hu], hsize, ?_⟩
  rw [← size_append, ← hu]

theorem Around.lineColumn_eq (h : Around t p above lead behind) :
    (of t).lineColumn t p = .ok ⟨(of t).lineOf p, lead.length + 1⟩ := by
  have hcut : split t p = .ok (above ++ lead, behind) :=
    split_eq_ok_iff.2 ⟨by rw [h.text_eq, List.append_assoc], by rw [size_append, h.size_lead]⟩
  simp only [lineColumn, column, hcut, ← h.size_above, split_append, bind, Except.bind, pure,
    Except.pure]

theorem Around.slice_eq (h : Around t p above lead behind) :
    ∃ r, Range.of ((of t).lineStart t ((of t).lineOf p)) p = .ok r ∧ slice t r = .ok lead := by
  have hle : size above ≤ p := by
    have := h.size_lead
    omega
  refine ⟨⟨size above, p, hle⟩, by rw [← h.size_above, Range.of, dif_pos hle], ?_⟩
  exact slice_eq_ok_iff.2 ⟨above, behind, by rw [h.text_eq, List.append_assoc], rfl,
    by rw [size_append, h.size_lead]⟩

/-- The offset of the place of an offset is that offset. -/
theorem Around.offset_eq (h : Around t p above lead behind) :
    (of t).offset t ⟨(of t).lineOf p, lead.length + 1⟩ = .ok p := by
  have hcut : split t (size above) = .ok (above, lead ++ behind) :=
    split_eq_ok_iff.2 ⟨h.text_eq, rfl⟩
  simp only [offset, ← h.size_above, hcut, bind, Except.bind, pure, Except.pure, Nat.add_sub_cancel,
    List.take_left, h.size_lead]

/-- Of two offsets on one line the later one has more characters before it. -/
theorem Around.length_lt_length (h : Around t p above lead behind)
    (h' : Around t q above' lead' behind') (hline : (of t).lineOf p = (of t).lineOf q)
    (hlt : p < q) : lead.length < lead'.length := by
  have hp := h.size_lead
  have hq := h'.size_lead
  have habove : size above = size above' := by rw [h.size_above, h'.size_above, hline]
  obtain ⟨-, hrest⟩ := append_inj_of_size (h.text_eq.symm.trans h'.text_eq) habove
  obtain ⟨m, rfl, -⟩ := exists_between hrest (by omega)
  have hm : m ≠ [] := by
    rintro rfl
    rw [List.append_nil] at hq
    omega
  rw [List.length_append]
  exact Nat.lt_add_of_pos_right (List.length_pos_iff.2 hm)

theorem cuts_of_lineColumn (h : (of t).lineColumn t p = .ok a) : t.Cuts p := by
  rw [cuts_iff]
  rcases hs : split t p with e | ⟨u, v⟩
  · simp [lineColumn, column, hs, bind, Except.bind] at h
  · exact ⟨u, v, split_eq_ok_iff.1 hs⟩

theorem before_of_lt (ha : (of t).lineColumn t p = .ok a) (hb : (of t).lineColumn t q = .ok b)
    (hlt : p < q) : a.Before b := by
  obtain ⟨above, lead, behind, h⟩ := exists_around (cuts_of_lineColumn ha)
  obtain ⟨above', lead', behind', h'⟩ := exists_around (cuts_of_lineColumn hb)
  obtain rfl := Except.ok.inj (h.lineColumn_eq.symm.trans ha)
  obtain rfl := Except.ok.inj (h'.lineColumn_eq.symm.trans hb)
  rcases Nat.lt_or_eq_of_le (lineOf_mono t (Nat.le_of_lt hlt)) with hline | hline
  · exact .inl hline
  · exact .inr ⟨hline, Nat.succ_lt_succ (h.length_lt_length h' hline hlt)⟩

theorem lt_iff_before (ha : (of t).lineColumn t p = .ok a) (hb : (of t).lineColumn t q = .ok b) :
    p < q ↔ a.Before b := by
  refine ⟨before_of_lt ha hb, fun h => ?_⟩
  rcases Nat.lt_trichotomy p q with hlt | rfl | hgt
  · exact hlt
  · obtain rfl := Except.ok.inj (ha.symm.trans hb)
    exact absurd h a.not_before_self
  · exact absurd h (before_of_lt hb ha hgt).asymm

/-- Lines and columns are exact: every cut has a place, on the last line that starts at it or before
it and in the column behind the characters from there, from which its offset is found again. Different
cuts have different places, in the order of the cuts. -/
theorem lineColumn_exact (t : Text) :
    (∀ p, t.Cuts p →
      IsGreatest {line | 1 ≤ line ∧ line ≤ (of t).count ∧ (of t).lineStart t line ≤ p}
        ((of t).lineOf p) ∧
      ∃ place r lead, (of t).lineColumn t p = .ok place ∧
        Range.of ((of t).lineStart t ((of t).lineOf p)) p = .ok r ∧ slice t r = .ok lead ∧
        place.line = (of t).lineOf p ∧ place.column - 1 = lead.length ∧ 1 ≤ place.column ∧
        (of t).offset t place = .ok p) ∧
    ∀ p q a b, (of t).lineColumn t p = .ok a → (of t).lineColumn t q = .ok b →
      (a = b → p = q) ∧ (p < q ↔ a.Before b) := by
  refine ⟨fun p hp => ⟨isGreatest_lineOf t p, ?_⟩, fun p q a b ha hb => ⟨?_, lt_iff_before ha hb⟩⟩
  · obtain ⟨above, lead, behind, h⟩ := exists_around hp
    obtain ⟨r, hr, hlead⟩ := h.slice_eq
    exact ⟨_, r, lead, h.lineColumn_eq, hr, hlead, rfl, rfl, Nat.le_add_left 1 _, h.offset_eq⟩
  · rintro rfl
    have hpq := (lt_iff_before ha hb).not.2 a.not_before_self
    have hqp := (lt_iff_before hb ha).not.2 a.not_before_self
    omega

/-- Between CR and LF an offset is still on the line that they end, behind the CR. -/
theorem lineColumn_exact_behindCr :
    (of "é\r\nxé".toList).lineColumn "é\r\nxé".toList 3 = .ok ⟨1, 3⟩ ∧
      (of "é\r\nxé".toList).lineColumn "é\r\nxé".toList 7 = .ok ⟨2, 3⟩ ∧
      (of "é\r\nxé".toList).offset "é\r\nxé".toList ⟨2, 3⟩ = .ok 7 ∧
      LineColumn.Before ⟨1, 3⟩ ⟨2, 3⟩ := by
  have h₃ : (of "é\r\nxé".toList).lineColumn "é\r\nxé".toList 3 = .ok ⟨1, 3⟩ := by
    with_unfolding_all decide
  have h₇ : (of "é\r\nxé".toList).lineColumn "é\r\nxé".toList 7 = .ok ⟨2, 3⟩ := by
    with_unfolding_all decide
  have hexact := lineColumn_exact "é\r\nxé".toList
  obtain ⟨-, place, -, -, hplace, -, -, -, -, -, hoffset⟩ := hexact.1 7 (by decide)
  obtain rfl := Except.ok.inj (hplace.symm.trans h₇)
  exact ⟨h₃, h₇, hoffset, (hexact.2 3 7 _ _ h₃ h₇).2.1 (by decide)⟩

end Lines

end Indentation
