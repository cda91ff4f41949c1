import Indentation.Proofs.Text.Lines

/-! # Lines around an offset

Which lines start at or before an offset, and which end behind it, can be read off the line of the
offset, as long as it does not part a pair of CR and LF. -/

namespace Indentation

namespace Text

theorem terminators_eq_nil_iff {t : Text} : terminators t = [] ↔ t.Flat := by
  refine ⟨fun h => ?_, Flat.terminators_eq⟩
  fun_induction terminators t with
  | case1 => exact fun c hc => by cases hc
  | case2 rest => cases h
  | case3 c rest hcr ht => cases h
  | case4 c rest hcr ht ih =>
    intro d hd
    rcases List.mem_cons.1 hd with rfl | hd
    · rw [← isTerminator_iff] at ht
      simpa using ht
    · exact ih h d hd

theorem EndsLine.terminators_ne_nil {t : Text} (h : t.EndsLine) (hne : t ≠ []) :
    terminators t ≠ [] := by
  rw [Ne, terminators_eq_nil_iff]
  intro hflat
  obtain ⟨c, hc⟩ := Option.isSome_iff_exists.1 (List.getLast?_isSome.2 hne)
  have := h c hc
  rw [hflat c (List.mem_of_getLast? hc)] at this
  cases this

end Text

namespace Lines

open Text

/-- An offset between CR and LF is still on the line that CR LF ends. -/
theorem lineOf_append_of_partsPair {a b : Text} (h : PartsPair a b) :
    (of (a ++ b)).lineOf (size a) = (terminators a).length := by
  obtain ⟨u, rfl⟩ := List.getLast?_eq_some_iff.1 h.1
  obtain ⟨v, rfl⟩ := List.head?_eq_some_iff.1 h.2
  have hu : ¬PartsPair u (['\r'] ++ '\n' :: v) := fun hp => by cases hp.2
  have hu' : ¬PartsPair u ['\r'] := fun hp => by cases hp.2
  have hlow := lineOf_append hu
  have hsize : size (u ++ ['\r']) = size u + 1 := by simp [show ('\r' : Char).utf8Size = 1 from rfl]
  have hterm : (terminators (u ++ ['\r'])).length = (terminators u).length + 1 := by
    rw [terminators_append hu', List.length_append]
    rfl
  rw [List.append_assoc, hterm]
  apply Nat.le_antisymm
  · by_contra hlt
    rw [Nat.not_le] at hlt
    have hstarts : 0 :: startsFrom 0 (u ++ (['\r'] ++ '\n' :: v)) =
        (0 :: startsFrom 0 u) ++ (size u + 2) :: startsFrom (size u + 2) v := by
      rw [startsFrom_append hu, Nat.zero_add]
      rfl
    have hlen : (0 :: startsFrom 0 u).length = (terminators u).length + 1 := by
      rw [List.length_cons, length_startsFrom]
    have hrow := Nat.lt_of_lt_of_le hlt (lineOf_le_count _ _)
    have hle := (row_lt_lineOf_iff hrow).1 hlt
    rw [hstarts, ← hlen, List.getD_append_right _ _ _ _ le_rfl, Nat.sub_self,
      List.getD_cons_zero] at hle
    omega
  · rw [← hlow]
    exact lineOf_mono _ (by omega)

/-- Two texts with the same terminators before an offset have the offset on the same line. -/
theorem lineOf_append_congr {a b a' b' : Text} (ht : terminators a = terminators a')
    (hp : PartsPair a b ↔ PartsPair a' b') :
    (of (a ++ b)).lineOf (size a) = (of (a' ++ b')).lineOf (size a') := by
  by_cases h : PartsPair a b
  · rw [lineOf_append_of_partsPair h, lineOf_append_of_partsPair (hp.1 h), ht]
  · rw [lineOf_append h, lineOf_append (fun h' => h (hp.2 h')), ht]

theorem lineStart_of_le_count {t : Text} {line : Nat} (h₁ : 1 ≤ line) (h : line ≤ (of t).count) :
    (of t).lineStart t line = (0 :: startsFrom 0 t).getD (line - 1) 0 := by
  have hrow : line - 1 < (of t).starts.size := by
    rw [count] at h
    omega
  rw [lineStart, Array.getElem?_eq_getElem hrow, Option.getD_some, ← getD_starts,
    Array.getD_eq_getD_getElem?, Array.getElem?_eq_getElem hrow, Option.getD_some]

theorem lineStart_of_count_lt {t : Text} {line : Nat} (h : (of t).count < line) :
    (of t).lineStart t line = size t := by
  rw [lineStart, Array.getElem?_eq_none, Option.getD_none]
  simp only [count] at h
  omega

theorem lineEnd_of_count_le {t : Text} {line : Nat} (h : (of t).count ≤ line) :
    (of t).lineEnd t line = size t := by
  rw [lineEnd, Array.getElem?_eq_none]
  simpa only [count] using h

theorem lineStart_le_size {t : Text} {line : Nat} (h₁ : 1 ≤ line) :
    (of t).lineStart t line ≤ size t := by
  by_cases h : line ≤ (of t).count
  · rw [lineStart_of_le_count h₁ h]
    have hlt : line - 1 < (0 :: startsFrom 0 t).length := by
      rw [count, size_starts] at h
      omega
    rw [List.getD_eq_getElem _ _ hlt]
    rcases List.mem_cons.1 (List.getElem_mem hlt) with h₀ | h₀
    · rw [h₀]
      exact Nat.zero_le _
    · have := (mem_startsFrom_bounds h₀).2
      omega
  · rw [lineStart_of_count_lt (Nat.lt_of_not_le h)]

/-- A line starts at or before an offset if it is not behind the line of the offset. -/
theorem lineStart_le_iff {t : Text} {line p : Nat} (h₁ : 1 ≤ line) (hp : p < size t) :
    (of t).lineStart t line ≤ p ↔ line ≤ (of t).lineOf p := by
  by_cases h : line ≤ (of t).count
  · rw [lineStart_of_le_count h₁ h, ← row_lt_lineOf_iff (by omega)]
    omega
  · have := lineOf_le_count t p
    rw [lineStart_of_count_lt (Nat.lt_of_not_le h)]
    omega

/-- A line starts behind a terminator and not inside one. -/
theorem mem_startsFrom_cut {o n : Nat} {t : Text} (h : n ∈ startsFrom o t) :
    ∃ a b, t = a ++ b ∧ o + size a = n ∧ (∃ c ∈ a.getLast?, Lexeme.isTerminator c = true) ∧
      ¬PartsPair a b := by
  have hcons : ∀ (c : Char) (a b : Text), (∃ d ∈ a.getLast?, Lexeme.isTerminator d = true) →
      ¬PartsPair a b → (∃ d ∈ (c :: a).getLast?, Lexeme.isTerminator d = true) ∧
        ¬PartsPair (c :: a) b := by
    rintro c a b ⟨d, hd, ht⟩ hp
    cases a with
    | nil => cases hd
    | cons e a => exact ⟨⟨d, by simpa using hd, ht⟩, fun hp' => hp (by simpa [PartsPair] using hp')⟩
  fun_induction startsFrom o t with
  | case1 => cases h
  | case2 o rest ih =>
    have h₁ : ('\r' : Char).utf8Size = 1 := rfl
    have h₂ : ('\n' : Char).utf8Size = 1 := rfl
    rcases List.mem_cons.1 h with rfl | h
    · exact ⟨['\r', '\n'], rest, rfl, by simp [h₁, h₂], ⟨'\n', rfl, rfl⟩, fun hp => by cases hp.1⟩
    · obtain ⟨a, b, rfl, hsize, ht, hp⟩ := ih h
      obtain ⟨ht, hp⟩ := hcons '\n' a b ht hp
      obtain ⟨ht, hp⟩ := hcons '\r' _ b ht hp
      refine ⟨'\r' :: '\n' :: a, b, rfl, ?_, ht, hp⟩
      simp only [size_cons]
      omega
  | case3 o c rest hcr next ht ih =>
    rcases List.mem_cons.1 h with rfl | h
    · exact ⟨[c], rest, rfl, by simp [next], ⟨c, rfl, isTerminator_iff.2 ht⟩,
        not_partsPair_singleton hcr⟩
    · obtain ⟨a, b, rfl, hsize, ht', hp⟩ := ih h
      obtain ⟨ht', hp⟩ := hcons c a b ht' hp
      refine ⟨c :: a, b, rfl, ?_, ht', hp⟩
      simp only [size_cons, next] at *
      omega
  | case4 o c rest hcr next ht ih =>
    obtain ⟨a, b, rfl, hsize, ht', hp⟩ := ih h
    obtain ⟨ht', hp⟩ := hcons c a b ht' hp
    refine ⟨c :: a, b, rfl, ?_, ht', hp⟩
    simp only [size_cons, next] at *
    omega

/-- Where a line but the first one starts. -/
theorem exists_cut_of_row {t : Text} (row : Nat) (h : row + 1 < (of t).count) :
    ∃ x y, t = x ++ y ∧ size x = (0 :: startsFrom 0 t).getD (row + 1) 0 ∧
      (∃ c ∈ x.getLast?, Lexeme.isTerminator c = true) ∧ ¬PartsPair x y := by
  have hlen : row < (startsFrom 0 t).length := by
    rw [count, size_starts, List.length_cons] at h
    omega
  have hmem : (0 :: startsFrom 0 t).getD (row + 1) 0 ∈ startsFrom 0 t := by
    rw [List.getD_cons_succ, List.getD_eq_getElem _ _ hlen]
    exact List.getElem_mem hlen
  obtain ⟨x, y, hxy, hx, hend, hp⟩ := mem_startsFrom_cut hmem
  exact ⟨x, y, hxy, by rw [← hx, Nat.zero_add], hend, hp⟩

/-- Lines start at cuts behind terminators. -/
theorem exists_cut_of_start {t : Text} {row next : Nat} (h : (of t).starts[row]? = some next) :
    ∃ x y, t = x ++ y ∧ size x = next ∧ x.EndsLine := by
  obtain ⟨hlt, hget⟩ := Array.getElem?_eq_some_iff.1 h
  have hstart : (0 :: startsFrom 0 t).getD row 0 = next := by
    rw [← getD_starts, Array.getD_eq_getD_getElem?, h, Option.getD_some]
  cases row with
  | zero => exact ⟨[], t, rfl, hstart, by rintro c ⟨⟩⟩
  | succ row =>
    obtain ⟨x, y, hxy, hx, ⟨c, hc, ht⟩, -⟩ := exists_cut_of_row row hlt
    refine ⟨x, y, hxy, hx.trans hstart, fun d hd => ?_⟩
    obtain rfl : c = d := Option.some.inj (hc.symm.trans hd)
    exact ht

/-- The line of a cut starts at a cut, which the search through the starts of lines finds. -/
theorem exists_lineStart (a b : Text) : ∃ u v, a = u ++ v ∧ u.EndsLine ∧
    size u = (of (a ++ b)).lineStart (a ++ b) ((of (a ++ b)).lineOf (size a)) := by
  have hcount := lineOf_le_count (a ++ b) (size a)
  have hlow := one_le_lineOf (a ++ b) (size a)
  have hrow : (of (a ++ b)).lineOf (size a) - 1 < (of (a ++ b)).count := by omega
  have hstart := lineStart_of_le_count hlow hcount
  have hget : (of (a ++ b)).starts[(of (a ++ b)).lineOf (size a) - 1]? =
      some ((of (a ++ b)).lineStart (a ++ b) ((of (a ++ b)).lineOf (size a))) := by
    rw [lineStart, Array.getElem?_eq_getElem hrow, Option.getD_some]
  obtain ⟨u, y, huy, hu, hend⟩ := exists_cut_of_start hget
  have hle := (row_lt_lineOf_iff (p := size a) hrow).1 (by omega)
  rw [← hstart, ← hu] at hle
  obtain ⟨v, rfl, -⟩ := exists_between huy.symm hle
  exact ⟨u, v, rfl, hend, hu⟩

/-- Between characters of a text there is always a column. -/
theorem exists_column {a b : Text} :
    ∃ n, (of (a ++ b)).column (a ++ b) (size a) = .ok n := by
  obtain ⟨u, v, rfl, -, hu⟩ := exists_lineStart a b
  have hsplit : split (u ++ v) (size u) = .ok (u, v) := split_append u v
  refine ⟨v.length, ?_⟩
  simp only [column, split_append, ← hu, hsplit, bind, Except.bind, pure, Except.pure]

/-- Looking back to the start of a line parts no pair. -/
theorem not_partsPair_earlierLines {a b : Text} (hp : ¬PartsPair a b) :
    ¬PartsPair (earlierLines a) (Lexeme.lastLine a ++ b) := by
  by_cases hl : Lexeme.lastLine a = []
  · have ha := earlierLines_append_lastLine a
    rw [hl, List.append_nil] at ha
    rwa [hl, ha, List.nil_append]
  · rw [partsPair_append_right hl]
    exact (flat_lastLine a).not_partsPair_right

/-- Where a line ends there are more terminators than anywhere before. -/
theorem length_terminators_lt {a b x y : Text} (ha : a.EndsLine) (heq : x ++ y = a ++ b)
    (hp : ¬PartsPair x y) (hlt : size x < size a) :
    (terminators x).length < (terminators a).length := by
  obtain ⟨z, rfl, rfl⟩ := exists_between heq (Nat.le_of_lt hlt)
  have hz : z ≠ [] := by
    rintro rfl
    rw [List.append_nil] at hlt
    exact absurd hlt (Nat.lt_irrefl _)
  have hzend : z.EndsLine := by
    rwa [EndsLine, List.getLast?_append_of_ne_nil x hz] at ha
  have hpz : ¬PartsPair x z := by rwa [partsPair_append_right hz] at hp
  have := List.length_pos_iff.2 (hzend.terminators_ne_nil hz)
  rw [terminators_append hpz, List.length_append]
  omega

/-- The search through the starts of lines and the look back through the text agree on where the line
of an offset starts. -/
theorem lineStart_lineOf {a b : Text} (hp : ¬PartsPair a b) :
    (of (a ++ b)).lineStart (a ++ b) ((of (a ++ b)).lineOf (size a)) = size (earlierLines a) := by
  have hline := lineOf_append hp
  have hcount := lineOf_le_count (a ++ b) (size a)
  have hlow := one_le_lineOf (a ++ b) (size a)
  have hend := endsLine_earlierLines a
  have hterm := terminators_earlierLines a
  have heq : a ++ b = earlierLines a ++ (Lexeme.lastLine a ++ b) := by
    rw [← List.append_assoc, earlierLines_append_lastLine]
  -- the line of the offset is the line of the start that looking back finds
  have hline' : (of (a ++ b)).lineOf (size (earlierLines a)) = (of (a ++ b)).lineOf (size a) := by
    rw [hline, ← hterm, heq]
    exact lineOf_append (not_partsPair_earlierLines hp)
  have hrow : (of (a ++ b)).lineOf (size a) - 1 < (of (a ++ b)).count := by omega
  rw [lineStart_of_le_count hlow hcount]
  apply Nat.le_antisymm
  · rw [← row_lt_lineOf_iff hrow, hline']
    omega
  · -- no line starts further on, since another terminator would come before it
    by_cases hone : (of (a ++ b)).lineOf (size a) = 1
    · have hnil : earlierLines a = [] := by
        by_contra hne
        have := List.length_pos_iff.2 (hend.terminators_ne_nil hne)
        rw [hterm] at this
        omega
      rw [hnil]
      exact Nat.zero_le _
    · obtain ⟨k, hk⟩ : ∃ k, (of (a ++ b)).lineOf (size a) = k + 2 :=
        ⟨(of (a ++ b)).lineOf (size a) - 2, by omega⟩
      have hpred : (of (a ++ b)).lineOf (size a) - 1 = k + 1 := by omega
      obtain ⟨x, y, hxy, hx, -, hpx⟩ := exists_cut_of_row (t := a ++ b) k (by omega)
      rw [← hpred] at hx
      have hlater : (of (a ++ b)).lineOf (size a) - 1 < (of (a ++ b)).lineOf (size x) :=
        (row_lt_lineOf_iff hrow).2 (Nat.le_of_eq hx.symm)
      have hx' : (of (a ++ b)).lineOf (size x) = (terminators x).length + 1 := by
        rw [hxy]
        exact lineOf_append hpx
      rw [← hx]
      by_contra hlt
      have := length_terminators_lt hend (hxy.symm.trans heq) hpx (Nat.lt_of_not_le hlt)
      rw [hterm] at this
      omega

/-- The column of an offset counts the characters before it on its line. -/
theorem column_append {a b : Text} (hp : ¬PartsPair a b) :
    (of (a ++ b)).column (a ++ b) (size a) = .ok (Lexeme.lastLine a).length := by
  have hsplit := split_append (earlierLines a) (Lexeme.lastLine a)
  rw [earlierLines_append_lastLine] at hsplit
  simp only [column, split_append, lineStart_lineOf hp, hsplit, bind, Except.bind, pure, Except.pure]

/-- A text that ends with a terminator ends with one of one or two bytes, and with two only if they
are CR LF. -/
theorem terminatorSize_spec {a : Text} {c : Char} (hc : a.getLast? = some c)
    (ht : Lexeme.isTerminator c = true) :
    terminatorSize a = 1 ∨ terminatorSize a = 2 ∧ ∃ u, a = u ++ ['\r', '\n'] := by
  obtain ⟨u, rfl⟩ := List.getLast?_eq_some_iff.1 hc
  rcases isTerminator_iff.1 ht with rfl | rfl
  · cases hu : u.getLast? with
    | none =>
      rw [List.getLast?_eq_none_iff] at hu
      subst hu
      exact .inl rfl
    | some d =>
      obtain ⟨v, rfl⟩ := List.getLast?_eq_some_iff.1 hu
      by_cases hd : d = '\r'
      · subst hd
        exact .inr ⟨by simp [terminatorSize], v, by simp⟩
      · left
        simp only [terminatorSize, List.reverse_append, List.reverse_cons, List.reverse_nil,
          List.nil_append, List.cons_append]
        split
        · next heq =>
          simp only [List.cons.injEq, true_and] at heq
          exact absurd heq.1 hd
        · rfl
        · next h => cases h
        · next h _ => exact absurd rfl (h (d :: v.reverse))
  · left
    simp [terminatorSize]

/-- The last line ends with the text, and any other before the terminator that the next one stands
behind. -/
theorem lineEnd_spec (t : Text) {line : Nat} (h₁ : 1 ≤ line) :
    (of t).count ≤ line ∧ (of t).lineEnd t line = size t ∨
      line < (of t).count ∧ ∃ x y c, t = x ++ y ∧ size x = (0 :: startsFrom 0 t).getD line 0 ∧
        x.getLast? = some c ∧ Lexeme.isTerminator c = true ∧
        (of t).lineEnd t line = size x - terminatorSize x := by
  by_cases h : line < (of t).count
  · have hrow : line < (of t).starts.size := h
    have hget : (of t).starts[line]? = some ((0 :: startsFrom 0 t).getD line 0) := by
      rw [Array.getElem?_eq_getElem hrow, ← getD_starts, Array.getD_eq_getD_getElem?,
        Array.getElem?_eq_getElem hrow, Option.getD_some]
    obtain ⟨x, y, hxy, hx, ⟨c, hc, ht⟩, -⟩ := exists_cut_of_row (t := t) (line - 1) (by omega)
    rw [Nat.sub_add_cancel h₁] at hx
    refine .inr ⟨h, x, y, c, hxy, hx, hc, ht, ?_⟩
    simp only [lineEnd, hget, ← hx]
    rw [hxy, split?_append]
  · have hle := Nat.le_of_not_lt h
    exact .inl ⟨hle, lineEnd_of_count_le hle⟩

theorem lineEnd_le_size {t : Text} {line : Nat} (h₁ : 1 ≤ line) : (of t).lineEnd t line ≤ size t := by
  rcases lineEnd_spec t h₁ with ⟨-, heq⟩ | ⟨-, x, y, c, rfl, -, -, -, heq⟩
  · exact Nat.le_of_eq heq
  · rw [heq, size_append]
    omega

/-- A line ends behind an offset or at it if it is not before the line of the offset. -/
theorem le_lineEnd_iff {a b : Text} {line : Nat} (h₁ : 1 ≤ line) (hp : ¬PartsPair a b) :
    size a ≤ (of (a ++ b)).lineEnd (a ++ b) line ↔ (of (a ++ b)).lineOf (size a) ≤ line := by
  have hcount := lineOf_le_count (a ++ b) (size a)
  rcases lineEnd_spec (a ++ b) h₁ with ⟨h, hend⟩ | ⟨h, x, y, c, hxy, hx, hc, ht, hend⟩
  · rw [hend, size_append]
    omega
  · have hiff := row_lt_lineOf_iff (p := size a) h
    rw [← hx] at hiff
    rw [hend]
    constructor
    · intro hle
      by_contra hlt
      have hxa := hiff.1 (by omega)
      have hsize : terminatorSize x ≤ size x ∧ 0 < terminatorSize x := by
        rcases terminatorSize_spec hc ht with h' | ⟨h', u, rfl⟩
        · have := size_pos (t := x) (by rintro rfl; cases hc)
          omega
        · simp [h', show ('\r' : Char).utf8Size = 1 from rfl, show ('\n' : Char).utf8Size = 1 from rfl]
      omega
    · intro hle
      have hax : size a < size x := by
        by_contra hge
        have := hiff.2 (by omega)
        omega
      rcases terminatorSize_spec hc ht with h' | ⟨h', u, rfl⟩
      · omega
      · rw [h']
        have hsize : size (u ++ ['\r', '\n']) = size u + 2 := by
          simp [show ('\r' : Char).utf8Size = 1 from rfl, show ('\n' : Char).utf8Size = 1 from rfl]
        by_contra hgt
        have hua : size a = size (u ++ ['\r']) := by
          simp only [size_append, size_cons, size_nil, show ('\r' : Char).utf8Size = 1 from rfl]
          omega
        have hab : a ++ b = (u ++ ['\r']) ++ ('\n' :: y) := by rw [hxy]; simp
        obtain ⟨rfl, rfl⟩ := append_inj_of_size hab hua
        exact hp ⟨by simp, rfl⟩

/-- The LF behind a CR makes no terminator of its own. -/
theorem terminators_length_of_partsPair {a v : Text} (hp : PartsPair a ('\n' :: v)) :
    (terminators (a ++ ['\n'])).length = (terminators a).length := by
  obtain ⟨u, rfl⟩ := List.getLast?_eq_some_iff.1 hp.1
  have hpair : ¬PartsPair u (['\r'] ++ ['\n']) := fun h => by cases h.2
  have hcr : ¬PartsPair u ['\r'] := fun h => by cases h.2
  rw [List.append_assoc, terminators_append hpair, terminators_append hcr, List.length_append,
    List.length_append]
  rfl

/-- No line ends between CR and LF. -/
theorem lineEnd_ne_of_partsPair {a b : Text} {line : Nat} (h₁ : 1 ≤ line) (hp : PartsPair a b) :
    (of (a ++ b)).lineEnd (a ++ b) line ≠ size a := by
  obtain ⟨v, rfl⟩ := List.head?_eq_some_iff.1 hp.2
  intro heq
  rcases lineEnd_spec (a ++ '\n' :: v) h₁ with ⟨-, hend⟩ | ⟨-, x, y, c, hxy, -, hc, ht, hend⟩
  · rw [hend, size_append, size_cons, show ('\n' : Char).utf8Size = 1 from rfl] at heq
    omega
  · rw [hend] at heq
    -- the terminator that ends the line would begin with the LF and be the pair itself
    rcases terminatorSize_spec hc ht with h' | ⟨h', u, rfl⟩
    · obtain ⟨u, rfl⟩ := List.getLast?_eq_some_iff.1 hc
      have hua : size a = size u := by
        have hone : c.utf8Size = 1 := by rcases isTerminator_iff.1 ht with rfl | rfl <;> rfl
        simp only [size_append, size_cons, size_nil, h', hone] at heq
        omega
      rw [List.append_assoc] at hxy
      obtain ⟨rfl, hcons⟩ := append_inj_of_size hxy hua
      obtain ⟨rfl, -⟩ := List.cons.inj hcons
      obtain ⟨u, rfl⟩ := List.getLast?_eq_some_iff.1 hp.1
      simp [terminatorSize] at h'
    · have hua : size a = size u := by
        simp only [size_append, size_cons, size_nil, h', show ('\r' : Char).utf8Size = 1 from rfl,
          show ('\n' : Char).utf8Size = 1 from rfl] at heq
        omega
      rw [List.append_assoc] at hxy
      obtain ⟨rfl, hcons⟩ := append_inj_of_size hxy hua
      cases hcons

/-- A line reaches from its start to its end over the offsets that are on it and do not part CR and
LF. -/
theorem lineStart_le_and_le_lineEnd_iff {a b : Text} {line : Nat} (h₁ : 1 ≤ line) (hb : b ≠ []) :
    (of (a ++ b)).lineStart (a ++ b) line ≤ size a ∧ size a ≤ (of (a ++ b)).lineEnd (a ++ b) line ↔
      (of (a ++ b)).lineOf (size a) = line ∧ ¬PartsPair a b := by
  have hlt : size a < size (a ++ b) := by
    have := size_pos hb
    rw [size_append]
    omega
  by_cases hp : PartsPair a b
  · refine iff_of_false (fun ⟨hstart, hend⟩ => ?_) fun h => h.2 hp
    have hline := (lineStart_le_iff h₁ hlt).1 hstart
    have hbehind : size a < (of (a ++ b)).lineEnd (a ++ b) line :=
      lt_of_le_of_ne hend (lineEnd_ne_of_partsPair h₁ hp).symm
    -- the line would reach the offset behind the pair, which is on a later one
    obtain ⟨v, rfl⟩ := List.head?_eq_some_iff.1 hp.2
    have hnext : ¬PartsPair (a ++ ['\n']) v := fun h => by simp [PartsPair] at h
    have happend : a ++ '\n' :: v = (a ++ ['\n']) ++ v := by simp
    have hsize : size (a ++ ['\n']) = size a + 1 := by simp [show ('\n' : Char).utf8Size = 1 from rfl]
    have hlater := lineOf_append hnext
    have hle := (le_lineEnd_iff h₁ hnext).1
    rw [← happend, hsize] at hle hlater
    have hlast := hle hbehind
    rw [hlater, terminators_length_of_partsPair hp] at hlast
    rw [lineOf_append_of_partsPair hp] at hline
    omega
  · rw [lineStart_le_iff h₁ hlt, le_lineEnd_iff h₁ hp]
    constructor
    · rintro ⟨hstart, hend⟩
      exact ⟨Nat.le_antisymm hend hstart, hp⟩
    · rintro ⟨rfl, -⟩
      exact ⟨le_rfl, le_rfl⟩

end Lines

end Indentation
