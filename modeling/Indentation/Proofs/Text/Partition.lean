import Indentation.Proofs.Text.Above

/-!
# The lines of a text, put together again

A line is a body without terminators and, unless it is the last one, a terminator behind it.  The starts
of lines are the offsets behind terminators, so the end of a line, its terminator and the start of the
next one meet, and nothing of a text is lost between its lines.
-/

namespace Indentation

namespace Text

/-- What can end a line. -/
def endings : List Text := [['\n'], ['\r', '\n'], ['\r']]

/-- An offset is just behind an LF, or behind a CR that no LF follows. -/
def BehindEnding (t : Text) (p : Nat) : Prop :=
  ∃ a b, t = a ++ b ∧ size a = p ∧
    (a.getLast? = some '\n' ∨ a.getLast? = some '\r' ∧ b.head? ≠ some '\n')

/-- The first line of a text that has another one, its terminator, and what is behind. -/
theorem exists_ending {r : Text} (h : terminators r ≠ []) :
    ∃ body ending rest, r = body ++ (ending ++ rest) ∧ body.Flat ∧ ending ∈ endings ∧
      ¬PartsPair ending rest := by
  have hnil : Flat [] := fun _ hd => absurd hd List.not_mem_nil
  fun_induction terminators r with
  | case1 => exact absurd rfl h
  | case2 rest =>
    exact ⟨[], ['\r', '\n'], rest, rfl, hnil, by simp [endings], fun hp => by cases hp.1⟩
  | case3 c rest hcr ht =>
    refine ⟨[], [c], rest, rfl, hnil, ?_, ?_⟩
    · rcases ht with rfl | rfl <;> simp [endings]
    · rintro ⟨hc, hr⟩
      obtain ⟨rest', rfl⟩ := List.head?_eq_some_iff.1 hr
      exact hcr rest' (by simpa using hc) rfl
  | case4 c rest hcr ht ih =>
    obtain ⟨body, ending, after, rfl, hflat, hend, hp⟩ := ih h
    refine ⟨c :: body, ending, after, rfl, fun d hd => ?_, hend, hp⟩
    rcases List.mem_cons.1 hd with rfl | hd
    · rw [← isTerminator_iff] at ht
      simpa using ht
    · exact hflat d hd

theorem endsLine_of_mem_endings {a ending : Text} (h : ending ∈ endings) :
    (a ++ ending).EndsLine := by
  intro c hc
  simp only [endings, List.mem_cons, List.not_mem_nil, or_false] at h
  rcases h with rfl | rfl | rfl <;> · simp at hc; subst hc; rfl

theorem terminators_of_mem_endings {ending : Text} (h : ending ∈ endings) :
    (terminators ending).length = 1 := by
  simp only [endings, List.mem_cons, List.not_mem_nil, or_false] at h
  rcases h with rfl | rfl | rfl <;> rfl

theorem ne_nil_of_mem_endings {ending : Text} (h : ending ∈ endings) : ending ≠ [] := by
  rintro rfl
  simp [endings] at h

theorem Flat.not_mem {t : Text} (h : t.Flat) : '\n' ∉ t ∧ '\r' ∉ t :=
  ⟨fun hn => Bool.noConfusion (h _ hn), fun hr => Bool.noConfusion (h _ hr)⟩

end Text

namespace Lines

open Text

/-- Looking back from the start of the next line, the terminator of a line has the size it has. -/
theorem terminatorSize_append {a ending : Text} (h : ending ∈ endings) (hp : ¬PartsPair a ending) :
    terminatorSize (a ++ ending) = size ending := by
  simp only [endings, List.mem_cons, List.not_mem_nil, or_false] at h
  rcases h with rfl | rfl | rfl
  · cases ha : a.reverse with
    | nil => simp [terminatorSize, ha, show ('\n' : Char).utf8Size = 1 from rfl]
    | cons c v =>
      have hc : c ≠ '\r' := by
        rintro rfl
        exact hp ⟨by rw [← List.head?_reverse, ha]; rfl, rfl⟩
      simp only [terminatorSize, List.reverse_append, ha, List.reverse_cons, List.reverse_nil,
        List.nil_append, List.cons_append]
      split
      · next heq => exact absurd (List.cons.inj (List.cons.inj heq).2).1 hc
      · rfl
      · rfl
      · next h _ => exact absurd rfl (h (c :: v))
  · simp [terminatorSize, show ('\n' : Char).utf8Size = 1 from rfl,
      show ('\r' : Char).utf8Size = 1 from rfl]
  · simp [terminatorSize, show ('\r' : Char).utf8Size = 1 from rfl]

/-- How a line stands in a text: what is above it, its body, its terminator and what is below. -/
structure Stands (t : Text) (line : Nat) (above body ending below : Text) : Prop where
  text_eq : t = above ++ (body ++ (ending ++ below))
  start_eq : (of t).lineStart t line = size above
  end_eq : (of t).lineEnd t line = size (above ++ body)
  next_eq : (of t).lineStart t (line + 1) = size (above ++ body ++ ending)
  flat : body.Flat
  ending_mem : line < (of t).count → ending ∈ endings
  ending_eq : (of t).count ≤ line → ending = []

/-- A line that a terminator ends stands before the terminator. -/
theorem stands_of_ending {above body ending below : Text} (hend : above.EndsLine)
    (hp : ¬PartsPair above (body ++ (ending ++ below))) (hflat : body.Flat) (hmem : ending ∈ endings)
    (hpn : ¬PartsPair ending below) :
    Stands (above ++ (body ++ (ending ++ below))) ((terminators above).length + 1) above body ending
      below := by
  have hcut : above ++ (body ++ (ending ++ below)) = above ++ body ++ ending ++ below := by simp
  have hne := ne_nil_of_mem_endings hmem
  -- the terminator starts where the one before the line cannot have ended
  have hpe : ¬PartsPair (above ++ body) ending := by
    by_cases hb : body = []
    · subst hb
      rw [List.nil_append, partsPair_append_right hne] at hp
      rwa [List.append_nil]
    · rw [partsPair_append_left hb]
      exact hflat.not_partsPair_left
  have hpn' : ¬PartsPair (above ++ body ++ ending) below := by rwa [partsPair_append_left hne]
  have hterm : (terminators (above ++ body ++ ending)).length = (terminators above).length + 1 := by
    rw [terminators_append hpe, terminators_append hflat.not_partsPair_right, hflat.terminators_eq,
      List.append_nil, List.length_append, terminators_of_mem_endings hmem]
  have hnext := lineStart_of_endsLine (endsLine_of_mem_endings hmem) hpn'
  rw [hterm, ← hcut] at hnext
  have hlt : (terminators above).length + 1 < (of (above ++ (body ++ (ending ++ below)))).count := by
    rw [hcut, count_of, terminators_append hpn', List.length_append, hterm]
    omega
  refine ⟨rfl, lineStart_of_endsLine hend hp, ?_, hnext, hflat, fun _ => hmem, fun h => ?_⟩
  · have hrow : (terminators above).length + 1 <
        (of (above ++ (body ++ (ending ++ below)))).starts.size := hlt
    rw [lineStart, Nat.add_sub_cancel, Array.getElem?_eq_getElem hrow, Option.getD_some] at hnext
    simp only [lineEnd, Array.getElem?_eq_getElem hrow, hnext]
    rw [hcut, split?_append]
    simp only [terminatorSize_append hmem hpe, size_append, Nat.add_sub_cancel]
  · exact absurd h (Nat.not_le_of_lt hlt)

/-- Every line stands somewhere, and one past the end behind all of the text. -/
theorem exists_stands (t : Text) {line : Nat} (h₁ : 1 ≤ line) :
    ∃ above body ending below, Stands t line above body ending below := by
  rcases Nat.lt_or_ge (of t).count line with hpast | hle
  · refine ⟨t, [], [], [], by simp, lineStart_of_count_lt hpast, ?_, ?_, nofun, fun h => ?_, fun _ => rfl⟩
    · rw [lineEnd_of_count_le (Nat.le_of_lt hpast), List.append_nil]
    · rw [lineStart_of_count_lt (Nat.lt_succ_of_lt hpast), List.append_nil, List.append_nil]
    · exact absurd h (Nat.lt_asymm hpast)
  · obtain ⟨a, r, rfl, hend, hp, rfl⟩ := exists_endsLine h₁ hle
    by_cases hr : terminators r = []
    · have hlast : (of (a ++ r)).count = (terminators a).length + 1 := by
        rw [count_of, terminators_append hp, hr, List.append_nil]
      refine ⟨a, r, [], [], by simp, lineStart_of_endsLine hend hp,
        lineEnd_of_count_le (Nat.le_of_eq hlast), ?_, terminators_eq_nil_iff.1 hr, fun h => ?_,
        fun _ => rfl⟩
      · rw [lineStart_of_count_lt (by omega), List.append_nil]
      · omega
    · obtain ⟨body, ending, below, rfl, hflat, hmem, hpn⟩ := exists_ending hr
      exact ⟨a, body, ending, below, stands_of_ending hend hp hflat hmem hpn⟩

/-- What stands between the end of a line and the start of the next one. -/
def terminator (lines : Lines) (text : Text) (line : Nat) : Except Fault Text := do
  Text.slice text (← Range.of (lines.lineEnd text line) (lines.lineStart text (line + 1)))

/-- A line with its terminator. -/
def row (lines : Lines) (text : Text) (line : Nat) : Except Fault Text := do
  return (← lines.lineText text line) ++ (← lines.terminator text line)

namespace Stands

variable {t above body ending below : Text} {line : Nat}

theorem lineRange_eq (h : Stands t line above body ending below) :
    ∃ r, (of t).lineRange t line = .ok r ∧ r.start = size above ∧ r.stop = size (above ++ body) := by
  have hle : size above ≤ size (above ++ body) := by simp
  refine ⟨⟨_, _, hle⟩, ?_, rfl, rfl⟩
  rw [lineRange, h.start_eq, h.end_eq, Range.of, dif_pos hle]

theorem lineText_eq (h : Stands t line above body ending below) :
    (of t).lineText t line = .ok body := by
  obtain ⟨r, hr, hstart, hstop⟩ := h.lineRange_eq
  simp only [lineText, hr, bind, Except.bind]
  exact slice_eq_ok_iff.2 ⟨above, ending ++ below, by rw [h.text_eq]; simp, hstart.symm, hstop.symm⟩

theorem terminator_eq (h : Stands t line above body ending below) :
    (of t).terminator t line = .ok ending := by
  have hle : size (above ++ body) ≤ size (above ++ body ++ ending) := by simp
  simp only [terminator, h.end_eq, h.next_eq, Range.of, dif_pos hle, bind, Except.bind]
  exact slice_eq_ok_iff.2 ⟨above ++ body, below, by rw [h.text_eq]; simp, rfl, rfl⟩

theorem row_eq (h : Stands t line above body ending below) :
    (of t).row t line = .ok (body ++ ending) := by
  simp only [row, h.lineText_eq, h.terminator_eq, bind, Except.bind, pure, Except.pure]

end Stands

/-- The lines before one, put together, are what stands above it. -/
theorem exists_rows_above (t : Text) {n : Nat} :
    ∃ rows rest, (List.range' 1 n).mapM ((of t).row t) = .ok rows ∧ t = rows.flatten ++ rest ∧
      size rows.flatten = (of t).lineStart t (n + 1) := by
  induction n with
  | zero => exact ⟨[], t, rfl, rfl, by simp [lineStart, of]⟩
  | succ n ih =>
    obtain ⟨rows, rest, hrows, htext, hsize⟩ := ih
    obtain ⟨above, body, ending, below, hs⟩ := exists_stands t (Nat.le_add_left 1 n : 1 ≤ n + 1)
    obtain ⟨rfl, rfl⟩ := append_inj_of_size (htext.symm.trans hs.text_eq) (hsize.trans hs.start_eq)
    refine ⟨rows ++ [body ++ ending], below, ?_, ?_, ?_⟩
    · rw [List.range'_1_concat, Nat.add_comm 1 n, List.mapM_append, hrows]
      simp only [List.mapM_cons, List.mapM_nil, hs.row_eq, bind, Except.bind, pure, Except.pure]
    · rw [htext]
      simp
    · rw [hs.next_eq]
      simp

/-- The lines of a text, each with its terminator, are the text. -/
theorem flatten_rows (t : Text) :
    ((List.range' 1 (of t).count).mapM ((of t).row t)).map List.flatten = .ok t := by
  obtain ⟨rows, rest, hrows, htext, hsize⟩ := exists_rows_above t (n := (of t).count)
  rw [lineStart_of_count_lt (Nat.lt_succ_self _)] at hsize
  have happend : rows.flatten ++ rest = t ++ [] := by rw [List.append_nil, ← htext]
  rw [hrows, Except.map, (append_inj_of_size happend hsize).1]

/-- A line starts behind what ends a line. -/
theorem mem_startsFrom_of_endsLine {a b : Text} (hend : a.EndsLine) (hne : a ≠ [])
    (hp : ¬PartsPair a b) : size a ∈ startsFrom 0 (a ++ b) := by
  -- the start of the line behind the terminator is not the first one
  have hpos := List.length_pos_iff.2 (hend.terminators_ne_nil hne)
  have hle : (terminators a).length + 1 ≤ (of (a ++ b)).count := by
    rw [count_of, terminators_append hp, List.length_append]
    omega
  have hstart := lineStart_of_le_count (Nat.le_add_left 1 _) hle
  rw [lineStart_of_endsLine hend hp, Nat.add_sub_cancel] at hstart
  have hlen : (terminators a).length < (0 :: startsFrom 0 (a ++ b)).length := by
    rwa [← size_starts]
  rw [List.getD_eq_getElem _ _ hlen] at hstart
  rcases List.mem_cons.1 (List.getElem_mem hlen) with h | h
  · rw [← hstart, size_eq_zero] at h
    exact absurd h hne
  · rwa [← hstart] at h

theorem mem_starts_iff {t : Text} {p : Nat} :
    p ∈ (of t).starts ↔ p = 0 ∨ BehindEnding t p := by
  have hmem : p ∈ (of t).starts ↔ p = 0 ∨ p ∈ startsFrom 0 t := by simp [of]
  rw [hmem]
  refine or_congr_right ⟨fun h => ?_, ?_⟩
  · obtain ⟨a, b, rfl, hsize, ⟨c, hc, ht⟩, hp⟩ := mem_startsFrom_cut h
    rw [Nat.zero_add] at hsize
    refine ⟨a, b, rfl, hsize, ?_⟩
    rcases isTerminator_iff.1 ht with rfl | rfl
    · exact .inl hc
    · exact .inr ⟨hc, fun hb => hp ⟨hc, hb⟩⟩
  · rintro ⟨a, b, rfl, rfl, hlast⟩
    refine mem_startsFrom_of_endsLine (fun c hc => ?_) ?_ ?_
    · rw [isTerminator_iff]
      rcases hlast with h | ⟨h, -⟩
      · exact .inl (Option.some.inj (hc.symm.trans h))
      · exact .inr (Option.some.inj (hc.symm.trans h))
    · rintro rfl
      simp at hlast
    · rintro ⟨hr, hn⟩
      rcases hlast with h | ⟨-, h⟩
      · rw [hr] at h
        cases h
      · exact h hn

/-- The lines of a text start at its beginning and behind its terminators, one after the other; every
line has a range and a text without terminators; each but the last is followed by a terminator; and
together they are the text. -/
theorem lines_partition (t : Text) :
    ((of t).starts[0]? = some 0 ∧ (of t).starts.toList.Pairwise (· < ·) ∧
      ∀ p, p ∈ (of t).starts ↔ p = 0 ∨ BehindEnding t p) ∧
    (∀ line, 1 ≤ line → (∃ r, (of t).lineRange t line = .ok r) ∧
      ∃ body ending, (of t).lineText t line = .ok body ∧ ('\n' ∉ body ∧ '\r' ∉ body) ∧
        (of t).terminator t line = .ok ending ∧
        (line < (of t).count → ending ∈ [['\n'], ['\r', '\n'], ['\r']]) ∧
        ((of t).count ≤ line → ending = [])) ∧
    ((List.range' 1 (of t).count).mapM ((of t).row t)).map List.flatten = .ok t := by
  refine ⟨⟨rfl, pairwise_starts t, fun p => mem_starts_iff⟩, fun line h₁ => ?_, flatten_rows t⟩
  obtain ⟨above, body, ending, below, hs⟩ := exists_stands t h₁
  obtain ⟨r, hr, -, -⟩ := hs.lineRange_eq
  exact ⟨⟨r, hr⟩, body, ending, hs.lineText_eq, hs.flat.not_mem, hs.terminator_eq, hs.ending_mem,
    hs.ending_eq⟩

/-- A CR before CR LF is a line end of its own, and so is a CR behind LF. -/
example : (of ['\r', '\r', '\n', 'a', '\n', '\r']).starts = #[0, 1, 3, 5, 6] := by decide

end Lines

end Indentation
