import Indentation.Proofs.Text.Search
import Indentation.Proofs.Text.Split
import Indentation.Text.Lines
import Indentation.Token.Lexeme
import Mathlib.Data.List.GetD
import Mathlib.Data.List.TakeWhile

/-! # Where lines start

A line starts at the beginning of a text and just past each of its terminators. The line of an offset
is found by a search through these starts, and by looking back through the text for a terminator.
Both agree wherever no pair of CR and LF is parted. -/

namespace Indentation

namespace Text

/-- Two parts of a text stand together at the middle of a pair of CR and LF. -/
def PartsPair (a b : Text) : Prop := a.getLast? = some '\r' ∧ b.head? = some '\n'

instance (a b : Text) : Decidable (PartsPair a b) := inferInstanceAs (Decidable (_ ∧ _))

theorem PartsPair.of_tail {c : Char} {a b : Text} (h : PartsPair a b) : PartsPair (c :: a) b := by
  refine ⟨?_, h.2⟩
  cases a with
  | nil => cases h.1
  | cons d a => simpa using h.1

theorem not_partsPair_nil_left (b : Text) : ¬PartsPair [] b := fun h => by cases h.1

theorem partsPair_append_right {a b c : Text} (hb : b ≠ []) :
    PartsPair a (b ++ c) ↔ PartsPair a b := by
  cases b with
  | nil => exact absurd rfl hb
  | cons d b => simp [PartsPair]

theorem partsPair_append_left {a b c : Text} (hb : b ≠ []) :
    PartsPair (a ++ b) c ↔ PartsPair b c := by
  simp [PartsPair, List.getLast?_append_of_ne_nil a hb]

theorem not_partsPair_of_ne {c : Char} (hc : c ≠ '\r') (b : Text) : ¬PartsPair [c] b :=
  fun h => hc (by simpa using h.1)

theorem not_partsPair_singleton {c : Char} {b : Text}
    (h : ∀ rest, c = '\r' → b = '\n' :: rest → False) : ¬PartsPair [c] b := by
  rintro ⟨hc, hb⟩
  obtain ⟨rest, rfl⟩ := List.head?_eq_some_iff.1 hb
  exact h rest (by simpa using hc) rfl

/-- The first character of a text pairs only with the second one, or with what follows the text. -/
theorem not_partsPair_singleton_append {c : Char} {a b : Text} (h : ¬PartsPair (c :: a) b)
    (ha : ¬PartsPair [c] a) : ¬PartsPair [c] (a ++ b) := by
  cases a with
  | nil => exact h
  | cons d a => rwa [partsPair_append_right (List.cons_ne_nil d a)]

/-- The line terminators of a text. -/
def terminators : Text → List Text
  | [] => []
  | '\r' :: '\n' :: rest => ['\r', '\n'] :: terminators rest
  | c :: rest => if c = '\n' ∨ c = '\r' then [c] :: terminators rest else terminators rest

theorem terminators_cons {c : Char} {rest : Text} (h : ¬PartsPair [c] rest) :
    terminators (c :: rest) =
      if c = '\n' ∨ c = '\r' then [c] :: terminators rest else terminators rest := by
  rw [terminators]
  rintro rest' rfl rfl
  exact h ⟨rfl, rfl⟩

theorem terminators_append {a b : Text} (h : ¬PartsPair a b) :
    terminators (a ++ b) = terminators a ++ terminators b := by
  fun_induction terminators a with
  | case1 => rfl
  | case2 rest ih =>
    have h' : ¬PartsPair rest b := fun hp => h hp.of_tail.of_tail
    rw [List.cons_append, List.cons_append, terminators, ih h']
    rfl
  | case3 c rest hcr ht ih =>
    have h' : ¬PartsPair rest b := fun hp => h hp.of_tail
    have hc := not_partsPair_singleton_append h (not_partsPair_singleton hcr)
    rw [List.cons_append, terminators_cons hc, if_pos ht, ih h']
    rfl
  | case4 c rest hcr ht ih =>
    have h' : ¬PartsPair rest b := fun hp => h hp.of_tail
    have hc := not_partsPair_of_ne (fun hc => ht (.inr hc)) (rest ++ b)
    rw [List.cons_append, terminators_cons hc, if_neg ht, ih h']

/-- A text without terminators is part of one line. -/
def Flat (t : Text) : Prop := ∀ c ∈ t, Lexeme.isTerminator c = false

instance (t : Text) : Decidable t.Flat := List.decidableBAll _ t

theorem isTerminator_iff {c : Char} : Lexeme.isTerminator c = true ↔ c = '\n' ∨ c = '\r' := by
  simp [Lexeme.isTerminator]

theorem Flat.not_partsPair_left {a b : Text} (h : a.Flat) : ¬PartsPair a b := by
  rintro ⟨ha, -⟩
  have := h '\r' (List.mem_of_getLast? ha)
  cases this

theorem Flat.not_partsPair_right {a b : Text} (h : b.Flat) : ¬PartsPair a b := by
  rintro ⟨-, hb⟩
  have := h '\n' (List.mem_of_head? hb)
  cases this

theorem Flat.terminators_eq {t : Text} (h : t.Flat) : terminators t = [] := by
  induction t with
  | nil => rfl
  | cons c t ih =>
    have hc : ¬(c = '\n' ∨ c = '\r') := by
      rw [← isTerminator_iff]
      simpa using h c List.mem_cons_self
    rw [terminators_cons (not_partsPair_of_ne (fun hr => hc (.inr hr)) t), if_neg hc]
    exact ih fun d hd => h d (List.mem_cons_of_mem c hd)

end Text

namespace Lines

open Text

theorem startsFrom_cons {o : Nat} {c : Char} {rest : Text} (h : ¬PartsPair [c] rest) :
    startsFrom o (c :: rest) =
      if c = '\n' ∨ c = '\r' then (o + c.utf8Size) :: startsFrom (o + c.utf8Size) rest
      else startsFrom (o + c.utf8Size) rest := by
  rw [startsFrom]
  rintro rest' rfl rfl
  exact h ⟨rfl, rfl⟩

/-- The starts of the lines of a text are those of its parts, if no pair of CR and LF is parted. -/
theorem startsFrom_append {o : Nat} {a b : Text} (h : ¬PartsPair a b) :
    startsFrom o (a ++ b) = startsFrom o a ++ startsFrom (o + size a) b := by
  fun_induction startsFrom o a with
  | case1 o => simp
  | case2 o rest ih =>
    have h' : ¬PartsPair rest b := fun hp => h hp.of_tail.of_tail
    have hsize : size ('\r' :: '\n' :: rest) = 2 + size rest := by
      simp only [size_cons, show ('\r' : Char).utf8Size = 1 from rfl,
        show ('\n' : Char).utf8Size = 1 from rfl]
      omega
    rw [List.cons_append, List.cons_append, startsFrom, ih h', hsize, Nat.add_assoc]
    rfl
  | case3 o c rest hcr next ht ih =>
    have h' : ¬PartsPair rest b := fun hp => h hp.of_tail
    have hc := not_partsPair_singleton_append h (not_partsPair_singleton hcr)
    rw [List.cons_append, startsFrom_cons hc, if_pos ht, ih h', size_cons, ← Nat.add_assoc]
    rfl
  | case4 o c rest hcr next ht ih =>
    have h' : ¬PartsPair rest b := fun hp => h hp.of_tail
    have hc := not_partsPair_of_ne (fun hc => ht (.inr hc)) (rest ++ b)
    rw [List.cons_append, startsFrom_cons hc, if_neg ht, ih h', size_cons, ← Nat.add_assoc]

theorem length_startsFrom (o : Nat) (t : Text) :
    (startsFrom o t).length = (terminators t).length := by
  fun_induction startsFrom o t with
  | case1 => rfl
  | case2 o rest ih => rw [List.length_cons, ih, terminators, List.length_cons]
  | case3 o c rest hcr next ht ih =>
    rw [terminators_cons (not_partsPair_singleton hcr), if_pos ht, List.length_cons, ih, List.length_cons]
  | case4 o c rest hcr next ht ih =>
    rw [terminators_cons (not_partsPair_of_ne (fun hc => ht (.inr hc)) rest), if_neg ht, ih]

theorem mem_startsFrom_bounds {o n : Nat} {t : Text} (h : n ∈ startsFrom o t) :
    o < n ∧ n ≤ o + size t := by
  fun_induction startsFrom o t with
  | case1 => cases h
  | case2 o rest ih =>
    have h₁ : ('\r' : Char).utf8Size = 1 := rfl
    have h₂ : ('\n' : Char).utf8Size = 1 := rfl
    simp only [size_cons]
    rcases List.mem_cons.1 h with rfl | h
    · omega
    · have := ih h
      omega
  | case3 o c rest hcr next ht ih =>
    have := c.utf8Size_pos
    simp only [size_cons]
    rcases List.mem_cons.1 h with rfl | h
    · omega
    · have := ih h
      omega
  | case4 o c rest hcr next ht ih =>
    have := c.utf8Size_pos
    have := ih h
    simp only [size_cons]
    omega

theorem pairwise_startsFrom (o : Nat) (t : Text) : (startsFrom o t).Pairwise (· < ·) := by
  fun_induction startsFrom o t with
  | case1 => exact .nil
  | case2 o rest ih => exact .cons (fun n hn => (mem_startsFrom_bounds hn).1) ih
  | case3 o c rest hcr next ht ih => exact .cons (fun n hn => (mem_startsFrom_bounds hn).1) ih
  | case4 o c rest hcr next ht ih => exact ih

theorem pairwise_starts (t : Text) : (0 :: startsFrom 0 t).Pairwise (· < ·) :=
  .cons (fun _ hn => (mem_startsFrom_bounds hn).1) (pairwise_startsFrom 0 t)

theorem count_of (t : Text) : (of t).count = (terminators t).length + 1 := by
  simp [count, of, length_startsFrom]

theorem getD_starts (t : Text) (row : Nat) :
    (of t).starts.getD row 0 = (0 :: startsFrom 0 t).getD row 0 := by
  simp [of, Array.getD_eq_getD_getElem?, List.getD_eq_getElem?_getD]

theorem size_starts (t : Text) : (of t).starts.size = (0 :: startsFrom 0 t).length := by
  simp [of]

theorem prefixed_starts (t : Text) (p : Nat) :
    Search.Prefixed (fun row => (of t).starts.getD row 0 ≤ p) (of t).starts.size := by
  intro i j hij hj hbelow
  simp only [getD_starts, decide_eq_true_eq] at hbelow ⊢
  rw [size_starts] at hj
  rcases Nat.eq_or_lt_of_le hij with rfl | hlt
  · exact hbelow
  · have := List.pairwise_iff_getElem.1 (pairwise_starts t) i j (by omega) hj hlt
    rw [List.getD_eq_getElem _ _ hj] at hbelow
    rw [List.getD_eq_getElem _ _ (by omega)]
    omega

/-- The rows before the line of an offset are those that start at or before the offset. -/
theorem row_lt_lineOf_iff {t : Text} {row p : Nat} (h : row < (of t).count) :
    row < (of t).lineOf p ↔ (0 :: startsFrom 0 t).getD row 0 ≤ p := by
  have hiff := Search.lt_partitionPoint_iff (prefixed_starts t p) h
  simp only [getD_starts, decide_eq_true_eq] at hiff
  rw [← hiff, lineOf]
  simp only [getD_starts]
  cases row with
  | zero => simp only [hiff, List.getD_cons_zero, Nat.zero_le, iff_true]; omega
  | succ row => omega

theorem one_le_lineOf (t : Text) (p : Nat) : 1 ≤ (of t).lineOf p := Nat.le_max_left _ _

theorem lineOf_le_count (t : Text) (p : Nat) : (of t).lineOf p ≤ (of t).count := by
  have := Search.partitionPoint_le _ (prefixed_starts t p)
  have := count_of t
  simp only [lineOf, count] at *
  omega

/-- Later offsets lie on later lines. -/
theorem lineOf_mono (t : Text) {p q : Nat} (h : p ≤ q) : (of t).lineOf p ≤ (of t).lineOf q := by
  by_contra hlt
  rw [Nat.not_le] at hlt
  have hrow : (of t).lineOf q < (of t).count := Nat.lt_of_lt_of_le hlt (lineOf_le_count t p)
  have hp := (row_lt_lineOf_iff hrow).1 hlt
  have hq := (row_lt_lineOf_iff hrow).2 (Nat.le_trans hp h)
  exact Nat.lt_irrefl _ hq

/-- The line of an offset is counted by the terminators before it. -/
theorem lineOf_append {a b : Text} (h : ¬PartsPair a b) :
    (of (a ++ b)).lineOf (size a) = (terminators a).length + 1 := by
  have hstarts : 0 :: startsFrom 0 (a ++ b) =
      (0 :: startsFrom 0 a) ++ startsFrom (size a) b := by
    rw [startsFrom_append h, Nat.zero_add]
    rfl
  have hcount : (of (a ++ b)).count =
      (terminators a).length + 1 + (startsFrom (size a) b).length := by
    rw [count, size_starts, hstarts, List.length_append, List.length_cons, length_startsFrom]
  have hlen : (0 :: startsFrom 0 a).length = (terminators a).length + 1 := by
    rw [List.length_cons, length_startsFrom]
  apply Nat.le_antisymm
  · by_contra hlt
    rw [Nat.not_le] at hlt
    have hrow := Nat.lt_of_lt_of_le hlt (lineOf_le_count (a ++ b) (size a))
    have hle := (row_lt_lineOf_iff hrow).1 hlt
    rw [hstarts, ← hlen, List.getD_append_right _ _ _ _ le_rfl, Nat.sub_self] at hle
    cases hs : startsFrom (size a) b with
    | nil =>
      rw [hs, List.length_nil] at hcount
      omega
    | cons n ns =>
      have := (mem_startsFrom_bounds (hs ▸ List.mem_cons_self : n ∈ startsFrom (size a) b)).1
      rw [hs, List.getD_cons_zero] at hle
      omega
  · have hrow : (terminators a).length < (of (a ++ b)).count := by omega
    refine (row_lt_lineOf_iff hrow).2 ?_
    have hi : (terminators a).length < (0 :: startsFrom 0 a).length := by omega
    rw [hstarts, List.getD_append _ _ _ _ hi, List.getD_eq_getElem _ _ hi]
    rcases List.mem_cons.1 (List.getElem_mem hi) with h₀ | h₀
    · rw [h₀]
      exact Nat.zero_le _
    · have := (mem_startsFrom_bounds h₀).2
      omega

end Lines

namespace Text

open Lexeme

/-- The lines of a text before its last one, with their terminators. -/
def earlierLines (t : Text) : Text := (t.reverse.dropWhile fun c => !isTerminator c).reverse

theorem earlierLines_append_lastLine (t : Text) : earlierLines t ++ lastLine t = t := by
  rw [earlierLines, lastLine, ← List.reverse_append, List.takeWhile_append_dropWhile,
    List.reverse_reverse]

theorem flat_lastLine (t : Text) : (lastLine t).Flat := by
  intro c hc
  have := List.mem_takeWhile_imp (List.mem_reverse.1 hc)
  simpa using this

/-- A text that is empty or ends with a terminator. -/
def EndsLine (t : Text) : Prop := ∀ c ∈ t.getLast?, isTerminator c = true

theorem endsLine_earlierLines (t : Text) : (earlierLines t).EndsLine := by
  intro c hc
  rw [earlierLines, List.getLast?_reverse] at hc
  have := List.head?_dropWhile_not (fun c => !isTerminator c) t.reverse
  rw [Option.mem_def.1 hc] at this
  simpa using this

/-- The last line of a text is what follows the lines before it. -/
theorem lastLine_append {a m : Text} (ha : a.EndsLine) (hm : m.Flat) :
    lastLine (a ++ m) = m ∧ earlierLines (a ++ m) = a := by
  have htake : ∀ (x y : Text), (∀ c ∈ x, isTerminator c = false) → (∀ c ∈ y.head?, isTerminator c = true) →
      (x ++ y).takeWhile (fun c => !isTerminator c) = x ∧
        (x ++ y).dropWhile (fun c => !isTerminator c) = y := by
    intro x y hx hy
    have hx' : ∀ c ∈ x, (!isTerminator c) = true := fun c hc => by rw [hx c hc]; rfl
    rw [List.takeWhile_append_of_pos hx', List.dropWhile_append_of_pos hx']
    cases y with
    | nil => simp
    | cons c y =>
      have := hy c rfl
      simp [this]
  have := htake m.reverse a.reverse (fun c hc => hm c (List.mem_reverse.1 hc)) (fun c hc => ha c (by
    rwa [List.head?_reverse] at hc))
  rw [lastLine, earlierLines, List.reverse_append, this.1, this.2]
  exact ⟨List.reverse_reverse m, List.reverse_reverse a⟩

theorem lastLine_append_flat (a : Text) {m : Text} (hm : m.Flat) :
    lastLine (a ++ m) = lastLine a ++ m ∧ earlierLines (a ++ m) = earlierLines a := by
  have hflat : (lastLine a ++ m).Flat := by
    intro c hc
    rcases List.mem_append.1 hc with hc | hc
    · exact flat_lastLine a c hc
    · exact hm c hc
  have := lastLine_append (endsLine_earlierLines a) hflat
  rwa [← List.append_assoc, earlierLines_append_lastLine] at this

theorem EndsLine.lastLine_eq_nil {t : Text} (h : t.EndsLine) : lastLine t = [] := by
  have := lastLine_append h (m := []) (fun _ hc => by cases hc)
  rw [List.append_nil] at this
  exact this.1

/-- The lines before the last one hold all terminators of a text. -/
theorem terminators_earlierLines (t : Text) : terminators (earlierLines t) = terminators t := by
  conv_rhs => rw [← earlierLines_append_lastLine t,
    terminators_append (flat_lastLine t).not_partsPair_right, (flat_lastLine t).terminators_eq,
    List.append_nil]

end Text

end Indentation
