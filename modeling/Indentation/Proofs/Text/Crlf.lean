import Indentation.Proofs.Text.LineEnds
import Indentation.Proofs.Text.Reindent
import Mathlib.Order.Monotone.Basic

/-!
# Texts with CR LF

Where a text without CR has an LF, the same text may have CR LF.  Each cut of the one is then a cut of
the other, on the same line and behind the same characters of it.
-/

namespace Indentation

namespace Text

/-- A text with CR LF for each LF. -/
def crlf (t : Text) : Text := t.flatMap fun c => if c = '\n' then ['\r', '\n'] else [c]

/-- Where an offset of a text is in the text with CR LF. -/
def crlfOffset : Text → Nat → Nat
  | [], p => p
  | c :: rest, p =>
    if p < c.utf8Size then p
    else (if c = '\n' then 2 else c.utf8Size) + crlfOffset rest (p - c.utf8Size)

@[simp] theorem crlf_nil : crlf [] = [] := rfl

@[simp] theorem crlf_cons_lf (t : Text) : crlf ('\n' :: t) = '\r' :: '\n' :: crlf t := rfl

theorem crlf_cons_of_ne {c : Char} (h : c ≠ '\n') (t : Text) : crlf (c :: t) = c :: crlf t := by
  rw [crlf, List.flatMap_cons, if_neg h]
  rfl

theorem crlf_append (a b : Text) : crlf (a ++ b) = crlf a ++ crlf b := List.flatMap_append

theorem crlf_eq_self {t : Text} (h : '\n' ∉ t) : crlf t = t := by
  induction t with
  | nil => rfl
  | cons c t ih =>
    rw [List.mem_cons, not_or] at h
    rw [crlf_cons_of_ne (Ne.symm h.1), ih h.2]

theorem Flat.crlf_eq {t : Text} (h : t.Flat) : crlf t = t :=
  crlf_eq_self fun hmem => by cases h '\n' hmem

@[simp] theorem crlf_eq_nil {t : Text} : crlf t = [] ↔ t = [] := by
  cases t with
  | nil => simp
  | cons c t =>
    by_cases h : c = '\n'
    · simp [h]
    · simp [crlf_cons_of_ne h]

theorem mem_crlf {c : Char} {t : Text} (h : c ∈ t) : c ∈ crlf t := by
  refine List.mem_flatMap.2 ⟨c, h, ?_⟩
  split
  · next hc => simp [hc]
  · exact List.mem_singleton.2 rfl

/-- No LF stands alone. -/
theorem head?_crlf_ne (t : Text) : (crlf t).head? ≠ some '\n' := by
  cases t with
  | nil => simp
  | cons c t =>
    by_cases h : c = '\n'
    · simp [h]
    · simpa [crlf_cons_of_ne h] using h

theorem not_partsPair_crlf (a b : Text) : ¬PartsPair a (crlf b) :=
  not_partsPair_of_head? (head?_crlf_ne b)

theorem not_partsPair_of_not_mem {a b : Text} (h : '\r' ∉ a) : ¬PartsPair a b :=
  fun hp => h (List.mem_of_getLast? hp.1)

theorem utf8Size_le_size_crlf (c : Char) : c.utf8Size ≤ if c = '\n' then 2 else c.utf8Size := by
  split
  · next h => rw [h]; decide
  · exact Nat.le_refl _

/-! ## Offsets -/

/-- Cuts go to cuts. -/
theorem crlfOffset_append (a b : Text) : crlfOffset (a ++ b) (size a) = size (crlf a) := by
  induction a with
  | nil =>
    cases b with
    | nil => rfl
    | cons c b => exact if_pos c.utf8Size_pos
  | cons c a ih =>
    rw [List.cons_append, crlfOffset, size_cons, if_neg (by omega), Nat.add_sub_cancel_left, ih]
    by_cases h : c = '\n'
    · subst h
      simp only [if_true, crlf_cons_lf, size_cons, show ('\r' : Char).utf8Size = 1 from rfl,
        show ('\n' : Char).utf8Size = 1 from rfl]
      omega
    · rw [if_neg h, crlf_cons_of_ne h, size_cons]

theorem crlfOffset_size {t a b : Text} (h : t = a ++ b) : t.crlfOffset (size a) = size (crlf a) := by
  rw [h, crlfOffset_append]

theorem strictMono_crlfOffset (t : Text) : StrictMono (crlfOffset t) := by
  induction t with
  | nil => exact fun _ _ h => h
  | cons c t ih =>
    intro p q h
    have hwidth := utf8Size_le_size_crlf c
    rw [crlfOffset, crlfOffset]
    split
    · next hp =>
      split
      · exact h
      · exact Nat.lt_of_lt_of_le hp (Nat.le_trans hwidth (Nat.le_add_right _ _))
    · have hq : ¬q < c.utf8Size := by omega
      have := ih (show p - c.utf8Size < q - c.utf8Size by omega)
      rw [if_neg hq]
      omega

theorem size_crlf_le_iff {a b a' b' : Text} (h : a ++ b = a' ++ b') :
    size (crlf a) ≤ size (crlf a') ↔ size a ≤ size a' := by
  rw [← crlfOffset_append a b, ← crlfOffset_append a' b', h, (strictMono_crlfOffset _).le_iff_le]

/-! ## Lines -/

theorem length_terminators_crlf {t : Text} (h : '\r' ∉ t) :
    (terminators (crlf t)).length = (terminators t).length := by
  induction t with
  | nil => rfl
  | cons c t ih =>
    rw [List.mem_cons, not_or] at h
    have hpair : ∀ r, ¬PartsPair [c] r := fun r =>
      not_partsPair_of_not_mem (by simpa using h.1)
    rw [terminators_cons (hpair t)]
    by_cases hc : c = '\n'
    · subst hc
      rw [crlf_cons_lf, terminators, if_pos (.inl rfl), List.length_cons, List.length_cons, ih h.2]
    · have hflat : ¬(c = '\n' ∨ c = '\r') := not_or.2 ⟨hc, Ne.symm h.1⟩
      rw [crlf_cons_of_ne hc, terminators_cons (hpair _), if_neg hflat, if_neg hflat, ih h.2]

theorem endsLine_crlf {t : Text} (h : t.EndsLine) : (crlf t).EndsLine := by
  rcases List.eq_nil_or_concat t with rfl | ⟨t, c, rfl⟩
  · exact h
  · have hc : Lexeme.isTerminator c = true := h c (by simp)
    rw [List.concat_eq_append, crlf_append]
    by_cases hlf : c = '\n'
    · simp [EndsLine, hlf, Lexeme.isTerminator]
    · simpa [EndsLine, crlf_cons_of_ne hlf] using hc

theorem lastLine_crlf (t : Text) :
    Lexeme.lastLine (crlf t) = Lexeme.lastLine t ∧ earlierLines (crlf t) = crlf (earlierLines t) := by
  have hflat := flat_lastLine t
  have h := lastLine_append (endsLine_crlf (endsLine_earlierLines t)) hflat
  rwa [← hflat.crlf_eq, ← crlf_append, earlierLines_append_lastLine, hflat.crlf_eq] at h

end Text

namespace Lines

open Text

theorem count_crlf {t : Text} (h : '\r' ∉ t) : (of (crlf t)).count = (of t).count := by
  rw [count_of, count_of, length_terminators_crlf h]

variable {a b : Text} (h : '\r' ∉ a ++ b)
include h

/-- A cut is on the same line. -/
theorem lineOf_crlf : (of (crlf (a ++ b))).lineOf (size (crlf a)) = (of (a ++ b)).lineOf (size a) := by
  have ha : '\r' ∉ a := fun hmem => h (List.mem_append_left b hmem)
  rw [crlf_append, lineOf_append (not_partsPair_crlf _ b), length_terminators_crlf ha,
    lineOf_append (not_partsPair_of_not_mem ha)]

theorem column_crlf :
    (of (crlf (a ++ b))).column (crlf (a ++ b)) (size (crlf a)) =
      (of (a ++ b)).column (a ++ b) (size a) := by
  have ha : '\r' ∉ a := fun hmem => h (List.mem_append_left b hmem)
  rw [crlf_append, column_append (not_partsPair_crlf _ b), (lastLine_crlf a).1,
    column_append (not_partsPair_of_not_mem ha)]

/-- A cut is reported at the same line and column. -/
theorem lineColumn_crlf :
    (of (crlf (a ++ b))).lineColumn (crlf (a ++ b)) (size (crlf a)) =
      (of (a ++ b)).lineColumn (a ++ b) (size a) := by
  rw [lineColumn, lineColumn, lineOf_crlf h, column_crlf h]

end Lines

end Indentation
