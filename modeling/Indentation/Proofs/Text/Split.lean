import Indentation.Proofs.Except
import Indentation.Text.Range
import Mathlib.Data.List.Basic
import Mathlib.Tactic.ByContra

/-! # Cutting texts

An offset cuts a text into what precedes it and what follows it in at most one way. -/

namespace Indentation

attribute [ext] Range

namespace Text

@[simp] theorem size_nil : size [] = 0 := rfl

@[simp] theorem size_cons (c : Char) (t : Text) : size (c :: t) = c.utf8Size + size t := rfl

@[simp] theorem size_append (a b : Text) : size (a ++ b) = size a + size b := by
  induction a with
  | nil => simp
  | cons c a ih => simp [ih, Nat.add_assoc]

theorem size_pos {t : Text} (h : t ≠ []) : 0 < size t := by
  cases t with
  | nil => exact absurd rfl h
  | cons c t =>
    have := c.utf8Size_pos
    simp only [size_cons]
    omega

@[simp] theorem size_eq_zero {t : Text} : size t = 0 ↔ t = [] := by
  refine ⟨fun h => ?_, fun h => h ▸ rfl⟩
  by_contra hne
  have := size_pos hne
  omega

theorem length_le_size (t : Text) : t.length ≤ size t := by
  induction t with
  | nil => simp
  | cons c t ih =>
    have := c.utf8Size_pos
    simp only [List.length_cons, size_cons]
    omega

@[simp] theorem split?_zero (t : Text) : split? t 0 = some ([], t) := by
  cases t <;> rfl

/-- A text falls apart where its first part ends. -/
theorem split?_append (a b : Text) : split? (a ++ b) (size a) = some (a, b) := by
  induction a with
  | nil => simp
  | cons c a ih =>
    obtain ⟨n, hn⟩ : ∃ n, c.utf8Size = n + 1 := ⟨_, (Nat.succ_pred_eq_of_pos c.utf8Size_pos).symm⟩
    have hle : c.utf8Size ≤ n + size a + 1 := by omega
    have hsub : n + size a + 1 - c.utf8Size = size a := by omega
    rw [List.cons_append, size_cons, hn, Nat.add_right_comm]
    simp only [split?, if_pos hle, hsub, ih, Option.map_some]

theorem eq_append_of_split? {t a b : Text} {n : Nat} (h : split? t n = some (a, b)) :
    t = a ++ b ∧ size a = n := by
  induction t generalizing n a with
  | nil =>
    cases n with
    | zero => simp_all
    | succ n => simp [split?] at h
  | cons c t ih =>
    cases n with
    | zero =>
      simp only [split?_zero, Option.some.injEq, Prod.mk.injEq] at h
      obtain ⟨rfl, rfl⟩ := h
      exact ⟨rfl, rfl⟩
    | succ n =>
      simp only [split?] at h
      split at h
      · next hle =>
        obtain ⟨⟨a', b'⟩, hs, hab⟩ := Option.map_eq_some_iff.1 h
        simp only [Prod.mk.injEq] at hab
        obtain ⟨rfl, rfl⟩ := hab
        obtain ⟨rfl, hsize⟩ := ih hs
        refine ⟨rfl, ?_⟩
        rw [size_cons, hsize]
        omega
      · cases h

theorem split?_eq_some_iff {t a b : Text} {n : Nat} :
    split? t n = some (a, b) ↔ t = a ++ b ∧ size a = n := by
  refine ⟨eq_append_of_split?, ?_⟩
  rintro ⟨rfl, rfl⟩
  exact split?_append a b

theorem split_eq_ok_iff {t a b : Text} {n : Nat} :
    split t n = .ok (a, b) ↔ t = a ++ b ∧ size a = n := by
  rw [← split?_eq_some_iff, split]
  split <;> simp_all

@[simp] theorem split_append (a b : Text) : split (a ++ b) (size a) = .ok (a, b) :=
  split_eq_ok_iff.2 ⟨rfl, rfl⟩

/-- Two ways to cut one text: the earlier cut is a cut of what precedes the later one. -/
theorem exists_between {a b a' b' : Text} (h : a ++ b = a' ++ b') (hle : size a ≤ size a') :
    ∃ m, a' = a ++ m ∧ b = m ++ b' := by
  rcases List.append_eq_append_iff.1 h with ⟨m, ha, hb⟩ | ⟨m, ha, hb⟩
  · exact ⟨m, ha, hb⟩
  · have hm : size m = 0 := by
      have := congrArg size ha
      rw [size_append] at this
      omega
    rw [size_eq_zero] at hm
    subst hm
    exact ⟨[], by simpa using ha.symm, by simpa using hb.symm⟩

theorem append_inj_of_size {a b a' b' : Text} (h : a ++ b = a' ++ b') (hs : size a = size a') :
    a = a' ∧ b = b' := by
  obtain ⟨m, ha, hb⟩ := exists_between h (Nat.le_of_eq hs)
  have hm : size m = 0 := by
    have := congrArg size ha
    rw [size_append] at this
    omega
  rw [size_eq_zero] at hm
  subst hm
  exact ⟨by simpa using ha.symm, by simpa using hb⟩

/-- Whether an offset is the start of a character of a text, or its end. -/
def Cuts (t : Text) (n : Nat) : Prop := (split? t n).isSome

instance (t : Text) (n : Nat) : Decidable (t.Cuts n) := inferInstanceAs (Decidable (_ = true))

theorem cuts_iff {t : Text} {n : Nat} : t.Cuts n ↔ ∃ a b, t = a ++ b ∧ size a = n := by
  simp only [Cuts, Option.isSome_iff_exists, Prod.exists, split?_eq_some_iff]

theorem slice_eq_ok_iff {t part : Text} {r : Range} :
    slice t r = .ok part ↔
      ∃ a b, t = a ++ part ++ b ∧ size a = r.start ∧ size (a ++ part) = r.stop := by
  constructor
  · intro h
    rw [slice] at h
    obtain ⟨⟨upTo, b⟩, hupTo, hrest⟩ := bind_eq_ok_iff.1 h
    obtain ⟨⟨a, p⟩, ha, hp⟩ := bind_eq_ok_iff.1 hrest
    obtain rfl := Except.ok.inj hp
    obtain ⟨rfl, hstop⟩ := split_eq_ok_iff.1 hupTo
    obtain ⟨rfl, hstart⟩ := split_eq_ok_iff.1 ha
    exact ⟨a, b, rfl, hstart, hstop⟩
  · rintro ⟨a, b, rfl, hstart, hstop⟩
    rw [slice, ← hstart, ← hstop, split_append]
    simp [bind, Except.bind, pure, Except.pure]

end Text

end Indentation
