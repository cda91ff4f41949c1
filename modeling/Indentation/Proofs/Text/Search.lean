import Indentation.Text.Search
import Mathlib.Data.Nat.Basic

/-! # Searching by halves: what is found

If the positions that are below come first, halving the interval finds the last of them. -/

namespace Indentation.Search

/-- The positions up to `n` that are below come before those that are not. -/
def Prefixed (below : Nat → Bool) (n : Nat) : Prop :=
  ∀ i j, i ≤ j → j < n → below j = true → below i = true

theorem Prefixed.mono {below : Nat → Bool} {m n : Nat} (h : Prefixed below n) (hmn : m ≤ n) :
    Prefixed below m := fun i j hij hj => h i j hij (Nat.lt_of_lt_of_le hj hmn)

/-- Halving stays in its interval, and stops at its start or at a position that is below. Behind it
nothing is. -/
theorem narrow_spec {below : Nat → Bool} {base size : Nat} (hsize : 0 < size)
    (h : Prefixed below (base + size)) :
    base ≤ narrow below base size ∧ narrow below base size < base + size ∧
      (narrow below base size = base ∨ below (narrow below base size) = true) ∧
      ∀ i, narrow below base size < i → i < base + size → below i = false := by
  fun_induction narrow below base size with
  | case1 base size hle =>
    exact ⟨le_rfl, by omega, .inl rfl, fun i hi hi' => by omega⟩
  | case2 base size hle half ih =>
    have hhalf : half = size / 2 := rfl
    clear_value half
    split at ih
    · next hb =>
      have hend : base + half + (size - half) = base + size := by omega
      rw [hend] at ih
      obtain ⟨h₁, h₂, h₃, h₄⟩ := ih (by omega) h
      rw [if_pos hb]
      refine ⟨by omega, h₂, .inr ?_, h₄⟩
      rcases h₃ with h₃ | h₃
      · rw [h₃]
        exact hb
      · exact h₃
    · next hb =>
      obtain ⟨h₁, h₂, h₃, h₄⟩ := ih (by omega) (h.mono (by omega))
      rw [if_neg hb]
      refine ⟨h₁, by omega, h₃, fun i hi hi' => ?_⟩
      by_cases hlt : i < base + (size - half)
      · exact h₄ i hi hlt
      · by_contra hi''
        exact hb (h (base + half) i (by omega) hi' (by simpa using hi''))

theorem partitionPoint_le (below : Nat → Bool) {n : Nat} (h : Prefixed below n) :
    partitionPoint below n ≤ n := by
  unfold partitionPoint
  split
  · exact Nat.zero_le n
  · next hn =>
    have := (narrow_spec (Nat.pos_of_ne_zero hn) ((Nat.zero_add n).symm ▸ h)).2.1
    simp only
    split <;> omega

/-- The positions before the partition point are those that are below. -/
theorem lt_partitionPoint_iff {below : Nat → Bool} {n i : Nat} (h : Prefixed below n)
    (hi : i < n) : i < partitionPoint below n ↔ below i = true := by
  have hn : n ≠ 0 := by omega
  obtain ⟨-, h₂, h₃, h₄⟩ := narrow_spec (Nat.pos_of_ne_zero hn) ((Nat.zero_add n).symm ▸ h)
  rw [Nat.zero_add] at h₂ h₄
  rw [partitionPoint, if_neg hn]
  simp only
  split
  · next hb =>
    constructor
    · intro hlt
      exact h i _ (by omega) h₂ hb
    · intro hbi
      by_contra hge
      rw [h₄ i (by omega) hi] at hbi
      cases hbi
  · next hb =>
    have hzero : narrow below 0 n = 0 := h₃.resolve_right hb
    rw [hzero] at hb h₄ ⊢
    constructor
    · intro hlt
      omega
    · intro hbi
      exact absurd (h 0 i (Nat.zero_le i) hi hbi) hb

end Indentation.Search
