import Indentation.Layout.Parens
import Indentation.Proofs.Layout.Forward
import Mathlib.Data.List.Pairwise

/-!
# Pairs close behind where they open

A pair of parentheses is found when its second one is read, and the first one was read before.  Both
are tokens of the code.
-/

namespace Indentation.Parens

variable {s : TokenStream}

/-- What a scan has found when it comes to a token. -/
structure Scanned (s : TokenStream) (token : Nat) (scan : Scan) : Prop where
  opened : ∀ left ∈ scan.opened, left < token ∧ s.isPunctuator left ['('] = true
  pairs : ∀ p ∈ scan.pairs, p.1 < p.2 ∧ p.2 < token ∧ s.isPunctuator p.1 ['('] = true ∧
    s.isPunctuator p.2 [')'] = true
  descending : scan.pairs.Pairwise fun p q => q.2 < p.2

theorem isComment_of_isPunctuator {token : Nat} {text : Text} (h : s.isPunctuator token text = true) :
    s.isComment token = false := by
  rw [TokenStream.isPunctuator, Bool.and_eq_true, beq_iff_eq] at h
  rw [TokenStream.isComment, Token.isComment, h.1]
  rfl

theorem Scanned.step {token : Nat} {scan : Scan} (h : Scanned s token scan) :
    Scanned s (token + 1) (step s scan token) := by
  have hopened : ∀ left ∈ scan.opened, left < token + 1 ∧ s.isPunctuator left ['('] = true :=
    fun left hl => ⟨Nat.lt_succ_of_lt (h.opened left hl).1, (h.opened left hl).2⟩
  have hpairs : ∀ p ∈ scan.pairs, p.1 < p.2 ∧ p.2 < token + 1 ∧ s.isPunctuator p.1 ['('] = true ∧
      s.isPunctuator p.2 [')'] = true := fun p hp =>
    ⟨(h.pairs p hp).1, Nat.lt_succ_of_lt (h.pairs p hp).2.1, (h.pairs p hp).2.2⟩
  have hlater : ∀ p ∈ scan.pairs, p.2 < token := fun p hp => (h.pairs p hp).2.1
  have hdescending := h.descending
  obtain ⟨opened, pairs⟩ := scan
  unfold Parens.step
  split
  · next hleft =>
    exact ⟨List.forall_mem_cons.2 ⟨⟨Nat.lt_succ_self _, hleft⟩, hopened⟩, hpairs, hdescending⟩
  · split
    · next hright =>
      split
      · exact ⟨hopened, hpairs, hdescending⟩
      · next left opened heq =>
        obtain rfl : _ = left :: opened := heq
        have hleft := h.opened left List.mem_cons_self
        exact ⟨(List.forall_mem_cons.1 hopened).2,
          List.forall_mem_cons.2 ⟨⟨hleft.1, Nat.lt_succ_self _, hleft.2, hright⟩, hpairs⟩,
          List.pairwise_cons.2 ⟨hlater, hdescending⟩⟩
    · exact ⟨hopened, hpairs, hdescending⟩

theorem scanned_range (s : TokenStream) (n : Nat) :
    Scanned s n ((List.range n).foldl (step s) ⟨[], []⟩) := by
  induction n with
  | zero => exact ⟨nofun, nofun, .nil⟩
  | succ n ih =>
    rw [List.range_succ, List.foldl_append]
    exact ih.step

/-- The parentheses of a pair are tokens of the text, in order. -/
theorem lt_of_mem_pairs {p : Nat × Nat} (h : p ∈ pairs s) :
    p.1 < p.2 ∧ p.2 < s.size ∧ s.isComment p.1 = false := by
  obtain ⟨hlt, hsize, hleft, -⟩ := (scanned_range s s.size).pairs p h
  exact ⟨hlt, hsize, isComment_of_isPunctuator hleft⟩

theorem isPunctuator_of_mem_pairs {p : Nat × Nat} (h : p ∈ pairs s) :
    s.isPunctuator p.1 ['('] = true ∧ s.isPunctuator p.2 [')'] = true :=
  ((scanned_range s s.size).pairs p h).2.2

/-- The pair that closes last comes first. -/
theorem pairwise_pairs (s : TokenStream) : (pairs s).Pairwise fun p q => q.2 < p.2 :=
  (scanned_range s s.size).descending

/-- No two pairs close together. -/
theorem eq_of_mem_pairs {p q : Nat × Nat} (hp : p ∈ pairs s) (hq : q ∈ pairs s) (h : p.2 = q.2) :
    p = q := by
  by_contra hne
  have hsymm : Std.Symm fun p q : Nat × Nat => p.2 ≠ q.2 := ⟨fun _ _ hpq => hpq.symm⟩
  exact ((pairwise_pairs s).imp fun hlt => Nat.ne_of_gt hlt).forall hp hq hne h

theorem forward_writes : ∀ w ∈ writes s, w.Forward s := by
  intro w hw
  obtain ⟨p, hp, rfl⟩ := List.mem_map.1 hw
  exact ⟨(lt_of_mem_pairs hp).1, (lt_of_mem_pairs hp).2.1⟩

/-- When all pairs have been written, the second parenthesis of each stands level with the first. -/
theorem edge_writes_of_mem {p : Nat × Nat} (hp : p ∈ pairs s) {g : Graph} (hsize : g.size = s.size)
    {unit : Nat} : (g.writeAll s unit (writes s)).edge p.2 = ⟨some p.1, 0⟩ := by
  obtain ⟨hlt, hsize', -⟩ := lt_of_mem_pairs hp
  obtain ⟨before, after, hsplit⟩ := List.append_of_mem hp
  have hpairwise := pairwise_pairs s
  rw [hsplit] at hpairwise
  have hafter := (List.pairwise_cons.1 (List.pairwise_append.1 hpairwise).2.1).1
  rw [writes, hsplit, List.map_append, Graph.writeAll_append, List.map_cons, Graph.writeAll,
    List.foldl_cons, ← Graph.writeAll, Graph.edge_writeAll_of]
  · exact Graph.edge_align (by omega) (by
      split <;> simp [Graph.size_foldl, hsize, hsize'])
  · intro w hw htouch
    obtain ⟨q, hq, rfl⟩ := List.mem_map.1 hw
    have := hafter q hq
    simp only [Write.Touches] at htouch
    omega

end Indentation.Parens
