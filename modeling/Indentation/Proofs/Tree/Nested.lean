import Indentation.Construct.Owner
import Indentation.Proofs.Tree.Reach
import Mathlib.Data.List.Pairwise
import Mathlib.Tactic.ByContra

/-!
# Nested ranges

The children of a place lie inside its range, one after the other.  Of two places that share a
character, one is then below the other.
-/

namespace Indentation

/-- Children lie in the range of their parent, in order and without overlaps. -/
structure Node.Nested (tree : Node) : Prop where
  inside : ∀ c ∈ tree.preorder, ∀ d ∈ c.children,
    c.range.start ≤ d.range.start ∧ d.range.stop ≤ c.range.stop
  ordered : ∀ c ∈ tree.preorder, c.children.Pairwise fun d e => d.range.stop ≤ e.range.start

namespace Cursor

/-- The range of a place holds the bytes from `p` up to `q`. -/
def Spans (c : Cursor) (p q : Nat) : Prop := c.range.start ≤ p ∧ q ≤ c.range.stop

end Cursor

namespace Node.Nested

open Cursor

variable {tree : Node} (h : tree.Nested)
include h

theorem range_le {c d : Cursor} (hc : c ∈ tree.preorder) (hcd : Reaches c d) :
    c.range.start ≤ d.range.start ∧ d.range.stop ≤ c.range.stop := by
  induction hcd with
  | refl => exact ⟨Nat.le_refl _, Nat.le_refl _⟩
  | tail hcd hd ih =>
    have := h.inside _ (mem_preorder_of_reaches hc hcd) _ hd
    omega

theorem spans_of_reaches {c d : Cursor} {p q : Nat} (hc : c ∈ tree.preorder) (hcd : Reaches c d)
    (hd : d.Spans p q) : c.Spans p q := by
  have := h.range_le hc hcd
  simp only [Spans] at *
  omega

/-- Two children of a place stand one before the other. -/
theorem child_apart {c d e : Cursor} (hc : c ∈ tree.preorder) (hd : d ∈ c.children)
    (he : e ∈ c.children) (hne : d ≠ e) :
    d.range.stop ≤ e.range.start ∨ e.range.stop ≤ d.range.start := by
  have hsymm : Std.Symm fun d e : Cursor =>
      d.range.stop ≤ e.range.start ∨ e.range.stop ≤ d.range.start := ⟨fun _ _ hde => hde.symm⟩
  have hpair : c.children.Pairwise fun d e =>
      d.range.stop ≤ e.range.start ∨ e.range.stop ≤ d.range.start :=
    (h.ordered c hc).imp Or.inl
  exact hpair.forall hd he hne

/-- Two children of a place do not share a character. -/
theorem child_eq {c d e : Cursor} {p q : Nat} (hc : c ∈ tree.preorder) (hd : d ∈ c.children)
    (he : e ∈ c.children) (hpq : p < q) (hds : d.Spans p q) (hes : e.Spans p q) : d = e := by
  by_contra hne
  have hor := h.child_apart hc hd he hne
  simp only [Spans] at *
  omega

/-- Of two places one is below the other, or they stand one before the other. -/
theorem reaches_or_apart {c d : Cursor} (hc : c ∈ tree.preorder) (hd : d ∈ tree.preorder) :
    (Reaches c d ∨ Reaches d c) ∨ d.range.stop ≤ c.range.start ∨ c.range.stop ≤ d.range.start := by
  have hroot := Node.mem_preorder_iff.1 hc
  clear hc
  induction hroot with
  | refl => exact .inl (.inl (Node.mem_preorder_iff.1 hd))
  | @tail b c hb hbc ih =>
    have hbt := Node.mem_preorder_iff.2 hb
    have hle := h.inside b hbt c hbc
    rcases ih with (hbd | hdb) | hapart
    · rcases hbd.cases_child with rfl | ⟨e, he, hed⟩
      · exact .inl (.inr (.child hbc))
      · by_cases hec : e = c
        · exact .inl (.inl (hec ▸ hed))
        · have := h.child_apart hbt he hbc hec
          have := h.range_le (mem_preorder_of_child hbt he) hed
          exact .inr (by omega)
    · exact .inl (.inr (hdb.trans (.child hbc)))
    · exact .inr (by omega)

/-- Of two places that share a character, one is below the other. -/
theorem reaches_or {c d : Cursor} {p q : Nat} (hc : c ∈ tree.preorder) (hd : d ∈ tree.preorder)
    (hpq : p < q) (hcs : c.Spans p q) (hds : d.Spans p q) : Reaches c d ∨ Reaches d c := by
  rcases h.reaches_or_apart hc hd with hor | hapart
  · exact hor
  · simp only [Spans] at hcs hds
    omega

/-- No place begins or ends inside a leaf. -/
theorem not_inside_leaf {c d : Cursor} (hc : c ∈ tree.preorder) (hd : d ∈ tree.preorder)
    (hleaf : d.children = []) : ¬(d.range.start < c.range.start ∧ c.range.start < d.range.stop) ∧
      ¬(d.range.start < c.range.stop ∧ c.range.stop < d.range.stop) := by
  have hle := c.range.start_le_stop
  rcases h.reaches_or_apart hc hd with (hcd | hdc) | hapart
  · have := h.range_le hc hcd
    omega
  · rcases hdc.cases_child with rfl | ⟨e, he, -⟩
    · omega
    · rw [hleaf] at he
      cases he
  · omega

/-- A place strictly below another one is below a child of it, and there is only one such child. -/
theorem reaches_child {c d e : Cursor} {p q : Nat} (hc : c ∈ tree.preorder) (hd : d ∈ c.children)
    (hpq : p < q) (hds : d.Spans p q) (hce : Reaches c e) (hne : c ≠ e) (hes : e.Spans p q) :
    Reaches d e := by
  rcases hce.cases_child with rfl | ⟨f, hf, hfe⟩
  · exact absurd rfl hne
  · have hfs := h.spans_of_reaches (mem_preorder_of_child hc hf) hfe hes
    rw [h.child_eq hc hd hf hpq hds hfs]
    exact hfe

/-- Children that come later stand later. -/
theorem stop_le_start {b p d : Cursor} {before after : List Cursor} (hb : b ∈ tree.preorder)
    (hsplit : b.children = before ++ after) (hp : p ∈ before) (hd : d ∈ after) :
    p.range.stop ≤ d.range.start := by
  have hpair := h.ordered b hb
  rw [hsplit] at hpair
  exact (List.pairwise_append.1 hpair).2.2 p hp d hd

/-- After a walk has entered a place, it is not at places above that any more but to leave them. -/
theorem exists_split_enter {c : Cursor} {p q : Nat} (hc : c ∈ tree.preorder) (hpq : p < q)
    (hspans : c.Spans p q) :
    ∃ pre post, tree.events = pre ++ .enter c :: post ∧
      ∀ e ∈ post, (∃ b, e = .leave b ∧ Reaches b c) ∨ ¬Reaches e.place c := by
  obtain ⟨pre, post, hsplit, hpost⟩ := (Node.mem_preorder_iff.1 hc).events_split
  refine ⟨pre, c.children.flatMap Cursor.events ++ .leave c :: post, ?_, fun e he => ?_⟩
  · rw [Node.events_eq, hsplit, Cursor.events_eq c]
    simp
  · rcases List.mem_append.1 he with he | he
    · obtain ⟨d, hd, he⟩ := List.mem_flatMap.1 he
      refine .inr fun hec => ?_
      have := ((reaches_of_mem_events he).trans hec).size_le
      have := size_lt_of_mem_children hd
      omega
    · rcases List.mem_cons.1 he with rfl | he
      · exact .inl ⟨c, rfl, .refl c⟩
      · rcases hpost e he with
            ⟨b, f, d, hb, hf, hd, hfc, hde, before, after, hsplit, hfb, hda⟩ | ⟨b, rfl, -, hbc⟩
        · -- what comes behind a place holds no character of it
          refine .inr fun hec => ?_
          have hbt := Node.mem_preorder_iff.2 hb
          have hle := h.stop_le_start hbt hsplit hfb hda
          have h₁ := h.spans_of_reaches (Node.mem_preorder_of_child hbt hf) hfc hspans
          have h₂ := h.spans_of_reaches (Node.mem_preorder_of_child hbt hd) (hde.trans hec) hspans
          simp only [Spans] at h₁ h₂
          omega
        · exact .inl ⟨b, rfl, hbc⟩

end Node.Nested

namespace Cursor

/-- Parentheses around an expression are children of each other down to what they group. -/
theorem reaches_bare (c : Cursor) : Reaches c c.bare := by
  fun_induction bare c with
  | case1 c hkind inner hinner ih =>
    exact (Reaches.child (mem_children_of_mem_properChildren (List.mem_of_mem_head? hinner))).trans ih
  | case2 c hkind hinner => exact .refl c
  | case3 c hkind => exact .refl c

end Cursor

namespace Node.Nested

open Cursor

variable {tree : Node} (h : tree.Nested)
include h

/-- Between a place and what is grouped there are only parentheses. -/
theorem kind_of_reaches_bare {c d : Cursor} {p q : Nat} (hc : c ∈ tree.preorder) (hpq : p < q)
    (hspans : c.bare.Spans p q) (hcd : Reaches c d) (hdb : Reaches d c.bare) :
    d = c.bare ∨ d.kind = "parenthesized_expression" := by
  fun_induction bare c with
  | case1 c hkind inner hinner ih =>
    have hchild := mem_children_of_mem_properChildren (List.mem_of_mem_head? hinner)
    have hinnert := mem_preorder_of_child hc hchild
    by_cases hcd' : c = d
    · exact .inr (hcd' ▸ hkind)
    · refine ih hinnert hspans ?_ hdb
      refine h.reaches_child hc hchild hpq ?_ hcd hcd' ?_
      · exact h.spans_of_reaches hinnert (reaches_bare inner) hspans
      · exact h.spans_of_reaches (mem_preorder_of_reaches hc hcd) hdb hspans
  | case2 c hkind hinner => exact .inl (hdb.antisymm hcd)
  | case3 c hkind => exact .inl (hdb.antisymm hcd)

end Node.Nested

end Indentation
