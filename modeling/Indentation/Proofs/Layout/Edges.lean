import Indentation.Layout.Write
import Mathlib.Data.List.Basic

/-!
# What a write does to an edge

A write changes the edges of the tokens that it names and of no others.  As long as each of them is
named together with an earlier token, every token stays anchored to an earlier one.
-/

namespace Indentation

namespace Span

@[simp] theorem mem_ids {span : Span} {i : Nat} : i ∈ span.ids ↔ span.first ≤ i ∧ i ≤ span.last := by
  rw [ids, List.mem_range'_1]
  omega

@[simp] theorem mem_interior {span : Span} {i : Nat} :
    i ∈ span.interior ↔ span.first < i ∧ i < span.last := by
  simp only [interior, List.mem_filter, mem_ids, Bool.and_eq_true, decide_eq_true_eq]
  omega

@[simp] theorem mem_tail {span : Span} {i : Nat} :
    i ∈ span.tail ↔ span.first < i ∧ i ≤ span.last := by
  rw [tail, ids, List.drop_range', List.mem_range'_1]
  omega

theorem contains_iff {span : Span} {i : Nat} :
    span.contains i = true ↔ span.first ≤ i ∧ i ≤ span.last := by
  simp [contains]

theorem nth?_eq_some_iff {span : Span} {n i : Nat} :
    span.nth? n = some i ↔ i = span.first + n ∧ i ≤ span.last := by
  rw [nth?]
  split
  · rw [Option.some.injEq]
    omega
  · refine ⟨nofun, fun hi => ?_⟩
    omega

end Span

namespace Graph

variable {g : Graph} {s : TokenStream} {unit : Nat}

/-! ## Setting an edge -/

@[simp] theorem size_setEdge (token : Nat) (e : Edge) : (g.setEdge token e).size = g.size := by
  simp [setEdge, size]

theorem edge_setEdge (token : Nat) (e : Edge) (t : Nat) :
    (g.setEdge token e).edge t = if token = t ∧ t < g.size then e else g.edge t := by
  simp only [edge, setEdge, Array.getD_eq_getD_getElem?, Array.getElem?_setIfInBounds]
  by_cases ht : token = t
  · subst ht
    by_cases hlt : token < g.edges.size <;> simp [size, hlt]
  · simp [ht]

theorem edge_setEdge_of_ne {token t : Nat} (e : Edge) (h : token ≠ t) :
    (g.setEdge token e).edge t = g.edge t := by
  rw [edge_setEdge, if_neg fun h' => h h'.1]

theorem edge_of_size_le {t : Nat} (h : g.size ≤ t) : g.edge t = .margin := by
  rw [edge, Array.getD_eq_getD_getElem?, Array.getElem?_eq_none h]
  rfl

/-- Only tokens of the graph have an anchor. -/
theorem lt_size_of_anchor? {t a : Nat} (h : g.anchor? t = some a) : t < g.size := by
  by_contra hge
  rw [anchor?, edge_of_size_le (Nat.le_of_not_lt hge)] at h
  cases h

@[simp] theorem edge_exempt (token t : Nat) : (g.exempt token).edge t = g.edge t := rfl

@[simp] theorem edge_bracket (token t : Nat) : (g.bracket token).edge t = g.edge t := rfl

theorem edge_align_of_ne {token anchor t : Nat} (h : token ≠ t ∨ anchor = t) :
    (g.align token anchor).edge t = g.edge t := by
  rw [align]
  split
  · rfl
  · next hne => exact edge_setEdge_of_ne _ (by omega)

theorem edge_align {token anchor : Nat} (h : anchor ≠ token) (ht : token < g.size) :
    (g.align token anchor).edge token = ⟨some anchor, 0⟩ := by
  rw [align, if_neg h, edge_setEdge, if_pos ⟨rfl, ht⟩]

theorem edge_indent_of_ne {token t : Nat} {anchor : Option Nat} (levels : Nat)
    (h : token ≠ t ∨ anchor = some t) : (g.indent s unit token anchor levels).edge t = g.edge t := by
  cases anchor with
  | none => exact edge_setEdge_of_ne _ (h.resolve_right nofun)
  | some a =>
    have ha : token ≠ t ∨ a = t := h.imp_right fun h => Option.some.inj h
    simp only [indent]
    split
    · exact edge_align_of_ne ha
    · next hline =>
      refine edge_setEdge_of_ne _ fun htoken => ?_
      obtain rfl := ha.resolve_left (by simpa using htoken)
      exact hline (by rw [htoken, TokenStream.sameStartLine, beq_self_eq_true])

/-- Where a token stands that is indented from another one: so many levels in, or level with it on the
same line. -/
def inset (s : TokenStream) (unit token anchor levels : Nat) : Edge :=
  ⟨some anchor, if s.sameStartLine token anchor then 0 else Width.ofLevels unit levels⟩

theorem inset_of_other_line {token a levels : Nat} (hline : s.sameStartLine token a = false) :
    inset s unit token a levels = ⟨some a, Width.ofLevels unit levels⟩ := by
  rw [inset, hline, if_neg Bool.false_ne_true]

theorem edge_indent {token a levels : Nat} (hne : a ≠ token) (ht : token < g.size) :
    (g.indent s unit token (some a) levels).edge token = inset s unit token a levels := by
  simp only [indent, inset]
  split
  · exact edge_align hne ht
  · rw [edge_setEdge, if_pos ⟨rfl, ht⟩]

/-- A token anchored in the span moves with its anchor. -/
theorem edge_shiftToken_of {levels token t : Nat} {span : Span}
    (h : token ≠ t ∨ (g.anchor? t).any span.contains = true) :
    (shiftToken unit levels span g token).edge t = g.edge t := by
  rw [shiftToken]
  split
  · rfl
  · next hany =>
    refine edge_setEdge_of_ne _ fun htoken => ?_
    rw [htoken] at hany
    exact hany (h.resolve_left (by simpa using htoken))

theorem edge_encloseToken_of {left right token t : Nat}
    (h : token ≠ t ∨ ((g.anchor? t).any fun a => left < a && a < right) = true) :
    (encloseToken s unit left right g token).edge t = g.edge t := by
  rw [encloseToken]
  split
  · rfl
  · next hany =>
    refine edge_indent_of_ne _ (.inl fun htoken => ?_)
    rw [htoken] at hany
    exact hany (h.resolve_left (by simpa using htoken))

/-! ## The number of edges -/

@[simp] theorem size_align (token anchor : Nat) : (g.align token anchor).size = g.size := by
  rw [align]
  split <;> simp

@[simp] theorem size_indent (token : Nat) (anchor : Option Nat) (levels : Nat) :
    (g.indent s unit token anchor levels).size = g.size := by
  cases anchor with
  | none => exact size_setEdge ..
  | some a =>
    simp only [indent]
    split <;> simp

@[simp] theorem size_shiftToken (levels : Nat) (span : Span) (token : Nat) :
    (shiftToken unit levels span g token).size = g.size := by
  rw [shiftToken]
  split <;> simp

@[simp] theorem size_encloseToken (left right token : Nat) :
    (encloseToken s unit left right g token).size = g.size := by
  rw [encloseToken]
  split <;> simp

/-- What no step of a fold changes is the same in the end. -/
theorem foldl_eq {α : Type} {p : Graph → α} {f : Graph → Nat → Graph} (hf : ∀ g i, p (f g i) = p g)
    (g : Graph) (ids : List Nat) : p (ids.foldl f g) = p g := by
  induction ids generalizing g with
  | nil => rfl
  | cons i ids ih => rw [List.foldl_cons, ih, hf]

theorem size_foldl {f : Graph → Nat → Graph} (hf : ∀ g i, (f g i).size = g.size) (g : Graph)
    (ids : List Nat) : (ids.foldl f g).size = g.size := foldl_eq hf g ids

@[simp] theorem size_write (w : Write) : (g.write s unit w).size = g.size := by
  cases w with
  | indent token anchor levels => simp [write]
  | align token anchor => simp [write]
  | place token column => simp [write]
  | exempt token =>
    rw [write]
    split <;> rfl
  | bracket token => rfl
  | shift span levels => exact size_foldl (fun g i => size_shiftToken levels span i) g _
  | enclose left right =>
    simp only [write, enclose, size_align]
    split
    · rfl
    · exact size_foldl (fun g i => size_encloseToken left right i) g _

theorem writeAll_append (ws vs : List Write) :
    g.writeAll s unit (ws ++ vs) = (g.writeAll s unit ws).writeAll s unit vs := List.foldl_append

@[simp] theorem size_writeAll (ws : List Write) : (g.writeAll s unit ws).size = g.size := by
  induction ws generalizing g with
  | nil => rfl
  | cons w ws ih => rw [writeAll, List.foldl_cons, ← writeAll, ih, size_write]

/-- What each write of a list preserves holds when all of them have been made. -/
theorem writeAll_of_write {Q : Graph → Prop} {ws : List Write} {n : Nat}
    (h : ∀ w ∈ ws, ∀ g : Graph, g.size = n → Q g → Q (g.write s unit w)) (hsize : g.size = n)
    (hg : Q g) : Q (g.writeAll s unit ws) := by
  induction ws generalizing g with
  | nil => exact hg
  | cons w ws ih =>
    exact ih (fun v hv => h v (List.mem_cons_of_mem w hv)) (by rw [size_write, hsize])
      (h w List.mem_cons_self g hsize hg)

@[simp] theorem size_blank (n : Nat) : (blank n).size = n := by simp [blank, size]

@[simp] theorem edge_blank (n t : Nat) : (blank n).edge t = .margin := by
  simp only [edge, blank, Array.getD_eq_getD_getElem?, Array.getElem?_replicate]
  split <;> rfl

end Graph

end Indentation
