import Indentation.Proofs.Layout.Grouping

/-!
# Steps

All that one write can make of the edge of one token.  What no step takes from an edge is kept through
any number of writes: every token stays anchored to an earlier one if the writes name none behind it,
and level with an anchor on its own line if no span moves that it is in.
-/

namespace Indentation

/-- What a write makes of the edge of a token. -/
inductive Write.Makes (s : TokenStream) (unit t : Nat) (e : Edge) : Write → Edge → Prop
  | keep (w : Write) : Makes s unit t e w e
  | indent (levels : Nat) : Makes s unit t e (.indent t none levels) ⟨none, Width.ofLevels unit levels⟩
  | inset {a : Nat} (hne : a ≠ t) (levels : Nat) :
    Makes s unit t e (.indent t (some a) levels) (Graph.inset s unit t a levels)
  | align {a : Nat} (hne : a ≠ t) : Makes s unit t e (.align t a) ⟨some a, 0⟩
  | place (column : Nat) : Makes s unit t e (.place t column) ⟨none, column⟩
  | shift {span : Span} (hin : span.first ≤ t ∧ t ≤ span.last)
    (hout : e.anchor.any span.contains = false) (levels : Nat) :
    Makes s unit t e (.shift span levels) ⟨e.anchor, Width.add e.offset (Width.ofLevels unit levels)⟩
  | group {left right : Nat} (hin : left < t ∧ t < right) (hout : e.isIn (left, right) = false) :
    Makes s unit t e (.enclose left right) (Graph.inset s unit t left 1)
  | close {left : Nat} (hne : left ≠ t) : Makes s unit t e (.enclose left t) ⟨some left, 0⟩

namespace Graph

variable {g : Graph} {s : TokenStream} {unit : Nat}

/-- The second parenthesis of a pair stands level with the first. -/
theorem edge_enclose_right {left right : Nat} (hne : left ≠ right) (ht : right < g.size) :
    (g.write s unit (.enclose left right)).edge right = ⟨some left, 0⟩ := by
  refine edge_align hne ?_
  split
  · exact ht
  · rwa [size_foldl fun g i => size_encloseToken left right i]

/-- A token that would be a pair on its own encloses nothing and stays where it is. -/
theorem edge_enclose_self (t : Nat) : (g.write s unit (.enclose t t)).edge t = g.edge t := by
  have hnone : Span.interior ⟨t, t⟩ = [] := List.eq_nil_iff_forall_not_mem.2 fun i hi => by
    have := Span.mem_interior.1 hi
    simp only at this
    omega
  simp only [write, enclose, align, if_true]
  split
  · rfl
  · rw [hnone, List.foldl_nil]

theorem makes_enclose {left right t : Nat} (htouch : (Write.enclose left right).Touches t)
    (ht : t < g.size) :
    Write.Makes s unit t (g.edge t) (.enclose left right) ((g.write s unit (.enclose left right)).edge t) := by
  by_cases hright : t = right
  · subst hright
    by_cases hne : left = t
    · subst hne
      rw [edge_enclose_self]
      exact .keep _
    · rw [edge_enclose_right hne ht]
      exact .close hne
  · have hin : left < t ∧ t < right := htouch.resolve_right hright
    have hedge : (g.write s unit (.enclose left right)).edge t = _ :=
      edge_enclose (p := (left, right)) ht hright
    rw [hedge]
    split
    · next h => exact .group hin h.2.2
    · exact .keep _

theorem makes_write (w : Write) (t : Nat) :
    w.Makes s unit t (g.edge t) ((g.write s unit w).edge t) := by
  by_cases htouch : w.Touches t
  · by_cases ht : t < g.size
    · cases w with
      | indent token anchor levels =>
        obtain ⟨rfl, hne⟩ := htouch
        cases anchor with
        | none =>
          rw [write, indent, edge_setEdge, if_pos ⟨rfl, ht⟩]
          exact .indent levels
        | some a =>
          have hne : a ≠ token := fun h => hne (congrArg some h)
          rw [write, edge_indent hne ht]
          exact .inset hne levels
      | align token anchor =>
        obtain ⟨rfl, hne⟩ := htouch
        rw [write, edge_align hne ht]
        exact .align hne
      | place token column =>
        obtain rfl : token = t := htouch
        rw [write, edge_setEdge, if_pos ⟨rfl, ht⟩]
        exact .place column
      | exempt token => exact htouch.elim
      | bracket token => exact htouch.elim
      | shift span levels =>
        have hin : span.first ≤ t ∧ t ≤ span.last := htouch
        rw [edge_shift, if_pos hin, edge_shiftToken]
        split
        · exact .keep _
        · next hnot =>
          rw [not_or, Bool.not_eq_true] at hnot
          exact .shift hin hnot.1 levels
      | enclose left right => exact makes_enclose htouch ht
    · have hle := Nat.le_of_not_lt ht
      rw [edge_of_size_le hle, edge_of_size_le (by rwa [size_write])]
      exact .keep w
  · rw [edge_write_of htouch]
    exact .keep w

/-- What every step preserves of the edges of all tokens holds when the writes of a list have been
made. -/
theorem forall_edge_writeAll {Q : Nat → Edge → Prop} {ws : List Write}
    (h : ∀ w ∈ ws, ∀ t e e', w.Makes s unit t e e' → Q t e → Q t e') (hg : ∀ t, Q t (g.edge t)) (t : Nat) :
    Q t ((g.writeAll s unit ws).edge t) := by
  induction ws generalizing g with
  | nil => exact hg t
  | cons w ws ih =>
    exact ih (fun v hv => h v (List.mem_cons_of_mem w hv)) fun u =>
      h w List.mem_cons_self u _ _ (makes_write w u) (hg u)

end Graph

/-! ## Anchors -/

/-- A forward write anchors a token to an earlier one, if to any. -/
theorem Write.Makes.anchor_lt {s : TokenStream} {unit t : Nat} {e e' : Edge} {w : Write}
    (h : w.Makes s unit t e e') (hw : w.Forward s) (he : ∀ a ∈ e.anchor, a < t) :
    ∀ a ∈ e'.anchor, a < t := by
  intro a ha
  cases h with
  | keep => exact he a ha
  | indent => cases ha
  | inset hne =>
    obtain rfl := Option.some.inj ha
    exact Nat.lt_of_le_of_ne (hw.2 _ rfl) hne
  | align hne =>
    obtain rfl := Option.some.inj ha
    exact Nat.lt_of_le_of_ne hw.2 hne
  | place => cases ha
  | shift => exact he a ha
  | group hin =>
    obtain rfl := Option.some.inj ha
    exact hin.1
  | close =>
    obtain rfl := Option.some.inj ha
    exact hw.1

/-- Forward writes keep anchors before their tokens. -/
theorem Graph.Forward.writeAll {g : Graph} {s : TokenStream} {unit : Nat} (h : g.Forward)
    {ws : List Write} (hws : ∀ w ∈ ws, w.Forward s) : (g.writeAll s unit ws).Forward :=
  forall_edge_writeAll (Q := fun t e => ∀ a ∈ e.anchor, a < t)
    (fun w hw _ _ _ hmakes => hmakes.anchor_lt (hws w hw)) h

/-! ## Anchors on the line of a token -/

/-- A token is not its own anchor, and is level with an anchor on its own line unless it has a
property. -/
structure Edge.Level (s : TokenStream) (P : Nat → Prop) (t : Nat) (e : Edge) : Prop where
  anchor_ne : ∀ a ∈ e.anchor, a ≠ t
  offset_eq : ¬P t → ∀ a ∈ e.anchor, s.sameStartLine t a = true → e.offset = 0

section

variable {s : TokenStream} {P : Nat → Prop} {unit t : Nat}

theorem Edge.level_free (offset : Nat) : Edge.Level s P t ⟨none, offset⟩ := ⟨nofun, nofun⟩

theorem Edge.level_align {a : Nat} (hne : a ≠ t) : Edge.Level s P t ⟨some a, 0⟩ where
  anchor_ne _ hb := Option.some.inj hb ▸ hne
  offset_eq _ _ _ _ := rfl

theorem Graph.level_inset {a : Nat} (hne : a ≠ t) (levels : Nat) :
    (Graph.inset s unit t a levels).Level s P t where
  anchor_ne _ hb := Option.some.inj hb ▸ hne
  offset_eq _ b hb hline := by
    obtain rfl := Option.some.inj hb
    exact if_pos hline

/-- Only a span that moves sets a token off from an anchor on its own line. -/
theorem Write.Makes.level {e e' : Edge} {w : Write} (h : w.Makes s unit t e e')
    (hw : ∀ span levels, w = .shift span levels → ∀ i, span.first ≤ i → i ≤ span.last → P i)
    (he : e.Level s P t) : e'.Level s P t := by
  cases h with
  | keep => exact he
  | indent => exact Edge.level_free _
  | inset hne levels => exact Graph.level_inset hne levels
  | align hne => exact Edge.level_align hne
  | place => exact Edge.level_free _
  | shift hin _ levels =>
    exact ⟨he.anchor_ne, fun hP => absurd (hw _ levels rfl t hin.1 hin.2) hP⟩
  | group hin => exact Graph.level_inset (Nat.ne_of_lt hin.1) 1
  | close hne => exact Edge.level_align hne

theorem Graph.level_writeAll {g : Graph} {ws : List Write}
    (hws : ∀ span levels, .shift span levels ∈ ws → ∀ i, span.first ≤ i → i ≤ span.last → P i)
    (hg : ∀ t, (g.edge t).Level s P t) (t : Nat) : ((g.writeAll s unit ws).edge t).Level s P t :=
  forall_edge_writeAll (Q := Edge.Level s P)
    (fun _ hw _ _ _ hmakes => hmakes.level fun span levels heq => hws span levels (heq ▸ hw)) hg t

end

end Indentation
