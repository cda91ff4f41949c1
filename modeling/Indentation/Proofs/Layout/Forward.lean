import Indentation.Proofs.Layout.Edges

/-!
# Anchors come first

A write is forward if it names tokens of the text and each of them with an anchor that is not behind
it.  In a forward graph following anchors never comes back to a token on the way.  A write leaves alone
what it does not touch.
-/

namespace Indentation

namespace Write

/-- Tokens of the text, each with an anchor that is not behind it. -/
def Forward (s : TokenStream) : Write → Prop
  | .indent token anchor _ => token < s.size ∧ ∀ a ∈ anchor, a ≤ token
  | .align token anchor => token < s.size ∧ anchor ≤ token
  | .place token _ | .exempt token | .bracket token => token < s.size
  | .shift span _ => span.last < s.size
  | .enclose left right => left < right ∧ right < s.size

/-- The tokens whose edge a write may change. -/
def Touches (t : Nat) : Write → Prop
  | .indent token anchor _ => token = t ∧ anchor ≠ some t
  | .align token anchor => token = t ∧ anchor ≠ t
  | .place token _ => token = t
  | .exempt _ | .bracket _ => False
  | .shift span _ => span.first ≤ t ∧ t ≤ span.last
  | .enclose left right => left < t ∧ t < right ∨ t = right

/-- A forward write that changes nothing about a token, unless the token has a property. -/
def Within (s : TokenStream) (P : Nat → Prop) (w : Write) : Prop :=
  w.Forward s ∧ ∀ t, w.Touches t → P t

/-- A write that leaves an edge of a token as it is. -/
def Keeps (s : TokenStream) (unit t : Nat) (e : Edge) (w : Write) : Prop :=
  ∀ g : Graph, g.edge t = e → (g.write s unit w).edge t = e

end Write

namespace Graph

variable {g : Graph} {s : TokenStream} {unit : Nat}

/-- Every token that has an anchor comes after it. -/
def Forward (g : Graph) : Prop := ∀ t a, g.anchor? t = some a → a < t

theorem forward_blank (n : Nat) : (blank n).Forward := by
  intro t a h
  rw [anchor?, edge_blank] at h
  cases h

/-! ## Edges that stay -/

theorem edge_foldl_of {f : Graph → Nat → Graph} {ids : List Nat} {t : Nat} {g : Graph}
    (hf : ∀ g' : Graph, g'.edge t = g.edge t → ∀ i ∈ ids, (f g' i).edge t = g'.edge t) :
    (ids.foldl f g).edge t = g.edge t := by
  have hall : ∀ (ids : List Nat) (g' : Graph), g'.edge t = g.edge t →
      (∀ g' : Graph, g'.edge t = g.edge t → ∀ i ∈ ids, (f g' i).edge t = g'.edge t) →
      (ids.foldl f g').edge t = g.edge t := by
    intro ids
    induction ids with
    | nil => exact fun g' hg' _ => hg'
    | cons i ids ih =>
      intro g' hg' hf
      exact ih (f g' i) ((hf g' hg' i List.mem_cons_self).trans hg')
        fun g'' hg'' j hj => hf g'' hg'' j (List.mem_cons_of_mem i hj)
  exact hall ids g rfl hf

/-- A span that moves leaves alone what is anchored in it. -/
theorem edge_shift_of {span : Span} {levels t : Nat}
    (h : (g.anchor? t).any span.contains = true ∨ ¬(span.first ≤ t ∧ t ≤ span.last)) :
    (g.write s unit (.shift span levels)).edge t = g.edge t := by
  refine edge_foldl_of fun g' hg' i hi => edge_shiftToken_of ?_
  rcases h with h | h
  · exact .inr (by rwa [anchor?, hg'])
  · exact .inl fun hit => h (hit ▸ Span.mem_ids.1 hi)

/-- Parentheses leave alone what is anchored between them. -/
theorem edge_enclose_of {left right t : Nat} (hr : t ≠ right)
    (h : ((g.anchor? t).any fun a => left < a && a < right) = true ∨ ¬(left < t ∧ t < right)) :
    (g.write s unit (.enclose left right)).edge t = g.edge t := by
  simp only [write, enclose]
  rw [edge_align_of_ne (.inl (Ne.symm hr))]
  split
  · rfl
  · refine edge_foldl_of fun g' hg' i hi => edge_encloseToken_of ?_
    rcases h with h | h
    · exact .inr (by rwa [anchor?, hg'])
    · exact .inl fun hit => h (hit ▸ Span.mem_interior.1 hi)

theorem edge_write_of {w : Write} {t : Nat} (h : ¬w.Touches t) :
    (g.write s unit w).edge t = g.edge t := by
  cases w with
  | indent token anchor levels =>
    refine edge_indent_of_ne levels ?_
    by_cases ht : token = t
    · exact .inr (by_contra fun ha => h ⟨ht, ha⟩)
    · exact .inl ht
  | align token anchor =>
    refine edge_align_of_ne ?_
    by_cases ht : token = t
    · exact .inr (by_contra fun ha => h ⟨ht, ha⟩)
    · exact .inl ht
  | place token column => exact edge_setEdge_of_ne _ h
  | exempt token =>
    rw [write]
    split <;> rfl
  | bracket token => rfl
  | shift span levels => exact edge_shift_of (.inr h)
  | enclose left right =>
    exact edge_enclose_of (fun hr => h (.inr hr)) (.inr fun hlt => h (.inl hlt))

/-- An edge that no write of a list changes stays as it is through all of them. -/
theorem edge_writeAll_of_keeps {ws : List Write} {t : Nat} {e : Edge}
    (h : ∀ w ∈ ws, w.Keeps s unit t e) (hg : g.edge t = e) : (g.writeAll s unit ws).edge t = e := by
  induction ws generalizing g with
  | nil => exact hg
  | cons w ws ih =>
    exact ih (fun v hv => h v (List.mem_cons_of_mem w hv)) (h w List.mem_cons_self g hg)

theorem edge_writeAll_of {ws : List Write} {t : Nat} (h : ∀ w ∈ ws, ¬w.Touches t) :
    (g.writeAll s unit ws).edge t = g.edge t :=
  edge_writeAll_of_keeps (fun w hw _ hg' => (edge_write_of (h w hw)).trans hg') rfl

/-- A token that stands level with another one stays so when that is written again. -/
theorem keeps_align (token anchor : Nat) :
    (Write.align token anchor).Keeps s unit token ⟨some anchor, 0⟩ := by
  intro g hedge
  by_cases hne : anchor = token
  · exact (edge_align_of_ne (.inr hne)).trans hedge
  · refine edge_align hne ?_
    by_contra hge
    rw [edge_of_size_le (Nat.le_of_not_lt hge)] at hedge
    cases hedge

/-- The edge that one write of a list gives to a token stays if all of them keep it. -/
theorem edge_writeAll_of_mem {ws : List Write} {w : Write} {t : Nat} {e : Edge} (hw : w ∈ ws)
    (hwrite : ∀ g : Graph, t < g.size → (g.write s unit w).edge t = e)
    (hkeeps : ∀ v ∈ ws, v.Keeps s unit t e) (ht : t < g.size) : (g.writeAll s unit ws).edge t = e := by
  obtain ⟨before, after, rfl⟩ := List.append_of_mem hw
  rw [writeAll_append, writeAll, List.foldl_cons, ← writeAll]
  refine edge_writeAll_of_keeps (fun v hv => hkeeps v ?_) (hwrite _ (by rwa [size_writeAll]))
  exact List.mem_append_right _ (List.mem_cons_of_mem _ hv)

end Graph

end Indentation
