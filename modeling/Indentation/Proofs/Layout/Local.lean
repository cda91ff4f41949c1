import Indentation.Proofs.Layout.Forward

/-!
# Each token is written on its own

What a write makes of the edge of one token is read off that edge and nothing else of the graph.  A
span that moves hence moves all tokens of one edge alike, and two graphs that agree about a token
agree about it after the same writes.
-/

namespace Indentation.Graph

variable {g g' : Graph} {s : TokenStream} {unit t : Nat}

/-! ## One token of a fold -/

theorem edge_foldl_of_notMem {f : Graph → Nat → Graph}
    (hf : ∀ (g : Graph) (i : Nat), i ≠ t → (f g i).edge t = g.edge t) {ids : List Nat}
    (ht : t ∉ ids) : (ids.foldl f g).edge t = g.edge t := by
  refine edge_foldl_of fun g' _ i hi => hf g' i ?_
  rintro rfl
  exact ht hi

/-- A step that reads of a token no more than its edge, and changes only that one, is taken once for each
token. -/
theorem edge_foldl_of_mem {f : Graph → Nat → Graph} {n : Nat} {F : Edge → Edge}
    (hself : ∀ g : Graph, g.size = n → (f g t).edge t = F (g.edge t))
    (hother : ∀ (g : Graph) (i : Nat), i ≠ t → (f g i).edge t = g.edge t)
    (hsize : ∀ (g : Graph) (i : Nat), (f g i).size = g.size) {ids : List Nat} (hnodup : ids.Nodup)
    (ht : t ∈ ids) (hg : g.size = n) : (ids.foldl f g).edge t = F (g.edge t) := by
  obtain ⟨before, after, rfl⟩ := List.append_of_mem ht
  obtain ⟨-, hafter, hbefore⟩ := List.nodup_append.1 hnodup
  have hout : t ∉ before := fun hmem => hbefore t hmem t List.mem_cons_self rfl
  have hout' : t ∉ after := (List.nodup_cons.1 hafter).1
  rw [List.foldl_append, List.foldl_cons, edge_foldl_of_notMem hother hout',
    hself _ ((size_foldl hsize g before).trans hg), edge_foldl_of_notMem hother hout]

theorem edge_shiftToken (span : Span) (levels : Nat) :
    (shiftToken unit levels span g t).edge t =
      if (g.anchor? t).any span.contains ∨ g.size ≤ t then g.edge t
      else ⟨g.anchor? t, Width.add (g.edge t).offset (Width.ofLevels unit levels)⟩ := by
  rw [shiftToken]
  by_cases hany : (g.anchor? t).any span.contains = true
  · rw [if_pos hany, if_pos (.inl hany)]
  · rw [if_neg hany, edge_setEdge]
    by_cases hsize : t < g.size
    · rw [if_pos ⟨rfl, hsize⟩, if_neg]
      · rfl
      · rintro (h | h)
        · exact hany h
        · omega
    · rw [if_neg fun h => hsize h.2, if_pos (.inr (Nat.le_of_not_lt hsize))]

/-- A span that moves writes each of its tokens once. -/
theorem edge_shift (span : Span) (levels : Nat) :
    (g.write s unit (.shift span levels)).edge t =
      if span.first ≤ t ∧ t ≤ span.last then (shiftToken unit levels span g t).edge t
      else g.edge t := by
  split
  · next hin =>
    let F (e : Edge) : Edge :=
      if e.anchor.any span.contains ∨ g.size ≤ t then e
      else ⟨e.anchor, Width.add e.offset (Width.ofLevels unit levels)⟩
    have hself (g' : Graph) (hg' : g'.size = g.size) :
        (shiftToken unit levels span g' t).edge t = F (g'.edge t) := by
      rw [edge_shiftToken, hg']
      rfl
    rw [hself g rfl]
    exact edge_foldl_of_mem hself (fun g i hi => edge_shiftToken_of (.inl hi))
      (fun g i => size_shiftToken levels span i) List.nodup_range' (Span.mem_ids.2 hin) rfl
  · next hout => exact edge_shift_of (.inr hout)

/-- Tokens with one edge move alike. -/
theorem edge_shift_congr {span : Span} {levels a : Nat} (hedge : g.edge a = g.edge t)
    (hspan : (span.first ≤ a ∧ a ≤ span.last) ↔ (span.first ≤ t ∧ t ≤ span.last))
    (ha : a < g.size) (ht : t < g.size) :
    (g.write s unit (.shift span levels)).edge a =
      (g.write s unit (.shift span levels)).edge t := by
  have hanchor : g.anchor? a = g.anchor? t := congrArg Edge.anchor hedge
  simp only [edge_shift, edge_shiftToken, hspan, hanchor, hedge, Nat.not_le_of_lt ha,
    Nat.not_le_of_lt ht]

/-- A span that moves changes no anchor. -/
theorem anchor?_shift (span : Span) (levels : Nat) :
    (g.write s unit (.shift span levels)).anchor? t = g.anchor? t := by
  rw [anchor?, edge_shift, edge_shiftToken]
  split
  · split <;> rfl
  · rfl

/-! ## Brackets -/

@[simp] theorem brackets_setEdge (token : Nat) (e : Edge) : (g.setEdge token e).brackets = g.brackets :=
  rfl

@[simp] theorem brackets_align (token anchor : Nat) : (g.align token anchor).brackets = g.brackets := by
  rw [align]
  split <;> simp

@[simp] theorem brackets_indent (token : Nat) (anchor : Option Nat) (levels : Nat) :
    (g.indent s unit token anchor levels).brackets = g.brackets := by
  cases anchor with
  | none => exact brackets_setEdge ..
  | some a =>
    simp only [indent]
    split <;> simp

@[simp] theorem brackets_shiftToken (levels : Nat) (span : Span) (token : Nat) :
    (shiftToken unit levels span g token).brackets = g.brackets := by
  rw [shiftToken]
  split <;> simp

@[simp] theorem brackets_encloseToken (left right token : Nat) :
    (encloseToken s unit left right g token).brackets = g.brackets := by
  rw [encloseToken]
  split <;> simp

@[simp] theorem brackets_enclose (left right : Nat) :
    (g.write s unit (.enclose left right)).brackets = g.brackets := by
  simp only [write, enclose, brackets_align]
  split
  · rfl
  · exact foldl_eq (fun _ i => brackets_encloseToken left right i) g _

theorem brackets_write {w : Write} (hw : ∀ token, w ≠ .bracket token) :
    (g.write s unit w).brackets = g.brackets := by
  cases w with
  | indent token anchor levels => exact brackets_indent token anchor levels
  | align token anchor => exact brackets_align token anchor
  | place token column => exact brackets_setEdge token _
  | exempt token =>
    rw [write]
    split <;> rfl
  | bracket token => exact absurd rfl (hw token)
  | shift span levels => exact foldl_eq (fun _ i => brackets_shiftToken levels span i) g _
  | enclose left right => exact brackets_enclose left right

theorem size_brackets_write (w : Write) : (g.write s unit w).brackets.size = g.brackets.size := by
  by_cases hw : ∃ i, w = .bracket i
  · obtain ⟨i, rfl⟩ := hw
    exact Array.size_setIfInBounds
  · rw [brackets_write fun i hi => hw ⟨i, hi⟩]

theorem isBracket_bracket (i token : Nat) : (g.bracket i).isBracket token =
    (g.isBracket token || decide (i = token ∧ token < g.brackets.size)) := by
  simp only [isBracket, bracket, Array.getD_eq_getD_getElem?, Array.getElem?_setIfInBounds]
  by_cases hi : i = token
  · by_cases hsize : token < g.brackets.size <;> simp [hi, hsize]
  · simp [hi]

/-- A parenthesis of a list stays one. -/
theorem isBracket_write {w : Write} {token : Nat} (h : g.isBracket token = true) :
    (g.write s unit w).isBracket token = true := by
  by_cases hw : ∃ i, w = .bracket i
  · obtain ⟨i, rfl⟩ := hw
    rw [write, isBracket_bracket, h, Bool.true_or]
  · rw [isBracket, brackets_write fun i hi => hw ⟨i, hi⟩]
    exact h

theorem isBracket_writeAll_of_mem {ws : List Write} {token : Nat} (hw : .bracket token ∈ ws)
    (ht : token < g.brackets.size) : (g.writeAll s unit ws).isBracket token = true := by
  obtain ⟨before, after, rfl⟩ := List.append_of_mem hw
  have hsize : (g.writeAll s unit before).brackets.size = g.brackets.size :=
    writeAll_of_write (Q := fun g' => g'.brackets.size = g.brackets.size)
      (fun w _ g' _ hg' => (size_brackets_write w).trans hg') rfl rfl
  rw [writeAll_append, writeAll, List.foldl_cons, ← writeAll]
  refine writeAll_of_write (Q := fun g' => g'.isBracket token = true)
    (fun w _ g' _ hg' => isBracket_write hg') rfl ?_
  rw [write, isBracket_bracket, decide_eq_true ⟨rfl, hsize ▸ ht⟩, Bool.or_true]

/-- The parentheses of a list leave alone what is between them. -/
theorem edge_enclose_of_isBracket {left right : Nat} (hr : t ≠ right)
    (h : g.isBracket left = true ∨ g.isBracket right = true) :
    (g.write s unit (.enclose left right)).edge t = g.edge t := by
  have hbracket : (g.isBracket left || g.isBracket right) = true := by simpa using h
  simp only [write, enclose, hbracket, if_true]
  exact edge_align_of_ne (.inl (Ne.symm hr))

/-! ## Exempt tokens -/

@[simp] theorem exempted_setEdge (token : Nat) (e : Edge) : (g.setEdge token e).exempted = g.exempted :=
  rfl

@[simp] theorem exempted_align (token anchor : Nat) : (g.align token anchor).exempted = g.exempted := by
  rw [align]
  split <;> rfl

@[simp] theorem exempted_indent (token : Nat) (anchor : Option Nat) (levels : Nat) :
    (g.indent s unit token anchor levels).exempted = g.exempted := by
  cases anchor with
  | none => rfl
  | some a =>
    simp only [indent]
    split
    · exact exempted_align token a
    · rfl

@[simp] theorem exempted_shiftToken (levels : Nat) (span : Span) (token : Nat) :
    (shiftToken unit levels span g token).exempted = g.exempted := by
  rw [shiftToken]
  split <;> rfl

@[simp] theorem exempted_encloseToken (left right token : Nat) :
    (encloseToken s unit left right g token).exempted = g.exempted := by
  rw [encloseToken]
  split <;> simp

@[simp] theorem exempted_shift (span : Span) (levels : Nat) :
    (g.write s unit (.shift span levels)).exempted = g.exempted :=
  foldl_eq (fun _ i => exempted_shiftToken levels span i) g _

@[simp] theorem exempted_enclose (left right : Nat) :
    (g.write s unit (.enclose left right)).exempted = g.exempted := by
  simp only [write, enclose, exempted_align]
  split
  · rfl
  · exact foldl_eq (fun _ i => exempted_encloseToken left right i) g _

/-! ## Graphs that agree about a token -/

/-- Graphs of one size, with the same brackets and exempt tokens, that have the same edge for a
token. -/
structure AgreeAt (g g' : Graph) (t : Nat) : Prop where
  size_eq : g.size = g'.size
  brackets_eq : g.brackets = g'.brackets
  exempted_eq : g.exempted = g'.exempted
  edge_eq : g.edge t = g'.edge t

namespace AgreeAt

variable (h : AgreeAt g g' t)
include h

theorem anchor?_eq : g.anchor? t = g'.anchor? t := congrArg Edge.anchor h.edge_eq

theorem isBracket_eq (token : Nat) : g.isBracket token = g'.isBracket token := by
  rw [isBracket, isBracket, h.brackets_eq]

theorem isExempt_eq (token : Nat) : g.isExempt token = g'.isExempt token := by
  rw [isExempt, isExempt, h.exempted_eq]

theorem setEdge (token : Nat) (e : Edge) : AgreeAt (g.setEdge token e) (g'.setEdge token e) t where
  size_eq := by simpa using h.size_eq
  brackets_eq := h.brackets_eq
  exempted_eq := h.exempted_eq
  edge_eq := by rw [edge_setEdge, edge_setEdge, h.size_eq, h.edge_eq]

theorem align (token anchor : Nat) : AgreeAt (g.align token anchor) (g'.align token anchor) t := by
  rw [Graph.align, Graph.align]
  split
  · exact h
  · exact h.setEdge _ _

theorem indent (token : Nat) (anchor : Option Nat) (levels : Nat) :
    AgreeAt (g.indent s unit token anchor levels) (g'.indent s unit token anchor levels) t := by
  cases anchor with
  | none => exact h.setEdge _ _
  | some a =>
    simp only [Graph.indent]
    split
    · exact h.align _ _
    · exact h.setEdge _ _

theorem shiftToken (levels : Nat) (span : Span) (token : Nat) :
    AgreeAt (Graph.shiftToken unit levels span g token) (Graph.shiftToken unit levels span g' token)
      t where
  size_eq := by simpa using h.size_eq
  brackets_eq := by simpa using h.brackets_eq
  exempted_eq := by simpa using h.exempted_eq
  edge_eq := by
    by_cases htoken : token = t
    · subst htoken
      rw [edge_shiftToken, edge_shiftToken, h.anchor?_eq, h.edge_eq, h.size_eq]
    · rw [edge_shiftToken_of (.inl htoken), edge_shiftToken_of (.inl htoken), h.edge_eq]

theorem encloseToken (left right token : Nat) :
    AgreeAt (Graph.encloseToken s unit left right g token)
      (Graph.encloseToken s unit left right g' token) t where
  size_eq := by simpa using h.size_eq
  brackets_eq := by simpa using h.brackets_eq
  exempted_eq := by simpa using h.exempted_eq
  edge_eq := by
    by_cases htoken : token = t
    · subst htoken
      rw [Graph.encloseToken, Graph.encloseToken, h.anchor?_eq]
      split
      · exact h.edge_eq
      · exact (h.indent _ _ _).edge_eq
    · rw [edge_encloseToken_of (.inl htoken), edge_encloseToken_of (.inl htoken), h.edge_eq]

theorem foldl {f : Graph → Nat → Graph}
    (hf : ∀ {g g' : Graph}, AgreeAt g g' t → ∀ i, AgreeAt (f g i) (f g' i) t) (ids : List Nat) :
    AgreeAt (ids.foldl f g) (ids.foldl f g') t := by
  induction ids generalizing g g' with
  | nil => exact h
  | cons i ids ih => exact ih (hf h i)

/-- A write is about each token on its own. -/
theorem write (w : Write) : AgreeAt (g.write s unit w) (g'.write s unit w) t := by
  cases w with
  | indent token anchor levels => exact h.indent token anchor levels
  | align token anchor => exact h.align token anchor
  | place token column => exact h.setEdge token _
  | exempt token =>
    simp only [Graph.write]
    split
    · exact ⟨h.size_eq, h.brackets_eq, by simp only [Graph.exempt, h.exempted_eq], h.edge_eq⟩
    · exact h
  | bracket token =>
    refine ⟨h.size_eq, ?_, h.exempted_eq, h.edge_eq⟩
    simp only [Graph.write, Graph.bracket, h.brackets_eq]
  | shift span levels => exact h.foldl (fun h i => h.shiftToken levels span i) span.ids
  | enclose left right =>
    simp only [Graph.write, enclose]
    rw [h.isBracket_eq, h.isBracket_eq]
    apply AgreeAt.align
    split
    · exact h
    · exact h.foldl (fun h i => h.encloseToken left right i) _

end AgreeAt

end Indentation.Graph
