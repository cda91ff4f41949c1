import Indentation.Lint.Indent
import Indentation.Proofs.Construct.Carried
import Indentation.Proofs.Layout.Local

/-!
# Graphs of a moved text

The same writes make the same graph.  The widths that it prescribes depend on the text only through the
margins of tokens that may stand where they are, and such tokens lead their lines.
-/

namespace Indentation

namespace Graph

variable {s : TokenStream} {unit : Nat}

/-- Only tokens that lead their lines may stand where they are. -/
def ExemptLeads (s : TokenStream) (g : Graph) : Prop := ∀ t, g.isExempt t = true → s.leads t = true

/-- A token may stand where it is only if it leads its line and a write says so. -/
theorem isExempt_write {g : Graph} {w : Write} {t : Nat}
    (h : (g.write s unit w).isExempt t = true) :
    g.isExempt t = true ∨ w = .exempt t ∧ s.leads t = true := by
  have hkeep : ∀ g' : Graph, g'.exempted = g.exempted → g'.isExempt t = true →
      g.isExempt t = true := fun g' heq ht => by rwa [isExempt, heq] at ht
  cases w with
  | exempt token =>
    rw [Graph.write] at h
    split at h
    · next hlead =>
      rw [isExempt, exempt, Array.getD_eq_getD_getElem?, Array.getElem?_setIfInBounds] at h
      split at h
      · next heq => exact .inr ⟨by rw [heq], heq ▸ hlead⟩
      · refine .inl ?_
        rwa [isExempt, Array.getD_eq_getD_getElem?]
    · exact .inl h
  | indent token anchor levels => exact .inl (hkeep _ (exempted_indent token anchor levels) h)
  | align token anchor => exact .inl (hkeep _ (exempted_align token anchor) h)
  | place token column => exact .inl (hkeep _ rfl h)
  | bracket token => exact .inl (hkeep _ rfl h)
  | shift span levels => exact .inl (hkeep _ (exempted_shift span levels) h)
  | enclose left right => exact .inl (hkeep _ (exempted_enclose left right) h)

theorem isExempt_writeAll {g : Graph} {ws : List Write} {t : Nat}
    (h : (g.writeAll s unit ws).isExempt t = true) :
    g.isExempt t = true ∨ .exempt t ∈ ws ∧ s.leads t = true := by
  induction ws generalizing g with
  | nil => exact .inl h
  | cons w ws ih =>
    rcases ih h with h | ⟨hmem, hlead⟩
    · rcases isExempt_write h with h | ⟨rfl, hlead⟩
      · exact .inl h
      · exact .inr ⟨List.mem_cons_self, hlead⟩
    · exact .inr ⟨List.mem_cons_of_mem w hmem, hlead⟩

theorem not_isExempt_blank (n t : Nat) : (blank n).isExempt t = false := by
  rw [isExempt, blank, Array.getD_eq_getD_getElem?, Array.getElem?_replicate]
  split <;> rfl

/-! ## The same graph for two streams -/

variable {f : Nat → Nat} {s' : TokenStream}

theorem write_eq (h : s.Parallels f s') (g : Graph) (w : Write) :
    g.write s' unit w = g.write s unit w := by
  have hindent : ∀ (g : Graph) (token : Nat) (anchor : Option Nat) (levels : Nat),
      g.indent s' unit token anchor levels = g.indent s unit token anchor levels := by
    intro g token anchor levels
    simp only [indent, h.sameStartLine_eq]
  cases w with
  | indent token anchor levels => exact hindent g token anchor levels
  | exempt token => rw [write, write, h.leads_eq]
  | enclose left right =>
    have htoken : encloseToken s' unit left right = encloseToken s unit left right := by
      funext g token
      rw [encloseToken, encloseToken, hindent]
    simp only [write, enclose, htoken]
  | _ => rfl

theorem writeAll_eq (h : s.Parallels f s') (g : Graph) (ws : List Write) :
    g.writeAll s' unit ws = g.writeAll s unit ws := by
  rw [writeAll, writeAll]
  congr 1
  funext g w
  exact write_eq h g w

/-- The margins of exempt tokens are all that is read of a stream. -/
theorem climbStep_congr {c : IndentChar} {g : Graph}
    (h : ∀ t, g.isExempt t = true → (s'.marginOf t).good c = (s.marginOf t).good c) :
    climbStep s' c g = climbStep s c g := by
  funext slots token waiting
  rw [climbStep, climbStep]
  split
  · rfl
  · split
    · next hexempt => rw [h token hexempt]
    · rfl

theorem climb_congr {c : IndentChar} {g : Graph} (h : climbStep s' c g = climbStep s c g) :
    climb s' c g = climb s c g := by
  funext fuel slots chain
  induction fuel generalizing slots chain with
  | zero => cases chain <;> rfl
  | succ fuel ih =>
    cases chain with
    | nil => rfl
    | cons token waiting => simp only [climb, h, ih]

theorem resolve_congr (hparallels : s.Parallels f s') {c : IndentChar} {g : Graph}
    (h : ∀ t, g.isExempt t = true → (s'.marginOf t).good c = (s.marginOf t).good c) :
    g.resolve s' c = g.resolve s c := by
  have hfrom : climbFrom s' c g = climbFrom s c g := by
    funext slots start
    rw [climbFrom, climbFrom, climb_congr (climbStep_congr h)]
  simp only [resolve, resolveFrom, hfrom, hparallels.ids_eq, hparallels.size_eq]

end Graph

namespace IndentRule

variable {f : Nat → Nat} {s s' : TokenStream} {tree : Node} {o : IndentOptions}

theorem exemptLeads_graph (o : IndentOptions) (tree : Node) (s : TokenStream) :
    (graph o tree s).ExemptLeads s := by
  intro t ht
  rcases Graph.isExempt_writeAll ht with ht | ⟨-, hlead⟩
  · rw [Graph.not_isExempt_blank] at ht
    cases ht
  · exact hlead

theorem parenPairs_eq (h : s.Parallels f s') : Parens.pairs s' = Parens.pairs s := by
  have hstep : Parens.step s' = Parens.step s := by
    funext scan token
    simp only [Parens.step, h.isOpening_eq, h.isClosing_eq]
  rw [Parens.pairs, Parens.pairs, hstep, h.ids_eq]

theorem parenWrites_eq (h : s.Parallels f s') : Parens.writes s' = Parens.writes s := by
  rw [Parens.writes, Parens.writes, parenPairs_eq h]

theorem graph_mapOffsets (h : s.Parallels f s')
    (ho : ∀ k, Construct.listOffset? o k = some .first → s.SameColumns s')
    (hin : ∀ c ∈ tree.preorder, Operation.IsMark c → Operation.SameStart s f s' c) :
    graph o (tree.mapOffsets f) s' = graph o tree s := by
  rw [graph, graph, Construct.writes_eq h hin ho, parenWrites_eq h, Graph.writeAll_eq h, h.size_eq]

end IndentRule

end Indentation
