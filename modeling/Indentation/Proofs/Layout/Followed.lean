import Indentation.Proofs.Layout.Carried
import Indentation.Proofs.Layout.Resolve
import Mathlib.Data.List.Forall2

/-!
# Graphs of a text with other columns

A list may put its elements into the column of the first one, and then what it writes follows that
column when the text moves.  What a graph says of a token depends on no column but those of the code
before the token.  The same goes for its width, since anchors come first.
-/

namespace Indentation

namespace Write

/-- A write and the same write of a moved text: where it takes a column, it is that of a token of the
code before the one that is written. -/
inductive Follows (s s' : TokenStream) : Write → Write → Prop
  | same (w : Write) : Follows s s' w w
  | place {token lead : Nat} (hlt : lead < token) (hcode : s.isComment lead = false) :
      Follows s s' (.place token (s.token lead).column) (.place token (s'.token lead).column)

theorem forall₂_follows (s s' : TokenStream) (ws : List Write) :
    List.Forall₂ (Follows s s') ws ws := List.forall₂_same.2 fun w _ => .same w

end Write

namespace TokenStream

/-- The code before a token is where it was. -/
def Settled (s s' : TokenStream) (t : Nat) : Prop :=
  ∀ u < t, s.isComment u = false → (s'.token u).column = (s.token u).column

end TokenStream

namespace Graph

variable {f : Nat → Nat} {s s' : TokenStream} {unit t : Nat} {g g' : Graph}
  (htracks : s.Tracks f s')

include htracks in
theorem AgreeAt.follows {w w' : Write} (h : AgreeAt g g' t) (hw : w.Follows s s' w')
    (hsettled : s.Settled s' t) : AgreeAt (g.write s unit w) (g'.write s' unit w') t := by
  cases hw with
  | same =>
    rw [write_eq htracks.toParallels]
    exact h.write w
  | @place token lead hlt hcode =>
    by_cases htoken : token = t
    · rw [hsettled lead (htoken ▸ hlt) hcode]
      exact h.setEdge token _
    · refine ⟨by simpa [Graph.write] using h.size_eq, h.brackets_eq, h.exempted_eq, ?_⟩
      rw [Graph.write, Graph.write, edge_setEdge_of_ne _ htoken, edge_setEdge_of_ne _ htoken, h.edge_eq]

include htracks in
/-- Two graphs agree about a token when all has been written, if the code before it is settled. -/
theorem AgreeAt.writeAll {ws ws' : List Write} (h : AgreeAt g g' t)
    (hws : List.Forall₂ (Write.Follows s s') ws ws') (hsettled : s.Settled s' t) :
    AgreeAt (g.writeAll s unit ws) (g'.writeAll s' unit ws') t := by
  induction hws generalizing g g' with
  | nil => exact h
  | cons hw _ ih => exact ih (h.follows htracks hw hsettled)

theorem AgreeAt.prescribed_eq {c : IndentChar} {width width' : Nat → Nat} (h : AgreeAt g g' t)
    (hmargin : g.isExempt t = true → (s'.marginOf t).good c = (s.marginOf t).good c)
    (hwidth : ∀ a, g.anchor? t = some a → width' a = width a) :
    g'.prescribed s' c width' t = g.prescribed s c width t := by
  rw [prescribed, prescribed, ← h.isExempt_eq, ← h.anchor?_eq, ← h.edge_eq]
  split
  · next hexempt => exact hmargin hexempt
  · cases hanchor : g.anchor? t with
    | none => rfl
    | some a => simp only [hwidth a hanchor]

/-- Graphs that agree about a token and all before it prescribe one width for it. -/
theorem width_eq {c : IndentChar} {widths widths' : Array Nat} (hforward : g.Forward)
    (hwidths : ∀ t < s.size, widths.getD t 0 = g.prescribed s c (fun a => widths.getD a 0) t)
    (hwidths' : ∀ t < s.size, widths'.getD t 0 = g'.prescribed s' c (fun a => widths'.getD a 0) t)
    (hmargin : ∀ t, g.isExempt t = true → (s'.marginOf t).good c = (s.marginOf t).good c)
    (hagree : ∀ a ≤ t, AgreeAt g g' a) (ht : t < s.size) : widths'.getD t 0 = widths.getD t 0 := by
  induction t using Nat.strongRecOn with
  | _ t ih =>
    rw [hwidths t ht, hwidths' t ht]
    refine (hagree t (Nat.le_refl t)).prescribed_eq (hmargin t) fun a ha => ?_
    have hlt := hforward t a ha
    exact ih a hlt (fun b hb => hagree b (Nat.le_trans hb (Nat.le_of_lt hlt))) (Nat.lt_trans hlt ht)

end Graph

end Indentation
