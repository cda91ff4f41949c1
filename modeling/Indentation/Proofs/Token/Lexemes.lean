import Indentation.Proofs.Tree.Nested
import Indentation.Token.Lexeme

/-!
# Lexemes in order

The lexemes of a nested tree stand one after the other, each in the range of the node it comes from.
The parts of a template take over the ends of the substitutions between them, so a substitution needs
two ends.
-/

namespace Indentation

namespace Lexeme

/-- Lexemes that follow each other from `lo` up to `hi`. -/
inductive Runs : Nat → Nat → List Lexeme → Prop where
  | nil {lo hi : Nat} : lo ≤ hi → Runs lo hi []
  | cons {lo hi : Nat} {x : Lexeme} {xs : List Lexeme} :
    lo ≤ x.start → x.start ≤ x.stop → Runs x.stop hi xs → Runs lo hi (x :: xs)

namespace Runs

theorem le {lo hi : Nat} {xs : List Lexeme} (h : Runs lo hi xs) : lo ≤ hi := by
  induction h with
  | nil h => exact h
  | cons h₁ h₂ _ ih => omega

theorem single {start stop : Nat} (form : Form) (h : start ≤ stop) :
    Runs start stop [⟨start, stop, form⟩] :=
  .cons (Nat.le_refl _) h (.nil (Nat.le_refl _))

theorem mono_left {lo lo' hi : Nat} {xs : List Lexeme} (h : Runs lo hi xs) (hlo : lo' ≤ lo) :
    Runs lo' hi xs := by
  cases h with
  | nil h => exact .nil (Nat.le_trans hlo h)
  | cons h₁ h₂ h₃ => exact .cons (Nat.le_trans hlo h₁) h₂ h₃

theorem append {lo mid hi : Nat} {xs ys : List Lexeme} (h₁ : Runs lo mid xs)
    (h₂ : Runs mid hi ys) : Runs lo hi (xs ++ ys) := by
  induction h₁ with
  | nil h => exact h₂.mono_left h
  | cons hlo hx _ ih => exact .cons hlo hx (ih h₂)

theorem mem {lo hi : Nat} {xs : List Lexeme} (h : Runs lo hi xs) {x : Lexeme} (hx : x ∈ xs) :
    lo ≤ x.start ∧ x.start ≤ x.stop ∧ x.stop ≤ hi := by
  induction h with
  | nil h => cases hx
  | cons h₁ h₂ h₃ ih =>
    rcases List.mem_cons.1 hx with rfl | hx
    · exact ⟨h₁, h₂, h₃.le⟩
    · have := ih hx
      omega

theorem pairwise {lo hi : Nat} {xs : List Lexeme} (h : Runs lo hi xs) :
    xs.Pairwise fun x y => x.stop ≤ y.start := by
  induction h with
  | nil h => exact .nil
  | cons h₁ h₂ h₃ ih => exact .cons (fun y hy => (h₃.mem hy).1) ih

end Runs

end Lexeme

namespace Cursor

theorem map_node_siblingsFrom (parent : Node) (trail : List Step) (index : Nat)
    (nodes : List Node) : (siblingsFrom parent trail index nodes).map Cursor.node = nodes := by
  induction nodes generalizing index with
  | nil => rfl
  | cons n later ih => rw [siblingsFrom, List.map_cons, ih]

theorem map_node_children (c : Cursor) : c.children.map Cursor.node = c.node.children :=
  map_node_siblingsFrom ..

end Cursor

namespace Node

open Cursor

theorem lexemesAll_eq (nodes : List Node) : lexemesAll nodes = nodes.flatMap lexemes := by
  induction nodes with
  | nil => rfl
  | cons n rest ih => rw [lexemesAll, ih, List.flatMap_cons]

theorem lexemesButLast_eq (nodes : List Node) :
    lexemesButLast nodes = nodes.dropLast.flatMap lexemes := by
  induction nodes with
  | nil => rfl
  | cons n rest ih =>
    cases rest with
    | nil => rfl
    | cons m rest => rw [lexemesButLast, ih, List.dropLast_cons_cons, List.flatMap_cons]

theorem templateLexemes_of_ne {n : Node} (h : n.kind ≠ "template_substitution") (start stop : Nat)
    (rest : List Node) : templateLexemes start stop (n :: rest) = templateLexemes start stop rest := by
  obtain ⟨label, parts⟩ := n
  have hlabel : label.kind ≠ "template_substitution" := h
  rw [templateLexemes.eq_def]
  simp only [hlabel, if_false]

theorem templateLexemes_of_eq {n opener closer : Node} {middle : List Node}
    (h : n.kind = "template_substitution") (hparts : n.children = opener :: (middle ++ [closer]))
    (start stop : Nat) (rest : List Node) :
    templateLexemes start stop (n :: rest) =
      ⟨start, opener.range.stop, .templatePart⟩ :: (middle.flatMap lexemes ++
        templateLexemes closer.range.start stop rest) := by
  obtain ⟨label, parts⟩ := n
  have hlabel : label.kind = "template_substitution" := h
  obtain rfl : parts = opener :: (middle ++ [closer]) := hparts
  rw [templateLexemes.eq_def]
  simp only [hlabel, if_true, lexemesButLast_eq, List.dropLast_concat, closerStart,
    List.getLast?_concat, Option.getD_some]

/-- What neighbouring places run through, they run through together. -/
theorem runs_flatMap {lo hi : Nat} {ds : List Cursor} (hlohi : lo ≤ hi)
    (hord : ds.Pairwise fun d e => d.range.stop ≤ e.range.start)
    (hin : ∀ d ∈ ds, lo ≤ d.range.start ∧ d.range.stop ≤ hi)
    (hruns : ∀ d ∈ ds, Lexeme.Runs d.range.start d.range.stop d.node.lexemes) :
    Lexeme.Runs lo hi ((ds.map Cursor.node).flatMap lexemes) := by
  induction ds generalizing lo with
  | nil => exact .nil hlohi
  | cons d ds ih =>
    obtain ⟨hd, hord⟩ := List.pairwise_cons.1 hord
    have hd₁ := hin d List.mem_cons_self
    have hd₂ := hruns d List.mem_cons_self
    rw [List.map_cons, List.flatMap_cons]
    refine (hd₂.mono_left hd₁.1).append (ih hd₁.2 hord (fun e he => ?_) fun e he => ?_)
    · exact ⟨hd e he, (hin e (List.mem_cons_of_mem d he)).2⟩
    · exact hruns e (List.mem_cons_of_mem d he)

/-- Substitutions have an opening and a closing. -/
def Substituted (tree : Node) : Prop :=
  ∀ c ∈ tree.preorder, c.kind = "template_substitution" → 2 ≤ c.children.length

theorem exists_ends {d : Cursor} (hlen : 2 ≤ d.children.length) :
    ∃ opener middle closer, d.children = opener :: (middle ++ [closer]) := by
  rcases hc : d.children with _ | ⟨opener, inner⟩
  · rw [hc] at hlen
    simp at hlen
  · have hne : inner ≠ [] := by
      rintro rfl
      rw [hc] at hlen
      simp at hlen
    exact ⟨opener, inner.dropLast, inner.getLast hne, by rw [List.dropLast_append_getLast]⟩

theorem Substituted.children_eq {tree : Node} (hsub : tree.Substituted) {d : Cursor}
    (hd : d ∈ tree.preorder) (hkind : d.node.kind = "template_substitution") :
    ∃ opener middle closer, d.children = opener :: (middle ++ [closer]) :=
  exists_ends (hsub d hd hkind)

theorem parts_eq {d opener closer : Cursor} {middle : List Cursor}
    (h : d.children = opener :: (middle ++ [closer])) :
    d.node.children = opener.node :: (middle.map Cursor.node ++ [closer.node]) := by
  rw [← map_node_children, h]
  simp

/-- The parts of a template and what is substituted between them. -/
theorem runs_templateLexemes {tree : Node} (h : tree.Nested) (hsub : tree.Substituted)
    {start stop : Nat} {ds : List Cursor} (hle : start ≤ stop) (hds : ∀ d ∈ ds, d ∈ tree.preorder)
    (hord : ds.Pairwise fun d e => d.range.stop ≤ e.range.start)
    (hin : ∀ d ∈ ds, start ≤ d.range.start ∧ d.range.stop ≤ stop)
    (hruns : ∀ d ∈ ds, ∀ e ∈ d.children, Lexeme.Runs e.range.start e.range.stop e.node.lexemes) :
    Lexeme.Runs start stop (templateLexemes start stop (ds.map Cursor.node)) := by
  induction ds generalizing start with
  | nil => exact .single _ hle
  | cons d ds ih =>
    have hdt := hds d List.mem_cons_self
    have hd := hin d List.mem_cons_self
    obtain ⟨hdord, hord⟩ := List.pairwise_cons.1 hord
    have hds' := fun e he => hds e (List.mem_cons_of_mem d he)
    have hin' := fun e he => hin e (List.mem_cons_of_mem d he)
    have hruns' := fun e he => hruns e (List.mem_cons_of_mem d he)
    rw [List.map_cons]
    by_cases hkind : d.node.kind = "template_substitution"
    · obtain ⟨opener, middle, closer, hc⟩ := hsub.children_eq hdt hkind
      have hpair := h.ordered d hdt
      rw [hc] at hpair
      obtain ⟨hopener, hpair⟩ := List.pairwise_cons.1 hpair
      obtain ⟨hmid, -, hcloser⟩ := List.pairwise_append.1 hpair
      have hopenin := h.inside d hdt opener (hc ▸ List.mem_cons_self)
      have hclosein := h.inside d hdt closer (hc ▸ by simp)
      have hopenc := hopener closer (by simp)
      have hos := opener.range.start_le_stop
      have hcs := closer.range.start_le_stop
      rw [templateLexemes_of_eq hkind (parts_eq hc)]
      refine .cons (Nat.le_refl _) (by change start ≤ opener.range.stop; omega)
        (Lexeme.Runs.append (runs_flatMap hopenc hmid (fun e he => ⟨?_, ?_⟩) fun e he => ?_) ?_)
      · exact hopener e (List.mem_append_left _ he)
      · exact hcloser e he closer (List.mem_singleton.2 rfl)
      · exact hruns d List.mem_cons_self e (hc ▸ by simp [he])
      · refine ih (by omega) hds' hord (fun e he => ⟨?_, ?_⟩) hruns'
        · have := hdord e he
          change closer.range.start ≤ _
          omega
        · exact (hin' e he).2
    · rw [templateLexemes_of_ne hkind]
      exact ih hle hds' hord hin' hruns'

/-- The lexemes of a place follow each other in its range. -/
theorem runs_lexemes {tree : Node} (h : tree.Nested) (hsub : tree.Substituted) {c : Cursor}
    (hc : c ∈ tree.preorder) : Lexeme.Runs c.range.start c.range.stop c.node.lexemes := by
  induction hn : c.node.size using Nat.strongRecOn generalizing c with
  | _ n ih =>
    have hchild : ∀ d ∈ c.children, Lexeme.Runs d.range.start d.range.stop d.node.lexemes :=
      fun d hd => ih _ (hn ▸ size_lt_of_mem_children hd) (mem_preorder_of_child hc hd) rfl
    have hle := c.range.start_le_stop
    have hnodes := map_node_children c
    rcases hnode : c.node with ⟨label, children⟩
    have hrange : c.range = label.range := by rw [Cursor.range, hnode]; rfl
    rw [hnode, Node.children] at hnodes
    rw [hrange] at hle ⊢
    rw [lexemes.eq_def]
    simp only
    split
    · exact .single _ hle
    · split
      · rw [← hnodes]
        refine runs_templateLexemes h hsub hle (fun d hd => mem_preorder_of_child hc hd)
          (h.ordered c hc) (fun d hd => hrange ▸ h.inside c hc d hd) fun d hd e he => ?_
        have hlt := Nat.lt_trans (size_lt_of_mem_children he) (size_lt_of_mem_children hd)
        exact ih _ (hn ▸ hlt) (mem_preorder_of_child (mem_preorder_of_child hc hd) he) rfl
      · split
        · exact .single _ hle
        · next n rest _ =>
          rw [lexemesAll_eq, ← List.flatMap_cons, ← hnodes]
          exact runs_flatMap hle (h.ordered c hc) (fun d hd => hrange ▸ h.inside c hc d hd) hchild

/-- Lexemes begin and end where nodes do. -/
theorem ends_of_mem_templateLexemes {tree : Node} (hsub : tree.Substituted) {P : Nat → Prop}
    {start stop : Nat} {ds : List Cursor} (hstart : P start) (hstop : P stop)
    (hds : ∀ d ∈ ds, d ∈ tree.preorder)
    (hP : ∀ d ∈ ds, ∀ e ∈ d.children, P e.range.start ∧ P e.range.stop)
    (hlex : ∀ d ∈ ds, ∀ e ∈ d.children, ∀ x ∈ e.node.lexemes, P x.start ∧ P x.stop) {x : Lexeme}
    (hx : x ∈ templateLexemes start stop (ds.map Cursor.node)) : P x.start ∧ P x.stop := by
  induction ds generalizing start with
  | nil =>
    rw [List.mem_singleton.1 hx]
    exact ⟨hstart, hstop⟩
  | cons d ds ih =>
    have hdt := hds d List.mem_cons_self
    have hds' := fun e he => hds e (List.mem_cons_of_mem d he)
    have hP' := fun e he => hP e (List.mem_cons_of_mem d he)
    have hlex' := fun e he => hlex e (List.mem_cons_of_mem d he)
    rw [List.map_cons] at hx
    by_cases hkind : d.node.kind = "template_substitution"
    · obtain ⟨opener, middle, closer, hc⟩ := hsub.children_eq hdt hkind
      have hmem : ∀ e ∈ opener :: (middle ++ [closer]), e ∈ d.children := fun e he => hc ▸ he
      rw [templateLexemes_of_eq hkind (parts_eq hc)] at hx
      rcases List.mem_cons.1 hx with rfl | hx
      · exact ⟨hstart, (hP d List.mem_cons_self opener (hmem opener (by simp))).2⟩
      · rcases List.mem_append.1 hx with hx | hx
        · obtain ⟨n, hn, hx⟩ := List.mem_flatMap.1 hx
          obtain ⟨e, he, rfl⟩ := List.mem_map.1 hn
          exact hlex d List.mem_cons_self e (hmem e (by simp [he])) x hx
        · exact ih (hP d List.mem_cons_self closer (hmem closer (by simp))).1 hds' hP' hlex' hx
    · rw [templateLexemes_of_ne hkind] at hx
      exact ih hstart hds' hP' hlex' hx

theorem ends_of_mem_lexemes {tree : Node} (hsub : tree.Substituted) {P : Nat → Prop}
    (hP : ∀ c ∈ tree.preorder, P c.range.start ∧ P c.range.stop) {c : Cursor}
    (hc : c ∈ tree.preorder) {x : Lexeme} (hx : x ∈ c.node.lexemes) : P x.start ∧ P x.stop := by
  induction hn : c.node.size using Nat.strongRecOn generalizing c x with
  | _ n ih =>
    have hself := hP c hc
    have hnodes := map_node_children c
    rcases hnode : c.node with ⟨label, children⟩
    have hrange : c.range = label.range := by rw [Cursor.range, hnode]; rfl
    rw [hnode, Node.children] at hnodes
    rw [hrange] at hself
    rw [hnode, lexemes.eq_def] at hx
    simp only at hx
    split at hx
    · rw [List.mem_singleton.1 hx]
      exact hself
    · split at hx
      · rw [← hnodes] at hx
        have hchild := fun d hd => mem_preorder_of_child (d := d) hc hd
        refine ends_of_mem_templateLexemes hsub hself.1 hself.2 hchild
          (fun d hd e he => hP e (mem_preorder_of_child (hchild d hd) he)) (fun d hd e he y hy => ?_) hx
        have hlt := Nat.lt_trans (size_lt_of_mem_children he) (size_lt_of_mem_children hd)
        exact ih _ (hn ▸ hlt) (mem_preorder_of_child (hchild d hd) he) hy rfl
      · split at hx
        · rw [List.mem_singleton.1 hx]
          exact hself
        · next n rest _ =>
          rw [lexemesAll_eq, ← List.flatMap_cons, ← hnodes] at hx
          obtain ⟨m, hm, hx⟩ := List.mem_flatMap.1 hx
          obtain ⟨d, hd, rfl⟩ := List.mem_map.1 hm
          exact ih _ (hn ▸ size_lt_of_mem_children hd) (mem_preorder_of_child hc hd) hx rfl

end Node

end Indentation
