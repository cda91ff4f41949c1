import Indentation.Proofs.Token.Rows

/-!
# The cut of the leaves

Each leaf of a tree lies in one token.  A node that is a token of its own hides what is below it, and a
template hides its own characters in its parts: these run from its start or from a closing brace on up
to the next opening or to its end.  What is substituted between them is cut like anything else, so
templates nest.
-/

namespace Indentation

namespace Cursor

/-- The substitutions of a template. -/
def substitutions (c : Cursor) : List Cursor :=
  c.children.filter fun d => d.kind = "template_substitution"

/-- What is substituted stands between the opening and the closing. -/
def substituted (c : Cursor) : List Cursor := c.children.tail.dropLast

/-- From behind the opening of a substitution up to its closing. -/
def gap (c : Cursor) : Nat × Nat :=
  ((c.children.head?.getD c).range.stop, (c.children.getLast?.getD c).range.start)

/-- What gaps leave over from `start` up to `stop`. -/
def between (start stop : Nat) (gaps : List (Nat × Nat)) : List (Nat × Nat) :=
  (start :: gaps.map Prod.snd).zip (gaps.map Prod.fst ++ [stop])

/-- The literal parts of a template, with the openings and the closings of its substitutions. -/
def literalParts (c : Cursor) : List (Nat × Nat) :=
  between c.range.start c.range.stop (c.substitutions.map gap)

/-! ## Gaps -/

/-- Gaps from `lo` up to `hi` that follow each other and do not touch. -/
inductive Gaps : Nat → Nat → List (Nat × Nat) → Prop where
  | nil {lo hi : Nat} : lo < hi → Gaps lo hi []
  | cons {lo hi : Nat} {g : Nat × Nat} {gs : List (Nat × Nat)} :
    lo < g.1 → g.1 ≤ g.2 → Gaps g.2 hi gs → Gaps lo hi (g :: gs)

theorem exists_first (lo hi : Nat) (gs : List (Nat × Nat)) : ∃ q, (lo, q) ∈ between lo hi gs := by
  cases gs with
  | nil => exact ⟨hi, List.mem_singleton.2 rfl⟩
  | cons g gs => exact ⟨g.1, List.mem_cons_self⟩

theorem between_cons (start stop : Nat) (g : Nat × Nat) (gs : List (Nat × Nat)) :
    between start stop (g :: gs) = (start, g.1) :: between g.2 stop gs := rfl

theorem exists_last (lo hi : Nat) (gs : List (Nat × Nat)) : ∃ p, (p, hi) ∈ between lo hi gs := by
  induction gs generalizing lo with
  | nil => exact ⟨lo, List.mem_singleton.2 rfl⟩
  | cons g gs ih =>
    obtain ⟨p, hp⟩ := ih g.2
    exact ⟨p, List.mem_cons_of_mem _ hp⟩

namespace Gaps

variable {lo hi : Nat} {gs : List (Nat × Nat)}

theorem lt (h : Gaps lo hi gs) : lo < hi := by
  induction h with
  | nil hlt => exact hlt
  | cons hlt hle _ ih => omega

theorem lt_of_mem (h : Gaps lo hi gs) {g : Nat × Nat} (hg : g ∈ gs) : lo < g.1 ∧ g.2 < hi := by
  induction h with
  | nil _ => cases hg
  | cons hlt hle hgs ih =>
    rcases List.mem_cons.1 hg with rfl | hg
    · exact ⟨hlt, hgs.lt⟩
    · have := ih hg
      omega

/-- What is left over between gaps is not empty. -/
theorem lt_of_mem_between (h : Gaps lo hi gs) {part : Nat × Nat} (hpart : part ∈ between lo hi gs) :
    lo ≤ part.1 ∧ part.1 < part.2 := by
  induction h with
  | nil hlt =>
    rw [List.mem_singleton.1 hpart]
    exact ⟨Nat.le_refl _, hlt⟩
  | cons hlt hle hgs ih =>
    rcases List.mem_cons.1 hpart with rfl | hpart
    · exact ⟨Nat.le_refl _, hlt⟩
    · have := ih hpart
      omega

/-- An offset lies in a gap or in what is left over. -/
theorem exists_mem (h : Gaps lo hi gs) {p : Nat} (hlo : lo ≤ p) (hhi : p < hi) :
    (∃ g ∈ gs, g.1 ≤ p ∧ p < g.2) ∨ ∃ part ∈ between lo hi gs, part.1 ≤ p ∧ p < part.2 := by
  induction h with
  | nil _ => exact .inr ⟨_, List.mem_singleton.2 rfl, hlo, hhi⟩
  | @cons lo hi g gs hlt hle hgs ih =>
    rw [between_cons]
    by_cases hfirst : p < g.1
    · exact .inr ⟨_, List.mem_cons_self, hlo, hfirst⟩
    · by_cases hgap : p < g.2
      · exact .inl ⟨g, List.mem_cons_self, by omega, hgap⟩
      · rcases ih (by omega) hhi with ⟨g', hg', hin⟩ | ⟨part, hpart, hin⟩
        · exact .inl ⟨g', List.mem_cons_of_mem g hg', hin⟩
        · exact .inr ⟨part, List.mem_cons_of_mem _ hpart, hin⟩

/-- What is left over keeps clear of the gaps. -/
theorem apart (h : Gaps lo hi gs) {g part : Nat × Nat} (hg : g ∈ gs) (hpart : part ∈ between lo hi gs) :
    part.2 ≤ g.1 ∨ g.2 ≤ part.1 := by
  induction h with
  | nil _ => cases hg
  | cons hlt hle hgs ih =>
    rcases List.mem_cons.1 hg with rfl | hg <;> rcases List.mem_cons.1 hpart with rfl | hpart
    · exact .inl (Nat.le_refl _)
    · exact .inr (hgs.lt_of_mem_between hpart).1
    · have := hgs.lt_of_mem hg
      exact .inl (by omega)
    · exact ih hg hpart

end Gaps

end Cursor

/-! ## The lexemes of a place -/

open Cursor Node

theorem Form.ofKind?_ne_leaf {kind other : String} {named : Bool} :
    Form.ofKind? kind ≠ some (.leaf other named) := by
  unfold ofKind?
  split <;> simp

namespace Cursor

/-- A place without children as a lexeme. -/
def leaf (c : Cursor) : Lexeme := ⟨c.range.start, c.range.stop, .leaf c.kind c.named⟩

theorem lexemes_of_form {c : Cursor} {form : Form} (h : Form.ofKind? c.kind = some form) :
    c.node.lexemes = [⟨c.range.start, c.range.stop, form⟩] := by
  obtain ⟨⟨label, children⟩, trail⟩ := c
  rw [Node.lexemes.eq_def]
  simp only [show Form.ofKind? label.kind = some form from h]
  rfl

theorem lexemes_of_template {c : Cursor} (h : c.kind = "template_string") :
    c.node.lexemes =
      Node.templateLexemes c.range.start c.range.stop (c.children.map Cursor.node) := by
  rw [map_node_children]
  obtain ⟨⟨label, children⟩, trail⟩ := c
  have hkind : label.kind = "template_string" := h
  rw [Node.lexemes.eq_def]
  simp only [hkind, Form.ofKind?, if_true]
  rfl

theorem lexemes_of_leaf {c : Cursor} (hform : Form.ofKind? c.kind = none)
    (htemplate : c.kind ≠ "template_string") (h : c.children = []) : c.node.lexemes = [c.leaf] := by
  have hnodes := map_node_children c
  obtain ⟨⟨label, children⟩, trail⟩ := c
  rw [h] at hnodes
  obtain rfl : [] = children := hnodes
  rw [Node.lexemes.eq_def]
  simp only [show Form.ofKind? label.kind = none from hform,
    if_neg (show ¬label.kind = "template_string" from htemplate)]
  rfl

theorem lexemes_of_children {c : Cursor} (hform : Form.ofKind? c.kind = none)
    (htemplate : c.kind ≠ "template_string") (h : c.children ≠ []) :
    c.node.lexemes = c.children.flatMap fun d => d.node.lexemes := by
  have hnodes := map_node_children c
  rw [← List.flatMap_map, hnodes]
  obtain ⟨⟨label, children⟩, trail⟩ := c
  rw [Node.lexemes.eq_def]
  simp only [show Form.ofKind? label.kind = none from hform,
    if_neg (show ¬label.kind = "template_string" from htemplate)]
  cases children with
  | nil => exact absurd rfl h
  | cons n rest =>
    simp only [Node.lexemesAll_eq, ← List.flatMap_cons]
    rfl

/-! ## The lexemes of a template -/

variable {tree : Node} {c d e : Cursor}

theorem mem_substitutions : d ∈ c.substitutions ↔ d ∈ c.children ∧ d.kind = "template_substitution" := by
  simp [substitutions]

theorem mem_children_of_mem_substituted (h : e ∈ d.substituted) : e ∈ d.children :=
  List.mem_of_mem_tail ((List.dropLast_sublist _).subset h)

/-- The children of a substitution are its opening, what is substituted, and its closing. -/
theorem exists_gap (hlen : 2 ≤ d.children.length) :
    ∃ opener middle closer, d.children = opener :: (middle ++ [closer]) ∧
      d.gap = (opener.range.stop, closer.range.start) ∧ d.substituted = middle := by
  obtain ⟨opener, middle, closer, hc⟩ := Node.exists_ends hlen
  have hlast : d.children.getLast? = some closer := by
    rw [hc, ← List.cons_append, List.getLast?_concat]
  refine ⟨opener, middle, closer, hc, ?_, ?_⟩
  · rw [gap, hlast, hc]
    rfl
  · rw [substituted, hc, List.tail_cons, List.dropLast_concat]

theorem templateLexemes_substitution (hparts : 2 ≤ d.children.length)
    (hkind : d.kind = "template_substitution") (start stop : Nat) (ds : List Cursor) :
    Node.templateLexemes start stop ((d :: ds).map Cursor.node) =
      ⟨start, d.gap.1, .templatePart⟩ :: ((d.substituted.flatMap fun e => e.node.lexemes) ++
        Node.templateLexemes d.gap.2 stop (ds.map Cursor.node)) := by
  obtain ⟨opener, middle, closer, hc, hgap, hmiddle⟩ := exists_gap hparts
  rw [List.map_cons, Node.templateLexemes_of_eq hkind (Node.parts_eq hc), hmiddle, hgap,
    List.flatMap_map]
  rfl

theorem infix_flatMap {ds : List Cursor} (hd : d ∈ ds) :
    d.node.lexemes <:+: ds.flatMap fun e => e.node.lexemes := by
  obtain ⟨before, after, rfl⟩ := List.append_of_mem hd
  rw [List.flatMap_append, List.flatMap_cons]
  exact ⟨_, _, List.append_assoc _ _ _⟩

/-- A template is its parts and what is substituted. -/
theorem mem_templateLexemes_iff {ds : List Cursor} {start stop : Nat} {x : Lexeme}
    (hparts : ∀ d ∈ ds, d.kind = "template_substitution" → 2 ≤ d.children.length) :
    x ∈ Node.templateLexemes start stop (ds.map Cursor.node) ↔
      (x.form = .templatePart ∧ (x.start, x.stop) ∈ between start stop
        ((ds.filter fun d => d.kind = "template_substitution").map gap)) ∨
      ∃ d ∈ ds, d.kind = "template_substitution" ∧ ∃ e ∈ d.substituted, x ∈ e.node.lexemes := by
  induction ds generalizing start with
  | nil =>
    obtain ⟨p, q, form⟩ := x
    simp only [List.map_nil, Node.templateLexemes, List.mem_singleton, Lexeme.mk.injEq,
      List.filter_nil, between, List.zip_cons_cons, List.nil_append, List.zip_nil_left,
      Prod.mk.injEq, List.not_mem_nil, false_and, exists_false, or_false]
    constructor
    · rintro ⟨hp, hq, hform⟩
      exact ⟨hform, hp, hq⟩
    · rintro ⟨hform, hp, hq⟩
      exact ⟨hp, hq, hform⟩
  | cons d ds ih =>
    have ih := fun start => @ih start fun e he => hparts e (List.mem_cons_of_mem d he)
    by_cases hkind : d.kind = "template_substitution"
    · rw [templateLexemes_substitution (hparts d List.mem_cons_self hkind) hkind, List.mem_cons,
        List.mem_append, ih, List.filter_cons_of_pos (by simpa using hkind), List.map_cons, between_cons,
        List.mem_cons, List.mem_flatMap]
      obtain ⟨p, q, form⟩ := x
      simp only [Lexeme.mk.injEq, Prod.mk.injEq, List.mem_cons, exists_eq_or_imp, hkind, true_and,
        and_or_left, or_assoc]
      exact or_congr (and_rotate.trans and_rotate) or_left_comm
    · rw [List.map_cons, Node.templateLexemes_of_ne hkind, ih,
        List.filter_cons_of_neg (by simpa using hkind)]
      simp only [List.mem_cons, exists_eq_or_imp, hkind, false_and, false_or]

theorem mem_lexemes_of_template (hsub : tree.Substituted) (hc : c ∈ tree.preorder)
    (htemplate : c.kind = "template_string") {x : Lexeme} :
    x ∈ c.node.lexemes ↔ (x.form = .templatePart ∧ (x.start, x.stop) ∈ c.literalParts) ∨
      ∃ d ∈ c.substitutions, ∃ e ∈ d.substituted, x ∈ e.node.lexemes := by
  rw [lexemes_of_template htemplate, mem_templateLexemes_iff fun d hd =>
    hsub d (mem_preorder_of_child hc hd)]
  simp only [mem_substitutions, and_assoc]
  rfl

/-- What is substituted is cut as if it stood alone. -/
theorem infix_templateLexemes {ds : List Cursor}
    (hparts : ∀ d ∈ ds, d.kind = "template_substitution" → 2 ≤ d.children.length) (hd : d ∈ ds)
    (hkind : d.kind = "template_substitution") (he : e ∈ d.substituted) (start stop : Nat) :
    e.node.lexemes <:+: Node.templateLexemes start stop (ds.map Cursor.node) := by
  induction ds generalizing start with
  | nil => cases hd
  | cons f ds ih =>
    have ih := fun hd => ih (fun g hg => hparts g (List.mem_cons_of_mem f hg)) hd
    by_cases hf : f.kind = "template_substitution"
    · rw [templateLexemes_substitution (hparts f List.mem_cons_self hf) hf]
      refine .trans ?_ (List.suffix_cons _ _).isInfix
      rcases List.mem_cons.1 hd with rfl | hd
      · exact (infix_flatMap he).trans (List.prefix_append _ _).isInfix
      · exact (ih hd _).trans (List.suffix_append _ _).isInfix
    · rw [List.map_cons, Node.templateLexemes_of_ne hf]
      rcases List.mem_cons.1 hd with rfl | hd
      · exact absurd hkind hf
      · exact ih hd start

/-! ## Where lexemes come from -/

/-- A lexeme is a node that is a token of its own, a leaf, or a part of a template. -/
theorem origin (hsub : tree.Substituted) (hc : c ∈ tree.preorder) {x : Lexeme}
    (hx : x ∈ c.node.lexemes) : ∃ e, Reaches c e ∧
      ((Form.ofKind? e.kind = some x.form ∧ x.start = e.range.start ∧ x.stop = e.range.stop) ∨
        (e.children = [] ∧ x = e.leaf) ∨
        (e.kind = "template_string" ∧ x.form = .templatePart ∧
          (x.start, x.stop) ∈ e.literalParts)) := by
  induction hn : c.node.size using Nat.strongRecOn generalizing c with
  | _ n ih =>
    by_cases htemplate : c.kind = "template_string"
    · rw [mem_lexemes_of_template hsub hc htemplate] at hx
      rcases hx with ⟨hform, hpart⟩ | ⟨d, hd, e, he, hx⟩
      · exact ⟨c, .refl c, .inr (.inr ⟨htemplate, hform, hpart⟩)⟩
      · have hd := (mem_substitutions.1 hd).1
        have hed := mem_children_of_mem_substituted he
        have hlt := Nat.lt_trans (size_lt_of_mem_children hed) (size_lt_of_mem_children hd)
        obtain ⟨f, hef, horigin⟩ := ih _ (hn ▸ hlt)
          (mem_preorder_of_child (mem_preorder_of_child hc hd) hed) hx rfl
        exact ⟨f, (Reaches.child hd).trans ((Reaches.child hed).trans hef), horigin⟩
    · cases hform : Form.ofKind? c.kind with
      | some form =>
        rw [lexemes_of_form hform, List.mem_singleton] at hx
        exact ⟨c, .refl c, .inl (by rw [hx]; exact ⟨hform, rfl, rfl⟩)⟩
      | none =>
        by_cases hchildren : c.children = []
        · rw [lexemes_of_leaf hform htemplate hchildren, List.mem_singleton] at hx
          exact ⟨c, .refl c, .inr (.inl ⟨hchildren, hx⟩)⟩
        · rw [lexemes_of_children hform htemplate hchildren, List.mem_flatMap] at hx
          obtain ⟨d, hd, hx⟩ := hx
          obtain ⟨f, hdf, horigin⟩ := ih _ (hn ▸ size_lt_of_mem_children hd)
            (mem_preorder_of_child hc hd) hx rfl
          exact ⟨f, (Reaches.child hd).trans hdf, horigin⟩

/-! ## Leaves -/

/-- The gap of a substitution lies in its range. -/
theorem gap_spec (h : tree.Nested) (hd : d ∈ tree.preorder) (hlen : 2 ≤ d.children.length) :
    d.range.start ≤ d.gap.1 ∧ d.gap.1 ≤ d.gap.2 ∧ d.gap.2 ≤ d.range.stop := by
  obtain ⟨opener, middle, closer, hc, hgap, -⟩ := exists_gap hlen
  have hpair := h.ordered d hd
  rw [hc] at hpair
  have hle := (List.pairwise_cons.1 hpair).1 closer (by simp)
  have hopener := h.inside d hd opener (by simp [hc])
  have hcloser := h.inside d hd closer (by simp [hc])
  have := opener.range.start_le_stop
  have := closer.range.start_le_stop
  rw [hgap]
  dsimp only
  omega

/-- What is below a child of a place is apart from its other children. -/
theorem reaches_child_or_apart (h : tree.Nested) {f : Cursor} (hc : c ∈ tree.preorder) (hd : d ∈ c.children)
    (hf : f ∈ c.children) (hfe : Reaches f e) :
    Reaches d e ∨ e.range.stop ≤ d.range.start ∨ d.range.stop ≤ e.range.start := by
  by_cases hdf : d = f
  · exact .inl (hdf ▸ hfe)
  · have hor := h.child_apart hc hd hf hdf
    have hle := h.range_le (mem_preorder_of_child hc hf) hfe
    exact .inr (by omega)

/-- Places that lie in a lexeme: their own, or one that hides what is below its node. -/
def Covers (x : Lexeme) (e : Cursor) : Prop :=
  x.start ≤ e.range.start ∧ e.range.stop ≤ x.stop ∧
    (x = e.leaf ∨ ∀ kind named, x.form ≠ .leaf kind named)

/-- A leaf below a template, or between what is below, is in a part or in something substituted. -/
theorem exists_covers_template (h : tree.Nested) {ds : List Cursor} {start stop : Nat}
    (hds : ∀ d ∈ ds, d ∈ tree.preorder)
    (hparts : ∀ d ∈ ds, d.kind = "template_substitution" → 2 ≤ d.children.length)
    (hlex : ∀ d ∈ ds, ∀ f ∈ d.substituted, Reaches f e → ∃ x ∈ f.node.lexemes, Covers x e)
    (hleaf : e.children = []) (hstart : start ≤ e.range.start) (hstop : e.range.stop ≤ stop)
    (hapart : ∀ d ∈ ds, Reaches d e ∨ e.range.stop ≤ d.range.start ∨ d.range.stop ≤ e.range.start) :
    ∃ x ∈ templateLexemes start stop (ds.map Cursor.node), Covers x e := by
  induction ds generalizing start with
  | nil => exact ⟨_, List.mem_singleton.2 rfl, hstart, hstop, .inr (by simp)⟩
  | cons d ds ih =>
    have ih := fun {start} => @ih start (fun f hf => hds f (List.mem_cons_of_mem d hf))
      (fun f hf => hparts f (List.mem_cons_of_mem d hf))
      (fun f hf => hlex f (List.mem_cons_of_mem d hf))
    have hapart' := fun f hf => hapart f (List.mem_cons_of_mem d hf)
    by_cases hkind : d.kind = "template_substitution"
    · have hlen := hparts d List.mem_cons_self hkind
      obtain ⟨hd₁, hd₂, hd₃⟩ := gap_spec h (hds d List.mem_cons_self) hlen
      rw [templateLexemes_substitution hlen hkind]
      have hfirst : e.range.stop ≤ d.gap.1 → ∃ x ∈ (⟨start, d.gap.1, .templatePart⟩ : Lexeme) ::
          ((d.substituted.flatMap fun e => e.node.lexemes) ++
            templateLexemes d.gap.2 stop (ds.map Cursor.node)), Covers x e :=
        fun hle => ⟨_, List.mem_cons_self, hstart, hle, .inr (by simp)⟩
      have hlater : d.gap.2 ≤ e.range.start → ∃ x ∈ (⟨start, d.gap.1, .templatePart⟩ : Lexeme) ::
          ((d.substituted.flatMap fun e => e.node.lexemes) ++
            templateLexemes d.gap.2 stop (ds.map Cursor.node)), Covers x e := fun hle => by
        obtain ⟨x, hx, hcovers⟩ := ih hle hapart'
        exact ⟨x, List.mem_cons_of_mem _ (List.mem_append_right _ hx), hcovers⟩
      rcases hapart d List.mem_cons_self with hde | hbefore | hbehind
      · obtain ⟨opener, middle, closer, hc, hgap, hmiddle⟩ := exists_gap hlen
        have hmem : ∀ f ∈ opener :: (middle ++ [closer]), f ∈ tree.preorder := fun f hf =>
          mem_preorder_of_child (hds d List.mem_cons_self) (hc ▸ hf)
        rcases hde.cases_child with rfl | ⟨f, hf, hfe⟩
        · simp [hleaf] at hlen
        rw [hc] at hf
        have hle := h.range_le (hmem f hf) hfe
        rcases List.mem_cons.1 hf with rfl | hf
        · exact hfirst (by rw [hgap]; exact hle.2)
        rcases List.mem_append.1 hf with hf | hf
        · rw [← hmiddle] at hf
          obtain ⟨x, hx, hcovers⟩ := hlex d List.mem_cons_self f hf hfe
          exact ⟨x, List.mem_cons_of_mem _ (List.mem_append_left _ (List.mem_flatMap.2 ⟨f, hf, hx⟩)),
            hcovers⟩
        · rw [List.mem_singleton.1 hf] at hle
          exact hlater (by rw [hgap]; exact hle.1)
      · exact hfirst (by omega)
      · exact hlater (by omega)
    · rw [List.map_cons, templateLexemes_of_ne hkind]
      exact ih hstart hapart'

theorem exists_covers (h : tree.Nested) (hsub : tree.Substituted) (hc : c ∈ tree.preorder)
    (hce : Reaches c e) (hleaf : e.children = []) : ∃ x ∈ c.node.lexemes, Covers x e := by
  induction hn : c.node.size using Nat.strongRecOn generalizing c with
  | _ n ih =>
    have hrange := h.range_le hc hce
    by_cases htemplate : c.kind = "template_string"
    · rw [lexemes_of_template htemplate]
      refine exists_covers_template h (fun d hd => mem_preorder_of_child hc hd)
        (fun d hd => hsub d (mem_preorder_of_child hc hd)) (fun d hd f hf hfe => ?_) hleaf hrange.1
        hrange.2 fun d hd => ?_
      · have hfd := mem_children_of_mem_substituted hf
        have hlt := Nat.lt_trans (size_lt_of_mem_children hfd) (size_lt_of_mem_children hd)
        exact ih _ (hn ▸ hlt) (mem_preorder_of_child (mem_preorder_of_child hc hd) hfd) hfe rfl
      · rcases hce.cases_child with rfl | ⟨f, hf, hfe⟩
        · simp [hleaf] at hd
        · exact reaches_child_or_apart h hc hd hf hfe
    · cases hform : Form.ofKind? c.kind with
      | some form =>
        refine ⟨_, by rw [lexemes_of_form hform]; exact List.mem_singleton.2 rfl, hrange.1, hrange.2,
          .inr fun kind named heq => Form.ofKind?_ne_leaf (hform.trans (congrArg some heq))⟩
      | none =>
        rcases hce.cases_child with rfl | ⟨d, hd, hde⟩
        · exact ⟨c.leaf, by rw [lexemes_of_leaf hform htemplate hleaf]; exact List.mem_singleton.2 rfl,
            Nat.le_refl _, Nat.le_refl _, .inl rfl⟩
        · obtain ⟨x, hx, hcovers⟩ := ih _ (hn ▸ size_lt_of_mem_children hd)
            (mem_preorder_of_child hc hd) hde rfl
          rw [lexemes_of_children hform htemplate (List.ne_nil_of_mem hd)]
          exact ⟨x, List.mem_flatMap.2 ⟨d, hd, hx⟩, hcovers⟩

end Cursor

end Indentation
