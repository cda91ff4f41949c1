import Indentation.Proofs.Token.Leaves

/-!
# Literals

Strings, numbers, regular expressions, comments and the texts of elements are one token each, and a
template is cut as if it stood alone, however deep in other templates it is.  Its parts are tokens.  Each
of its own characters is in one of them, and between them are only tokens of what is substituted.
-/

namespace Indentation

open Cursor Node

namespace Cursor

/-- A node that is one token, or a template. -/
def IsLiteral (c : Cursor) : Prop := Form.ofKind? c.kind ≠ none ∨ c.kind = "template_string"

end Cursor

namespace Node

/-- What the grammar says of the nodes that are cut in their own way.  What is below a node that is one
token, or in the literal characters of a template, is no such node.  A substitution has an opening and
a closing brace at its ends. -/
structure Lexical (tree : Node) : Prop where
  atomic : ∀ c ∈ tree.preorder, Form.ofKind? c.kind ≠ none →
    ∀ d ∈ c.children, ∀ e ∈ d.preorder, ¬e.IsLiteral
  literal : ∀ c ∈ tree.preorder, c.kind = "template_string" →
    ∀ d ∈ c.children, d.kind ≠ "template_substitution" → ∀ e ∈ d.preorder, ¬e.IsLiteral
  opening : ∀ c ∈ tree.preorder, c.kind = "template_substitution" → ∃ d ∈ c.children.head?,
    d.kind = "$\x7b" ∧ d.children = [] ∧ d.range.start < d.range.stop
  closing : ∀ c ∈ tree.preorder, c.kind = "template_substitution" → ∃ d ∈ c.children.getLast?,
    d.kind = "\x7d" ∧ d.children = [] ∧ d.range.start < d.range.stop

end Node

namespace Node.Lexical

variable {tree : Node} (hlex : tree.Lexical)
include hlex

/-- A gap keeps clear of the ends of its substitution. -/
theorem gap_lt (h : tree.Nested) (hsub : tree.Substituted) {d : Cursor} (hd : d ∈ tree.preorder)
    (hkind : d.kind = "template_substitution") :
    d.range.start < d.gap.1 ∧ d.gap.1 ≤ d.gap.2 ∧ d.gap.2 < d.range.stop := by
  obtain ⟨opener, hopener, -, -, hopens⟩ := hlex.opening d hd hkind
  obtain ⟨closer, hcloser, -, -, hcloses⟩ := hlex.closing d hd hkind
  have hle := (gap_spec h hd (hsub d hd hkind)).2.1
  have h₁ := h.inside d hd opener (List.mem_of_mem_head? hopener)
  have h₂ := h.inside d hd closer (List.mem_of_mem_getLast? hcloser)
  rw [gap, hopener, hcloser] at hle ⊢
  simp only [Option.getD_some] at hle ⊢
  omega

end Node.Lexical

namespace Cursor

variable {tree : Node} {c d e : Cursor}

/-- A literal below a substitution is substituted. -/
theorem exists_substituted (hsub : tree.Substituted) (hlex : tree.Lexical) (hd : d ∈ tree.preorder)
    (hkind : d.kind = "template_substitution") (hde : Reaches d e) (he : e.IsLiteral) :
    ∃ f ∈ d.substituted, Reaches f e := by
  obtain ⟨opener, middle, closer, hc, -, hmiddle⟩ := exists_gap (hsub d hd hkind)
  have hlast : d.children.getLast? = some closer := by
    rw [hc, ← List.cons_append, List.getLast?_concat]
  -- the braces are leaves of a kind that is no literal
  have hbrace : ∀ {b : Cursor} {kind : String}, b.kind = kind → b.children = [] → Reaches b e →
      Form.ofKind? kind = none → kind ≠ "template_string" → False := by
    rintro b kind rfl hb hbe hform htemplate
    rcases hbe.cases_child with rfl | ⟨f, hf, -⟩
    · exact he.elim (fun h => h hform) htemplate
    · rw [hb] at hf
      cases hf
  rcases hde.cases_child with rfl | ⟨f, hf, hfe⟩
  · exact (he.elim (fun h => h (by rw [hkind]; rfl)) (by simp [hkind])).elim
  rw [hc] at hf
  rcases List.mem_cons.1 hf with rfl | hf
  · obtain ⟨b, hb, hbkind, hleaf, -⟩ := hlex.opening d hd hkind
    rw [hc, List.head?_cons, Option.mem_some_iff] at hb
    subst hb
    exact (hbrace hbkind hleaf hfe rfl (by decide)).elim
  rcases List.mem_append.1 hf with hf | hf
  · exact ⟨f, hmiddle ▸ hf, hfe⟩
  · obtain ⟨b, hb, hbkind, hleaf, -⟩ := hlex.closing d hd hkind
    rw [hlast, Option.mem_some_iff] at hb
    subst hb
    rw [List.mem_singleton.1 hf] at hfe
    exact (hbrace hbkind hleaf hfe rfl (by decide)).elim

/-- A literal is cut as if it stood alone. -/
theorem infix_lexemes (hsub : tree.Substituted) (hlex : tree.Lexical) (hc : c ∈ tree.preorder)
    (hce : Reaches c e) (he : e.IsLiteral) : e.node.lexemes <:+: c.node.lexemes := by
  induction hn : c.node.size using Nat.strongRecOn generalizing c with
  | _ n ih =>
    rcases hce.cases_child with rfl | ⟨d, hd, hde⟩
    · exact List.infix_rfl
    have hdt := mem_preorder_of_child hc hd
    by_cases htemplate : c.kind = "template_string"
    · have hkind : d.kind = "template_substitution" := by
        by_contra hkind
        exact hlex.literal c hc htemplate d hd hkind e (Cursor.mem_preorder_iff.2 hde) he
      obtain ⟨f, hf, hfe⟩ := exists_substituted hsub hlex hdt hkind hde he
      have hfd := mem_children_of_mem_substituted hf
      have hlt := Nat.lt_trans (size_lt_of_mem_children hfd) (size_lt_of_mem_children hd)
      rw [lexemes_of_template htemplate]
      exact (ih _ (hn ▸ hlt) (mem_preorder_of_child hdt hfd) hfe rfl).trans
        (infix_templateLexemes (fun g hg => hsub g (mem_preorder_of_child hc hg)) hd hkind hf _ _)
    · have hform : Form.ofKind? c.kind = none := by
        by_contra hform
        exact hlex.atomic c hc hform d hd e (Cursor.mem_preorder_iff.2 hde) he
      rw [lexemes_of_children hform htemplate (List.ne_nil_of_mem hd)]
      exact (ih _ (hn ▸ size_lt_of_mem_children hd) hdt hde rfl).trans (infix_flatMap hd)

/-- The gaps of a template follow each other, with something literal around each of them. -/
theorem gaps_of (h : tree.Nested) (hsub : tree.Substituted) (hlex : tree.Lexical) {ds : List Cursor}
    {lo hi : Nat} (hlt : lo < hi) (hds : ∀ d ∈ ds, d ∈ tree.preorder)
    (hkind : ∀ d ∈ ds, d.kind = "template_substitution")
    (hord : ds.Pairwise fun d e => d.range.stop ≤ e.range.start)
    (hin : ∀ d ∈ ds, lo ≤ d.range.start ∧ d.range.stop ≤ hi) : Gaps lo hi (ds.map gap) := by
  induction ds generalizing lo with
  | nil => exact .nil hlt
  | cons d ds ih =>
    obtain ⟨hd, hord⟩ := List.pairwise_cons.1 hord
    have hdin := hin d List.mem_cons_self
    obtain ⟨h₁, h₂, h₃⟩ := hlex.gap_lt h hsub (hds d List.mem_cons_self) (hkind d List.mem_cons_self)
    refine .cons (by omega) h₂ (ih (by omega) (fun e he => hds e (List.mem_cons_of_mem d he))
      (fun e he => hkind e (List.mem_cons_of_mem d he)) hord fun e he => ⟨?_, ?_⟩)
    · have := hd e he
      omega
    · exact (hin e (List.mem_cons_of_mem d he)).2

theorem gaps_template (h : tree.Nested) (hsub : tree.Substituted) (hlex : tree.Lexical)
    (hc : c ∈ tree.preorder) (hlt : c.range.start < c.range.stop) :
    Gaps c.range.start c.range.stop (c.substitutions.map gap) :=
  gaps_of h hsub hlex hlt (fun _ hd => mem_preorder_of_child hc (mem_substitutions.1 hd).1)
    (fun _ hd => (mem_substitutions.1 hd).2) ((h.ordered c hc).filter _)
    fun d hd => h.inside c hc d (mem_substitutions.1 hd).1

end Cursor

namespace TokenStream

/-- An offset that is in a token. -/
def At (s : TokenStream) (i p : Nat) : Prop :=
  i < s.size ∧ (s.token i).start ≤ p ∧ p < (s.token i).stop

/-- A stream that cuts all leaves of a tree. -/
structure Completes (s : TokenStream) (tree : Node) : Prop where
  start_lt_stop : ∀ i < s.size, (s.token i).start < (s.token i).stop
  start_lt_start : ∀ i j, i < j → j < s.size → (s.token i).start < (s.token j).start
  stop_le_start : ∀ i j, i < j → j < s.size → (s.token i).stop ≤ (s.token j).start
  /-- A leaf that has a character lies in one token. -/
  leaf : ∀ c ∈ tree.preorder, c.children = [] → c.range.start < c.range.stop →
    ∃! i, i < s.size ∧ (s.token i).start ≤ c.range.start ∧ c.range.stop ≤ (s.token i).stop
  /-- A string, a number, a regular expression, a comment or the text of an element is one token. -/
  atomic : ∀ c ∈ tree.preorder, ∀ form, Form.ofKind? c.kind = some form →
    c.range.start < c.range.stop →
      ∃ i < s.size, (s.token i).range = c.range ∧ (s.token i).kind = form.classify (s.token i).text
  /-- Each part of a template is a token. -/
  part : ∀ c ∈ tree.preorder, c.kind = "template_string" → c.range.start < c.range.stop →
    ∀ part ∈ c.literalParts, ∃ i < s.size,
      (s.token i).start = part.1 ∧ (s.token i).stop = part.2 ∧ (s.token i).kind = .template
  /-- A character of a template that is not in a gap is in one token, which is a part of the template. -/
  literal : ∀ c ∈ tree.preorder, c.kind = "template_string" → ∀ p, c.range.start ≤ p →
    p < c.range.stop → (∀ d ∈ c.substitutions, ¬(d.gap.1 ≤ p ∧ p < d.gap.2)) →
      ∃ i, s.At i p ∧ ((s.token i).start, (s.token i).stop) ∈ c.literalParts ∧ ∀ j, s.At j p → j = i
  /-- The tokens in a gap of a template are tokens of what is substituted there. -/
  substituted : ∀ c ∈ tree.preorder, c.kind = "template_string" → ∀ d ∈ c.substitutions, ∀ p,
    d.gap.1 ≤ p → p < d.gap.2 → ∀ i, s.At i p →
      ∃ e ∈ d.substituted, e.range.start ≤ (s.token i).start ∧ (s.token i).stop ≤ e.range.stop

theorem Ordered.at_unique {s : TokenStream} (h : s.Ordered) {i j p : Nat} (hi : s.At i p)
    (hj : s.At j p) : i = j := by
  by_contra hne
  obtain ⟨hi, hi₁, hi₂⟩ := hi
  obtain ⟨hj, hj₁, hj₂⟩ := hj
  rcases Nat.lt_or_gt_of_ne hne with hlt | hlt
  · have := h.stop_le_start i j hlt hj
    omega
  · have := h.stop_le_start j i hlt hi
    omega

end TokenStream

namespace Node

variable {source : Text} {tree : Node} {s : TokenStream}

/-- A lexeme of a literal is a token if it has a character. -/
theorem exists_token_of_literal (hcut : s.CutFrom source tree.pieces) (hsub : tree.Substituted)
    (hlex : tree.Lexical) {c : Cursor} (hc : c ∈ tree.preorder) (hliteral : c.IsLiteral) {x : Lexeme}
    (hx : x ∈ c.node.lexemes) (hlt : x.start < x.stop) :
    ∃ i < s.size, (s.token i).CutFrom source x :=
  hcut.exists_token (mem_pieces_iff.2 ⟨(infix_lexemes hsub hlex tree.mem_preorder_self
    (mem_preorder_iff.1 hc) hliteral).subset hx, by omega⟩)

/-- A token that shares a character with a literal is one of its lexemes. -/
theorem mem_lexemes_of_at (h : tree.Fits source) (hcut : s.CutFrom source tree.pieces)
    (hlex : tree.Lexical) {c : Cursor} (hc : c ∈ tree.preorder) (htemplate : c.kind = "template_string")
    {i p : Nat} (hstart : c.range.start ≤ p) (hstop : p < c.range.stop) (hi : s.At i p) :
    ∃ x ∈ c.node.lexemes, (s.token i).CutFrom source x := by
  have hmem := fun {x} => mem_lexemes_of_template h.substituted hc htemplate (x := x)
  obtain ⟨x, hx, hcuti⟩ := hcut.getElem_cut hi.1
  obtain ⟨before, after, hsplit⟩ :=
    infix_lexemes h.substituted hlex tree.mem_preorder_self (mem_preorder_iff.1 hc) (.inr htemplate)
  obtain ⟨hbefore, -, hafter⟩ := List.pairwise_append.1 (hsplit ▸ h.runs.pairwise)
  obtain ⟨-, -, hbefore⟩ := List.pairwise_append.1 hbefore
  obtain ⟨-, hxstart, hxstop⟩ := hi
  rw [hcuti.start_eq] at hxstart
  rw [hcuti.stop_eq] at hxstop
  have hx := (mem_pieces_iff.1 hx).1
  rw [← show before ++ c.node.lexemes ++ after = tree.lexemes from hsplit] at hx
  rcases List.mem_append.1 hx with hx | hx
  · rcases List.mem_append.1 hx with hx | hx
    · -- a lexeme before the first part ends before the template
      obtain ⟨q, hq⟩ := exists_first c.range.start c.range.stop (c.substitutions.map gap)
      have hle : x.stop ≤ c.range.start :=
        hbefore x hx ⟨c.range.start, q, .templatePart⟩ (hmem.2 (.inl ⟨rfl, hq⟩))
      omega
    · exact ⟨x, hx, hcuti⟩
  · obtain ⟨q, hq⟩ := exists_last c.range.start c.range.stop (c.substitutions.map gap)
    have hle : c.range.stop ≤ x.start := hafter ⟨q, c.range.stop, .templatePart⟩
      (List.mem_append_right _ (hmem.2 (.inl ⟨rfl, hq⟩))) x hx
    omega

/-- A leaf that has a character is in one token. -/
theorem existsUnique_token_of_leaf (h : tree.Fits source) (hcut : s.CutFrom source tree.pieces)
    (hordered : s.Ordered) {c : Cursor} (hc : c ∈ tree.preorder) (hleaf : c.children = [])
    (hlt : c.range.start < c.range.stop) :
    ∃! i, i < s.size ∧ (s.token i).start ≤ c.range.start ∧ c.range.stop ≤ (s.token i).stop := by
  obtain ⟨x, hx, hxstart, hxstop, -⟩ :=
    exists_covers h.toNested h.substituted tree.mem_preorder_self (mem_preorder_iff.1 hc) hleaf
  obtain ⟨i, hi, hcuti⟩ := hcut.exists_token (mem_pieces_iff.2 ⟨hx, by omega⟩)
  have hin : (s.token i).start ≤ c.range.start ∧ c.range.stop ≤ (s.token i).stop := by
    rw [hcuti.start_eq, hcuti.stop_eq]
    exact ⟨hxstart, hxstop⟩
  refine ⟨i, ⟨hi, hin⟩, fun j ⟨hj, hj₁, hj₂⟩ => ?_⟩
  exact hordered.at_unique ⟨hj, hj₁, by omega⟩ ⟨hi, hin.1, by omega⟩

/-- A part of a template is a token. -/
theorem exists_token_of_part (h : tree.Fits source) (hcut : s.CutFrom source tree.pieces)
    (hlex : tree.Lexical) {c : Cursor} (hc : c ∈ tree.preorder) (htemplate : c.kind = "template_string")
    (hlt : c.range.start < c.range.stop) {part : Nat × Nat} (hpart : part ∈ c.literalParts) :
    ∃ i < s.size, (s.token i).start = part.1 ∧ (s.token i).stop = part.2 ∧
      (s.token i).kind = .template := by
  have hpartlt := (gaps_template h.toNested h.substituted hlex hc hlt).lt_of_mem_between hpart
  have hx : (⟨part.1, part.2, .templatePart⟩ : Lexeme) ∈ c.node.lexemes :=
    (mem_lexemes_of_template h.substituted hc htemplate).2 (.inl ⟨rfl, hpart⟩)
  obtain ⟨i, hi, hcuti⟩ :=
    exists_token_of_literal hcut h.substituted hlex hc (.inr htemplate) hx hpartlt.2
  exact ⟨i, hi, hcuti.start_eq, hcuti.stop_eq, hcuti.kind_eq⟩

/-- A token that shares a character with a gap is a token of what is substituted there. -/
theorem exists_substituted_of_at (h : tree.Fits source) (hcut : s.CutFrom source tree.pieces)
    (hlex : tree.Lexical) {c d : Cursor} (hc : c ∈ tree.preorder)
    (htemplate : c.kind = "template_string") (hd : d ∈ c.substitutions) {i p : Nat}
    (hstart : d.gap.1 ≤ p) (hstop : p < d.gap.2) (hi : s.At i p) :
    ∃ e ∈ d.substituted, e.range.start ≤ (s.token i).start ∧ (s.token i).stop ≤ e.range.stop := by
  have hdc := mem_substitutions.1 hd
  have hlt := hlex.gap_lt h.toNested h.substituted (mem_preorder_of_child hc hdc.1) hdc.2
  have hinside := h.inside c hc d hdc.1
  obtain ⟨x, hx, hcuti⟩ :=
    mem_lexemes_of_at h hcut hlex hc htemplate (p := p) (by omega) (by omega) hi
  obtain ⟨-, hxstart, hxstop⟩ := hi
  rw [hcuti.start_eq] at hxstart
  rw [hcuti.stop_eq] at hxstop
  rcases (mem_lexemes_of_template h.substituted hc htemplate).1 hx with
    ⟨-, hpart⟩ | ⟨d', hd', e, he, hx⟩
  · -- parts keep clear of the gaps
    have := (gaps_template h.toNested h.substituted hlex hc (by omega)).apart
      (List.mem_map_of_mem hd) hpart
    dsimp only at this
    omega
  · have hdc' := mem_substitutions.1 hd'
    have hdt' := mem_preorder_of_child hc hdc'.1
    have hed := mem_children_of_mem_substituted he
    have hxe := (runs_lexemes h.toNested h.substituted (mem_preorder_of_child hdt' hed)).mem hx
    have hin := h.inside d' hdt' e hed
    obtain rfl : d' = d := h.child_eq hc hdc'.1 hdc.1 (Nat.lt_succ_self p)
      ⟨by omega, by omega⟩ ⟨by omega, by omega⟩
    rw [hcuti.start_eq, hcuti.stop_eq]
    exact ⟨e, he, hxe.1, hxe.2.2⟩

/-- The tokens of a tree that fits the text are all its leaves. -/
theorem Fits.exists_completes (h : tree.Fits source) (hlex : tree.Lexical) :
    ∃ s, TokenStream.ofTree source tree = .ok s ∧ s.Completes tree := by
  obtain ⟨s, hs, hcut, hlined⟩ := h.exists_ofTree
  refine ⟨s, hs, {
    start_lt_stop := hlined.start_lt_stop
    start_lt_start := fun i j hij hj => hlined.start_lt_start hij hj
    stop_le_start := hlined.stop_le_start
    leaf := fun c hc => existsUnique_token_of_leaf h hcut hlined.toOrdered hc
    atomic := fun c hc form hform hlt => ?_
    part := fun c hc htemplate hlt part => exists_token_of_part h hcut hlex hc htemplate hlt
    literal := fun c hc htemplate p hstart hstop hgap => ?_
    substituted := fun c hc htemplate d hd p hstart hstop i =>
      exists_substituted_of_at h hcut hlex hc htemplate hd hstart hstop }⟩
  · have hx : (⟨c.range.start, c.range.stop, form⟩ : Lexeme) ∈ c.node.lexemes := by
      rw [lexemes_of_form hform]
      exact List.mem_singleton.2 rfl
    obtain ⟨i, hi, hcuti⟩ :=
      exists_token_of_literal hcut h.substituted hlex hc (.inl (by simp [hform])) hx hlt
    exact ⟨i, hi, Range.ext hcuti.start_eq hcuti.stop_eq, hcuti.kind_eq⟩
  · have hlt := Nat.lt_of_le_of_lt hstart hstop
    obtain ⟨g, hg, hin⟩ | ⟨part, hpart, hin⟩ :=
      (gaps_template h.toNested h.substituted hlex hc hlt).exists_mem hstart hstop
    · obtain ⟨d, hd, rfl⟩ := List.mem_map.1 hg
      exact absurd hin (hgap d hd)
    · obtain ⟨i, hi, hi₁, hi₂, -⟩ := exists_token_of_part h hcut hlex hc htemplate hlt hpart
      have hat : s.At i p := ⟨hi, by omega, by omega⟩
      exact ⟨i, hat, by rw [hi₁, hi₂]; exact hpart, fun j hj => hlined.at_unique hj hat⟩

/-! ## A template in a template -/

/-- A name in a substitution of a template, in a substitution of another. -/
def nestedText : Text := "`$\x7b`$\x7ba\x7d`\x7d`".toList

/-- A template around a node, from an offset on. -/
def templateTree (start stop : Nat) (h : start + 4 ≤ stop) (inner : Node) : Node :=
  let leaf kind first last hle := Node.mk ⟨kind, ⟨first, last, hle⟩, false, false, false, false, false, none⟩ []
  .mk ⟨"template_string", ⟨start, stop, by omega⟩, true, false, false, false, false, none⟩
    [leaf "`" start (start + 1) (by omega),
     .mk ⟨"template_substitution", ⟨start + 1, stop - 1, by omega⟩, true, false, false, false, false, none⟩
      [leaf "$\x7b" (start + 1) (start + 3) (by omega), inner, leaf "\x7d" (stop - 2) (stop - 1) (by omega)],
     leaf "`" (stop - 1) stop (by omega)]

def nestedTree : Node :=
  templateTree 0 11 (by decide) (templateTree 3 9 (by decide)
    (.mk ⟨"identifier", ⟨6, 7, by decide⟩, true, false, false, false, false, none⟩ []))

theorem fits_nestedTree : nestedTree.Fits nestedText where
  inside := by decide
  ordered := by decide
  substituted := by unfold Node.Substituted; decide
  cuts := by decide

theorem lexical_nestedTree : nestedTree.Lexical where
  atomic := by unfold Cursor.IsLiteral; decide
  literal := by unfold Cursor.IsLiteral; decide
  opening := by decide
  closing := by decide

theorem exists_completes_nestedTree :
    ∃ s, TokenStream.ofTree nestedText nestedTree = .ok s ∧ s.Completes nestedTree :=
  fits_nestedTree.exists_completes lexical_nestedTree

end Node

end Indentation
