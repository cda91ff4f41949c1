import Indentation.Proofs.Construct.Within
import Indentation.Proofs.Layout.Parens

/-!
# Where containers put what they hold

A statement, a member or a case is put in from a token that its container begins with.  The container
writes this when a walk enters it.
-/

namespace Indentation

open Cursor TokenStream

namespace Cursor

/-- The first place is a list of statements, members or cases, or the second one has the part of a
body. -/
def IsHeld (c d : Cursor) : Prop :=
  c.kind ∈ ["program", "statement_block", "class_body", "switch_body", "switch_case",
      "switch_default", "else_clause"] ∨
    d.node.label.field ∈ [some "body", some "consequence", some "alternative"]

instance (c d : Cursor) : Decidable (IsHeld c d) := inferInstanceAs (Decidable (_ ∨ _))

/-- A node that stands between the braces of another one, or behind its header. -/
def Holds (c d : Cursor) : Prop := d ∈ c.properChildren ∧ IsHeld c d

theorem Holds.mem_children {c d : Cursor} (h : c.Holds d) : d ∈ c.children :=
  mem_children_of_mem_properChildren h.1

theorem Holds.named {c d : Cursor} (h : c.Holds d) : d.named = true := by
  have := h.1
  simp only [properChildren, namedChildren, List.mem_filter] at this
  exact this.1.2

theorem holds_of_fieldChild? {c d : Cursor} {field : String} (h : c.fieldChild? field = some d)
    (hd : d ∈ c.properChildren) (hfield : field ∈ ["body", "consequence", "alternative"]) :
    c.Holds d := by
  have hlabel : d.node.label.field = some field := by simpa using List.find?_some h
  refine ⟨hd, .inr ?_⟩
  rw [hlabel]
  simpa using hfield

end Cursor

/-- Every pair of parentheses is in a node with both of them. -/
def Parens.Balanced (s : TokenStream) (tree : Node) : Prop :=
  ∀ c ∈ tree.preorder, c.named = true → ∀ p ∈ Parens.pairs s,
    (s.CodeIn c.range p.1 ↔ s.CodeIn c.range p.2)

/-- The tokens of a place around what it holds. -/
structure Body.Framed (s : TokenStream) (c : Cursor) : Prop where
  /-- Only a program has nothing before its statements. -/
  begins : c.kind ≠ "program" → ∀ d, c.Holds d → ∀ first, s.firstOf? c = some first →
    ∀ t, s.CodeIn d.range t → first < t
  /-- A brace closes a list of statements. -/
  ends : c.kind ∈ ["statement_block", "class_body", "switch_body"] → ∀ d, c.Holds d →
    ∀ last, s.lastOf? c = some last → ∀ t, s.CodeIn d.range t → t < last
  /-- The parentheses of a header close before what follows it. -/
  header : ∀ d, c.Holds d → ∀ p ∈ Parens.pairs s, s.CodeIn c.range p.1 → s.CodeIn c.range p.2 →
    ¬s.CodeIn d.range p.1 → ¬s.CodeIn d.range p.2 →
      ∀ t, s.CodeIn d.range t → ¬(p.1 < t ∧ t < p.2)

namespace Construct

/-- Operators, substitutions and initial values stand between tokens of their place. -/
structure Whole (s : TokenStream) (c : Cursor) : Prop where
  operand : ofPlace? c = some .binary → ∀ after,
    (Operation.operatorStart? s c).bind s.nextCode? = some after →
      s.CodeIn c.range after ∧ ∃ i < after, s.CodeIn c.range i
  part : ofPlace? c = some .template → ∀ part, s.startOf? c = some part →
    ∀ d ∈ Operation.substitutions c, ∀ next, Operation.closing? s d = some next →
      part < next ∧ s.CodeIn c.range part ∧ s.CodeIn c.range next
  value : ofPlace? c = some .declarator → ∀ value, c.fieldChild? "value" = some value →
    ∀ t, s.CodeIn value.range t → ∃ i < t, s.CodeIn c.range i

variable {s : TokenStream} {tree : Node} {c : Cursor} {P : Nat → Prop}

/-- In a whole place only tokens behind the first one are written. -/
theorem Whole.covers (h : Whole s c) (hs : s.Ordered) (hn : tree.Nested) (hc : c ∈ tree.preorder)
    (hP : s.Tail c.range P)
    (hbrace : ofPlace? c = some .block → ∀ i, s.firstOf? c = some i → s.leads i = false → P i) :
    Covers s c P where
  brace := hbrace
  operand hk after hafter := by
    obtain ⟨hin, i, hlt, hi⟩ := h.operand hk after hafter
    exact hP i after after hi hin hlt (Nat.le_refl _)
  part hk part hpart d hd next hnext t hle hor := by
    obtain ⟨hlt, hin, hin'⟩ := h.part hk part hpart d hd next hnext
    refine hP part next t hin hin' ?_ hle
    rcases hor with hor | rfl
    · exact hor
    · exact hlt
  value hk value hvalue span hspan t hfirst hlast := by
    obtain ⟨hf, hl, -, -⟩ := spanOfNode?_spec hs hspan
    have hbare := hn.range_le (Node.mem_preorder_of_child hc (mem_children_of_fieldChild hvalue))
      (reaches_bare value)
    have hrange := hn.range_le hc (reaches_bare_of_fieldChild? hvalue)
    obtain ⟨i, hlt, hi⟩ := h.value hk value hvalue _ (hf.mono hbare.1 hbare.2)
    exact hP i span.last t hi (hl.mono hrange.1 hrange.2) (by omega) hlast

/-- A tree in the order of the grammar, whose parentheses balance. -/
structure Grammatical (s : TokenStream) (tree : Node) : Prop where
  inOrder : ∀ c ∈ tree.preorder, InOrder s c
  whole : ∀ c ∈ tree.preorder, Whole s c
  framed : ∀ c ∈ tree.preorder, Body.Framed s c
  balanced : Parens.Balanced s tree

/-- Nothing between a place and one above it is a construct. -/
def Adjoins (c d : Cursor) : Prop :=
  Reaches c d ∧ ∀ e, Reaches e d → e ≠ d → Reaches e c ∨ ofPlace? e = none

theorem adjoins_child {c d : Cursor} (h : d ∈ c.children) : Adjoins c d :=
  ⟨.child h, fun _ he hne => .inl (he.to_parent hne h)⟩

theorem Adjoins.child {c d e : Cursor} (h : Adjoins c d) (hd : ofPlace? d = none) (he : e ∈ d.children) :
    Adjoins c e := by
  refine ⟨h.1.trans (.child he), fun f hf hne => ?_⟩
  by_cases hfd : f = d
  · exact .inr (hfd ▸ hd)
  · exact h.2 f (hf.to_parent hne he) hfd

end Construct

/-- Parentheses that open in a place and close behind a token of another one open there as well. -/
def Parens.Sheltered (s : TokenStream) (c d : Cursor) : Prop :=
  ∀ p ∈ Parens.pairs s, s.CodeIn c.range p.1 → ∀ t, s.CodeIn d.range t → p.1 < t → t < p.2 →
    s.CodeIn d.range p.1

/-- A token of a place that parentheses which open in the place are neither around nor end with. -/
def Parens.Outside (s : TokenStream) (d : Cursor) (t : Nat) : Prop :=
  ∀ p ∈ Parens.pairs s, p.1 < t → t ≠ p.2 ∧ (t < p.2 → ¬s.CodeIn d.range p.1)

namespace Parens

variable {s : TokenStream} {tree : Node} {c d e : Cursor}

theorem Sheltered.trans (h : Sheltered s c d) (h' : Sheltered s d e)
    (hde : ∀ t, s.CodeIn e.range t → s.CodeIn d.range t) : Sheltered s c e :=
  fun p hp hc t ht hlt hgt => h' p hp (h p hp hc t (hde t ht) hlt hgt) t ht hlt hgt

theorem Balanced.sheltered (h : Balanced s tree) (hc : c ∈ tree.preorder) (hnamed : c.named = true)
    (hframed : Body.Framed s c) (hd : c.Holds d) : Sheltered s c d := by
  intro p hp hin t ht hlt hgt
  have hdt := Node.mem_preorder_of_child hc hd.mem_children
  by_contra hout
  exact hframed.header d hd p hp hin ((h c hc hnamed p hp).1 hin) hout
    (fun hout' => hout ((h d hdt hd.named p hp).2 hout')) t ht ⟨hlt, hgt⟩

end Parens

/-- A named node that stands behind the first token of another one, and outside the parentheses of
it. -/
structure Construct.Behind (s : TokenStream) (c d : Cursor) : Prop where
  reaches : Reaches c d
  named : d.named = true
  begins : ∀ a, s.firstOf? c = some a → ∀ t, s.CodeIn d.range t → a < t
  sheltered : Parens.Sheltered s c d

namespace Construct

variable {s : TokenStream} {tree : Node} {c d e : Cursor}

theorem behind_of_holds (hg : Grammatical s tree) (hc : c ∈ tree.preorder) (hnamed : c.named = true)
    (hkind : c.kind ≠ "program") (hd : c.Holds d) : Behind s c d where
  reaches := .child hd.mem_children
  named := hd.named
  begins := fun a ha t ht => (hg.framed c hc).begins hkind d hd a ha t ht
  sheltered := hg.balanced.sheltered hc hnamed (hg.framed c hc) hd

theorem Behind.trans (hn : tree.Nested) (hd : d ∈ tree.preorder) (h : Behind s c d)
    (h' : Behind s d e) : Behind s c e := by
  have hrange := hn.range_le hd h'.reaches
  have hin : ∀ t, s.CodeIn e.range t → s.CodeIn d.range t := fun t ht => ht.mono hrange.1 hrange.2
  exact ⟨h.reaches.trans h'.reaches, h'.named, fun a ha t ht => h.begins a ha t (hin t ht),
    h.sheltered.trans h'.sheltered hin⟩

theorem named_of_ofPlace? {k : Construct} (h : ofPlace? c = some k) :
    c.named = true ∧ c.kind ≠ "program" := by
  unfold ofPlace? at h
  split at h
  · next hnamed =>
    refine ⟨hnamed, fun hkind => ?_⟩
    rw [hkind] at h
    cases h
  · cases h

end Construct

/-- What container puts a place in, from the first token of which place, and by how many levels. -/
inductive Placed (o : IndentOptions) : Cursor → Cursor → Cursor → Nat → Prop
  | block {b d : Cursor} (hb : Construct.ofPlace? b = some .block) (hd : d ∈ b.properChildren) :
    Placed o b b d (Body.levels o b.owner?)
  | member {c body d : Cursor} (hc : Construct.ofPlace? c = some .classBody)
    (hbody : c.fieldChild? "body" = some body) (hproper : body ∈ c.properChildren)
    (hkind : body.kind = "class_body") (hd : d ∈ body.properChildren) : Placed o c c d 1
  | label {c body d : Cursor} (hc : Construct.ofPlace? c = some .switch)
    (hbody : c.fieldChild? "body" = some body) (hproper : body ∈ c.properChildren)
    (hkind : body.kind = "switch_body") (hd : d ∈ body.properChildren)
    (hcase : d.kind = "switch_case" ∨ d.kind = "switch_default") : Placed o c body d o.switchCase
  | statement {c body e d : Cursor} (hc : Construct.ofPlace? c = some .switch)
    (hbody : c.fieldChild? "body" = some body) (hproper : body ∈ c.properChildren)
    (hkind : body.kind = "switch_body") (he : e ∈ body.properChildren)
    (hcase : e.kind = "switch_case" ∨ e.kind = "switch_default")
    (hone : Body.holdsOneBlock e = false) (hd : d ∈ e.properChildren) : Placed o c e d 1
  | loop {c d : Cursor}
    (hc : Construct.ofPlace? c = some .loop ∨ Construct.ofPlace? c = some .forLoop)
    (hbody : c.fieldChild? "body" = some d) (hd : d ∈ c.properChildren)
    (hunbraced : d.kind ≠ "statement_block") : Placed o c c d 1
  | consequence {c d : Cursor} (hc : Construct.ofPlace? c = some .branch)
    (hbody : c.fieldChild? "consequence" = some d) (hd : d ∈ c.properChildren)
    (hunbraced : d.kind ≠ "statement_block") : Placed o c c d 1
  /-- An `else if` is the `if` behind the `else`. -/
  | alternative {c clause d : Cursor} (hc : Construct.ofPlace? c = some .branch)
    (hclause : c.fieldChild? "alternative" = some clause) (hproper : clause ∈ c.properChildren)
    (hkind : clause.kind = "else_clause") (hd : clause.properChildren.head? = some d)
    (hunbraced : d.kind ≠ "statement_block") (hif : d.kind ≠ "if_statement") : Placed o c c d 1

namespace Placed

open Construct

variable {s : TokenStream} {tree : Node} {o : IndentOptions} {w c d : Cursor} {n : Nat}

theorem exists_construct (h : Placed o w c d n) :
    ∃ k, ofPlace? w = some k ∧ k ≠ .declarator := by
  cases h with
  | block hb => exact ⟨_, hb, nofun⟩
  | member hc => exact ⟨_, hc, nofun⟩
  | label hc => exact ⟨_, hc, nofun⟩
  | statement hc => exact ⟨_, hc, nofun⟩
  | loop hc => rcases hc with hc | hc <;> exact ⟨_, hc, nofun⟩
  | consequence hc => exact ⟨_, hc, nofun⟩
  | alternative hc => exact ⟨_, hc, nofun⟩

/-- Only bodies, cases and the word `else` stand between a container and what it puts in. -/
theorem adjoins (h : Placed o w c d n) : Adjoins w d := by
  have hnone : ∀ e : Cursor, e.kind ∈ ["class_body", "switch_body", "switch_case", "switch_default",
      "else_clause"] → ofPlace? e = none := by
    intro e he
    rw [ofPlace?]
    split
    · simp only [List.mem_cons, List.not_mem_nil, or_false] at he
      rcases he with he | he | he | he | he <;> rw [he] <;> rfl
    · rfl
  have hproper := @mem_children_of_mem_properChildren
  cases h with
  | block _ hd => exact adjoins_child (hproper hd)
  | member _ hbody _ hkind hd =>
    exact (adjoins_child (mem_children_of_fieldChild hbody)).child (hnone _ (by simp [hkind])) (hproper hd)
  | label _ hbody _ hkind hd =>
    exact (adjoins_child (mem_children_of_fieldChild hbody)).child (hnone _ (by simp [hkind])) (hproper hd)
  | statement _ hbody _ hkind he hcase _ hd =>
    refine ((adjoins_child (mem_children_of_fieldChild hbody)).child (hnone _ (by simp [hkind]))
      (hproper he)).child (hnone _ ?_) (hproper hd)
    rcases hcase with hcase | hcase <;> simp [hcase]
  | loop _ hbody => exact adjoins_child (mem_children_of_fieldChild hbody)
  | consequence _ hbody => exact adjoins_child (mem_children_of_fieldChild hbody)
  | alternative _ hclause _ hkind hd =>
    exact (adjoins_child (mem_children_of_fieldChild hclause)).child (hnone _ (by simp [hkind]))
      (hproper (List.mem_of_head? hd))

/-- What a container puts in is behind the first token of the place that it is put in from. -/
theorem behind (h : Placed o w c d n) (hn : tree.Nested) (hg : Grammatical s tree)
    (hw : w ∈ tree.preorder) : Reaches w c ∧ Behind s c d := by
  obtain ⟨k, hk, -⟩ := h.exists_construct
  obtain ⟨hnamed, hprogram⟩ := named_of_ofPlace? hk
  have hfield : ∀ {e : Cursor} {field : String}, w.fieldChild? field = some e →
      e ∈ w.properChildren → field ∈ ["body", "consequence", "alternative"] →
        w.Holds e ∧ Behind s w e := fun he hproper hmem =>
    have hholds := holds_of_fieldChild? he hproper hmem
    ⟨hholds, behind_of_holds hg hw hnamed hprogram hholds⟩
  have hkind : ∀ {e f : Cursor}, e ∈ tree.preorder → e.named = true → f ∈ e.properChildren →
      e.kind ∈ ["statement_block", "class_body", "switch_body", "switch_case", "switch_default",
        "else_clause"] → Behind s e f := by
    intro e f he henamed hf hmem
    refine behind_of_holds hg he henamed (fun heq => ?_) ⟨hf, .inl (List.mem_cons_of_mem _ hmem)⟩
    rw [heq] at hmem
    exact absurd hmem (by decide)
  have hchild := fun {e : Cursor} (he : w.Holds e) => Node.mem_preorder_of_child hw he.mem_children
  cases h with
  | block hb hd =>
    exact ⟨.refl _, hkind hw hnamed hd (by simp [kind_of_ofPlace?_block hb])⟩
  | member _ hbody hproper hbodykind hd =>
    obtain ⟨hholds, hbehind⟩ := hfield hbody hproper (by simp)
    exact ⟨.refl _, hbehind.trans hn (hchild hholds)
      (hkind (hchild hholds) hholds.named hd (by simp [hbodykind]))⟩
  | label _ hbody hproper hbodykind hd =>
    obtain ⟨hholds, -⟩ := hfield hbody hproper (by simp)
    exact ⟨.child hholds.mem_children, hkind (hchild hholds) hholds.named hd (by simp [hbodykind])⟩
  | statement _ hbody hproper hbodykind he hcase _ hd =>
    obtain ⟨hholds, -⟩ := hfield hbody hproper (by simp)
    have heholds : Holds _ _ := ⟨he, .inl (by simp [hbodykind])⟩
    have het := Node.mem_preorder_of_child (hchild hholds) heholds.mem_children
    refine ⟨(Reaches.child hholds.mem_children).trans (.child heholds.mem_children),
      hkind het heholds.named hd ?_⟩
    rcases hcase with hcase | hcase <;> simp [hcase]
  | loop _ hbody hd => exact ⟨.refl _, (hfield hbody hd (by simp)).2⟩
  | consequence _ hbody hd => exact ⟨.refl _, (hfield hbody hd (by simp)).2⟩
  | alternative _ hclause hproper hclausekind hd =>
    obtain ⟨hholds, hbehind⟩ := hfield hclause hproper (by simp)
    exact ⟨.refl _, hbehind.trans hn (hchild hholds)
      (hkind (hchild hholds) hholds.named (List.mem_of_head? hd) (by simp [hclausekind]))⟩

end Placed

end Indentation
