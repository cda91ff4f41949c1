import Indentation.Proofs.Construct.Marks
import Indentation.Proofs.Construct.Placed

/-!
# Brackets

A node between brackets has a construct that writes where its second bracket stands: level with the
first one.  Only a block whose brace ends a line stands level with its owner instead, and then both of
its braces do.
-/

namespace Indentation

open Cursor TokenStream Construct

/-- A node between brackets, and the construct that says where the second one stands. -/
inductive Bracketed : Cursor → Cursor → Prop
  | literal {c : Cursor} (hc : ofPlace? c = some .array ∨ ofPlace? c = some .object ∨
      ofPlace? c = some .pattern) : Bracketed c c
  | block {c : Cursor} (hc : ofPlace? c = some .block) : Bracketed c c
  | classBody {c : Cursor} (hc : ofPlace? c = some .classBody) : Bracketed c c
  | exports {w c : Cursor} (hw : ofPlace? w = some .exports)
    (hc : c ∈ Sequence.properOfKind w "export_clause") : Bracketed w c
  | imports {w clause c : Cursor} (hw : ofPlace? w = some .imports)
    (hclause : clause ∈ Sequence.properOfKind w "import_clause")
    (hc : c ∈ Sequence.properOfKind clause "named_imports")
    (hne : Sequence.properOfKind c "import_specifier" ≠ []) : Bracketed w c
  | arguments {w c : Cursor} (hw : ofPlace? w = some .call ∨ ofPlace? w = some .new)
    (hc : w.fieldChild? "arguments" = some c) (hproper : c ∈ w.properChildren)
    (hkind : c.kind = "arguments") : Bracketed w c

/-- The brackets of a node that a construct writes. -/
structure Bracketed.Framed (s : TokenStream) (tree : Node) (w c : Cursor) : Prop where
  brackets : ∃ first last, s.firstOf? c = some first ∧ s.lastOf? c = some last ∧ first < last ∧
    (s.isPunctuator last [']'] = true ∨ s.isPunctuator last ['}'] = true ∨
      c.kind = "arguments" ∧ (first, last) ∈ Parens.pairs s)
  /-- No construct within has one of the brackets. -/
  within : ∀ d ∈ tree.preorder, Reaches w d → d ≠ w → (ofPlace? d).isSome →
    ∀ t, s.firstOf? c = some t ∨ s.lastOf? c = some t → ¬s.CodeIn d.range t
  /-- Arguments come last. -/
  arguments : c.kind = "arguments" → s.lastOf? w = s.lastOf? c
  clauses : (Sequence.properOfKind w "export_clause").length ≤ 1 ∧
    (Sequence.properOfKind w "import_clause").length ≤ 1 ∧
      ∀ clause ∈ Sequence.properOfKind w "import_clause",
        (Sequence.properOfKind clause "named_imports").length ≤ 1
  /-- The parentheses of a header are not around a block. -/
  sheltered : ofPlace? c = some .block → ∀ o, c.owner? = some o → Parens.Sheltered s o c

/-- A tree whose brackets stand where the grammar puts them. -/
structure Construct.Closed (s : TokenStream) (tree : Node) : Prop where
  punctuated : ∀ c ∈ tree.preorder, Punctuated s c
  framed : ∀ w ∈ tree.preorder, ∀ c, Bracketed w c → Bracketed.Framed s tree w c

namespace Bracketed

variable {w c : Cursor}

theorem exists_construct (h : Bracketed w c) : ∃ k, ofPlace? w = some k ∧ k ≠ .declarator := by
  cases h with
  | literal hc => rcases hc with hc | hc | hc <;> exact ⟨_, hc, nofun⟩
  | block hc => exact ⟨_, hc, nofun⟩
  | classBody hc => exact ⟨_, hc, nofun⟩
  | exports hw => exact ⟨_, hw, nofun⟩
  | imports hw => exact ⟨_, hw, nofun⟩
  | arguments hw => rcases hw with hw | hw <;> exact ⟨_, hw, nofun⟩

theorem mem_properChildren_of_mem_properOfKind {d : Cursor} {kind : String}
    (h : d ∈ Sequence.properOfKind c kind) : d ∈ c.properChildren :=
  (List.mem_filter.1 h).1

theorem reaches (h : Bracketed w c) : Reaches w c := by
  have hproper : ∀ {c d : Cursor}, d ∈ c.properChildren → Reaches c d := fun hd =>
    .child (mem_children_of_mem_properChildren hd)
  cases h with
  | literal _ | block _ | classBody _ => exact .refl _
  | exports _ hc => exact hproper (mem_properChildren_of_mem_properOfKind hc)
  | imports _ hclause hc =>
    exact (hproper (mem_properChildren_of_mem_properOfKind hclause)).trans
      (hproper (mem_properChildren_of_mem_properOfKind hc))
  | arguments _ _ hc => exact hproper hc

theorem named (h : Bracketed w c) : c.named = true := by
  cases h with
  | literal hc => rcases hc with hc | hc | hc <;> exact (named_of_ofPlace? hc).1
  | block hc => exact (named_of_ofPlace? hc).1
  | classBody hc => exact (named_of_ofPlace? hc).1
  | exports _ hc =>
    exact Sequence.named_of_mem_properChildren (mem_properChildren_of_mem_properOfKind hc)
  | imports _ _ hc =>
    exact Sequence.named_of_mem_properChildren (mem_properChildren_of_mem_properOfKind hc)
  | arguments _ _ hproper => exact Sequence.named_of_mem_properChildren hproper

end Bracketed

/-! ## What the second bracket is written to -/

variable {g : Graph} {s : TokenStream} {unit : Nat}

theorem Graph.edge_append_align {ws : List Write} {token anchor : Nat} (hne : anchor ≠ token)
    (hsize : token < g.size) :
    (g.writeAll s unit (ws ++ [.align token anchor])).edge token = ⟨some anchor, 0⟩ := by
  rw [Graph.writeAll_append]
  exact Graph.edge_align hne (by simpa using hsize)

theorem Sequence.edge_writes (span : Span) (hlt : span.first < span.last) (hsize : span.last < g.size)
    (elements : List (Option Cursor)) (offset : ListOffset) :
    (g.writeAll s unit (writes s span elements offset)).edge span.last = ⟨some span.first, 0⟩ :=
  Graph.edge_append_align (Nat.ne_of_lt hlt) hsize

/-- Both braces of a block stand level with its owner, or the second one with the first. -/
theorem Body.edge_blockWrites_braces {c : Cursor} {span : Span} (o : IndentOptions)
    (hspan : s.spanOfNode? c = some span) (hlt : span.first < span.last)
    (hsize : span.last < g.size) :
    (g.writeAll s unit (blockWrites s o c)).edge span.last = ⟨some span.first, 0⟩ ∨
      s.leads span.first = false ∧ ∃ anchor ≠ span.first, c.owner?.bind s.headOf? = some anchor ∧
        (anchor ≠ span.last → (g.writeAll s unit (blockWrites s o c)).edge span.first =
          ⟨some anchor, 0⟩ ∧
        (g.writeAll s unit (blockWrites s o c)).edge span.last = ⟨some anchor, 0⟩) := by
  simp only [blockWrites, hspan]
  generalize hanchor : (if s.leads span.first then span.first
    else (c.owner?.bind s.headOf?).getD span.first) = anchor
  by_cases hsame : anchor = span.first
  · left
    rw [← List.cons_append, hsame]
    exact Graph.edge_append_align (Nat.ne_of_lt hlt) hsize
  · right
    have hlead : s.leads span.first = false := by
      by_contra hlead
      rw [if_pos (by simpa using hlead)] at hanchor
      exact hsame hanchor.symm
    rw [if_neg (by simp [hlead])] at hanchor
    refine ⟨hlead, anchor, hsame, ?_, fun hne => ⟨?_, ?_⟩⟩
    · cases hhead : c.owner?.bind s.headOf? with
      | none =>
        rw [hhead] at hanchor
        exact absurd hanchor.symm hsame
      | some i =>
        rw [hhead] at hanchor
        exact congrArg some hanchor
    · rw [Graph.writeAll, List.foldl_cons, ← Graph.writeAll, Graph.edge_writeAll_of]
      · exact Graph.edge_align hsame (Nat.lt_trans hlt hsize)
      · intro w hw htouch
        rcases List.mem_append.1 hw with hw | hw
        · obtain ⟨t, ht, rfl⟩ := List.mem_map.1 hw
          exact htouch.2 rfl
        · rw [List.mem_singleton.1 hw] at htouch
          have := htouch.1
          omega
    · rw [← List.cons_append]
      exact Graph.edge_append_align hne hsize

theorem Body.edge_classWrites_last {c : Cursor} {span : Span} (hspan : s.spanOfNode? c = some span)
    (hlt : span.first < span.last) (hsize : span.last < g.size) :
    (g.writeAll s unit (classWrites s c)).edge span.last = ⟨some span.first, 0⟩ := by
  simp only [classWrites, hspan]
  exact Graph.edge_append_align (Nat.ne_of_lt hlt) hsize

theorem Callable.argumentWrites_of_arguments {c arguments : Cursor} {first last : Nat} {field : String}
    (offset : Option ListOffset) (hargs : c.fieldChild? "arguments" = some arguments)
    (hkind : arguments.kind = "arguments") (hfirst : s.firstOf? arguments = some first)
    (hlast : s.lastOf? c = some last) :
    argumentWrites s offset field c = ([.bracket first, .bracket last] ++
      openingWrite s field first c ++ Sequence.writes s ⟨first, last⟩
        (arguments.properChildren.map some) (offset.getD (.levels 1))) ++
      if offset.isNone then exemptStarts s (arguments.properChildren.map Cursor.bare) else [] := by
  simp only [argumentWrites, hargs, Option.bind_eq_bind, Option.bind_some, hkind, ne_eq,
    not_true_eq_false, if_false, hfirst, hlast, Option.pure_def, Option.getD_some]
  simp

theorem Callable.edge_argumentWrites {c arguments : Cursor} {first last : Nat} {field : String}
    (offset : Option ListOffset) (hargs : c.fieldChild? "arguments" = some arguments)
    (hkind : arguments.kind = "arguments") (hfirst : s.firstOf? arguments = some first)
    (hlast : s.lastOf? c = some last) (hlt : first < last) (hsize : last < g.size) :
    (g.writeAll s unit (argumentWrites s offset field c)).edge last = ⟨some first, 0⟩ := by
  rw [argumentWrites_of_arguments offset hargs hkind hfirst hlast, Graph.writeAll_append,
    Graph.edge_writeAll_of, Graph.writeAll_append]
  · exact Sequence.edge_writes ⟨first, last⟩ hlt (by simpa using hsize) _ _
  · intro w hw
    split at hw
    · obtain ⟨node, -, hw⟩ := List.mem_filterMap.1 hw
      obtain ⟨t, -, rfl⟩ := Option.map_eq_some_iff.1 hw
      exact id
    · exact absurd hw List.not_mem_nil

theorem head?_of_mem_of_length_le_one {α : Type} {xs : List α} {x : α} (hx : x ∈ xs)
    (hlength : xs.length ≤ 1) : xs.head? = some x := by
  obtain ⟨y, rfl⟩ := List.length_eq_one_iff.1
    (Nat.le_antisymm hlength (List.length_pos_iff.2 (List.ne_nil_of_mem hx)))
  rw [List.mem_singleton.1 hx]
  rfl

namespace Bracketed

/-- When a walk has entered the construct, the second bracket stands level with the first one, or both
stand level with the head of the owner. -/
theorem edge_enter {w c : Cursor} {tree : Node} {o : IndentOptions} (h : Bracketed w c)
    (hframed : Framed s tree w c) {k : Construct} (hk : ofPlace? w = some k)
    {first last : Nat} (hfirst : s.firstOf? c = some first) (hlast : s.lastOf? c = some last)
    (hlt : first < last) (hsize : last < g.size) :
    (g.writeAll s o.unit (enter s o w k)).edge last = ⟨some first, 0⟩ ∨
      (w = c ∧ ofPlace? c = some .block ∧ s.leads first = false ∧
        ∃ anchor ≠ first, c.owner?.bind s.headOf? = some anchor ∧ (anchor ≠ last →
          (g.writeAll s o.unit (enter s o w k)).edge first = ⟨some anchor, 0⟩ ∧
          (g.writeAll s o.unit (enter s o w k)).edge last = ⟨some anchor, 0⟩)) := by
  have hspan : s.spanOfNode? c = some ⟨first, last⟩ :=
    spanOf?_eq_some_iff.2 ⟨hfirst, hlast, Nat.le_of_lt hlt⟩
  have hsome : ∀ {k'}, ofPlace? w = some k' → k = k' := fun hk' => Option.some.inj (hk.symm.trans hk')
  obtain ⟨hexports, himports, hnamed⟩ := hframed.clauses
  cases h with
  | literal hc =>
    left
    rcases hc with hc | hc | hc
    all_goals
      obtain rfl := hsome hc
      simp only [enter, Sequence.ofLiteral, hspan]
      exact Sequence.edge_writes ⟨first, last⟩ hlt hsize _ _
  | block hc =>
    obtain rfl := hsome hc
    exact (Body.edge_blockWrites_braces o hspan hlt hsize).imp_right fun hright => ⟨rfl, hc, hright⟩
  | classBody hc =>
    obtain rfl := hsome hc
    exact .inl (Body.edge_classWrites_last hspan hlt hsize)
  | exports hw hc =>
    obtain rfl := hsome hw
    left
    simp only [enter, Sequence.ofExport, head?_of_mem_of_length_le_one hc hexports, hspan,
      Option.bind_eq_bind, Option.bind_some, Option.pure_def, Option.getD_some]
    exact Sequence.edge_writes ⟨first, last⟩ hlt hsize _ _
  | imports hw hclause hc hne =>
    obtain rfl := hsome hw
    left
    have hempty : (Sequence.properOfKind c "import_specifier").isEmpty = false := by
      simpa using hne
    simp only [enter, Sequence.ofImport, head?_of_mem_of_length_le_one hclause himports,
      head?_of_mem_of_length_le_one hc (hnamed _ hclause), hspan, hempty, Bool.false_eq_true,
      if_false, Option.bind_eq_bind, Option.bind_some, Option.pure_def, Option.getD_some]
    exact Sequence.edge_writes ⟨first, last⟩ hlt hsize _ _
  | arguments hw hc hproper hkind =>
    left
    have hlastw := (hframed.arguments hkind).trans hlast
    rcases hw with hw | hw
    all_goals
      obtain rfl := hsome hw
      exact Callable.edge_argumentWrites _ hc hkind hfirst hlastw hlt hsize

end Bracketed

end Indentation
