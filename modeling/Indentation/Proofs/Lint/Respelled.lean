import Indentation.Proofs.Lint.Mirrored
import Indentation.Proofs.Token.Respelled

/-!
# Linting texts that spell words differently

The indentation rule does not read words.  Whatever the identifiers of a text are, and be they the names
of nodes or keywords, the constructs write the same graph, it is resolved to the same widths, and the
same lines are out of place.
-/

namespace Indentation

open Text

/-! ## Findings that stay where they are -/

theorem Edit.mapOffsets_id (e : Edit) : e.mapOffsets id = e := by
  rw [mapOffsets, Range.mapOffsets_id]

theorem Fix.mapOffsets_id (fix : Fix) : fix.mapOffsets id = fix := by
  rw [mapOffsets, List.map_congr_left (g := id) fun e _ => Edit.mapOffsets_id e, List.map_id]

theorem Violation.mapOffsets_id (v : Violation) : v.mapOffsets id = v := by
  obtain ⟨code, message, range, fix⟩ := v
  simp only [mapOffsets, Range.mapOffsets_id]
  cases fix with
  | none => rfl
  | some fix => rw [Option.map_some, Fix.mapOffsets_id]

theorem Finding.mapOffsets_id (found : Finding) : found.mapOffsets id = found := by
  rw [mapOffsets, Violation.mapOffsets_id]

variable {tree : Node} {source source' : Text}

/-- A broken text is broken at the same line and column. -/
theorem Linter.brokenAt_respelled (h : tree.Fits source) (hr : tree.Respelled source source') :
    brokenAt source' tree = brokenAt source tree := by
  obtain ⟨a, b, hab, hflaw, hout⟩ : ∃ a b, source = a ++ b ∧ tree.firstFlaw?.getD 0 = size a ∧
      tree.IsOutside (size a) := by
    rw [Node.firstFlaw?]
    cases hfirst : (Cursor.root tree).firstFlaw? with
    | none => exact ⟨[], source, rfl, rfl, fun p q _ hp => Nat.not_lt_zero p hp.1⟩
    | some c =>
      have hc := Node.mem_preorder_of_firstFlaw tree.mem_preorder_self hfirst
      obtain ⟨a, b, hab, hsize⟩ := cuts_iff.1 (h.cuts c hc).1
      exact ⟨a, b, hab, hsize.symm, hsize ▸ (h.toNested.isOutside hc).1⟩
  rw [brokenAt, brokenAt, hflaw, Lines.lineColumn_respelled hr.words hab hout]

namespace Node

/-- What the indentation rule and its linters make of two texts is the same. -/
structure SameIndentation (tree : Node) (source source' : Text) : Prop where
  /-- The constructs and the parentheses write the same, so the graphs have the same edges and exempt
  the same tokens, and the same widths and mismatches follow from them. -/
  rule : ∃ s s', TokenStream.ofTree source tree = .ok s ∧ TokenStream.ofTree source' tree = .ok s' ∧
    ∀ o : IndentOptions, Construct.writes s' o tree = Construct.writes s o tree ∧
      Parens.writes s' = Parens.writes s ∧
      IndentRule.graph o tree s' = IndentRule.graph o tree s ∧
      (IndentRule.graph o tree s').resolve s' o.indentChar =
        (IndentRule.graph o tree s).resolve s o.indentChar ∧
      IndentRule.mismatches o tree s' = IndentRule.mismatches o tree s
  /-- A linter finds the same. -/
  lint : ∀ l : Linter, l.Indents → ∀ round,
    l.lintTree round source' tree = l.lintTree round source tree
  /-- A pass makes the same edits. -/
  edits : ∀ l : Linter, l.Indents → ∀ round found found',
    l.lintTree round source tree = .ok found → l.lintTree round source' tree = .ok found' →
      ∀ level, Edit.select (Linter.wantedEdits level found') =
        Edit.select (Linter.wantedEdits level found)

/-- Indentation does not depend on how words are spelled. -/
theorem Respelled.sameIndentation (hr : tree.Respelled source source') (h : tree.Fits source) :
    tree.SameIndentation source source' := by
  obtain ⟨s, s', hs, hs', hcut, hcut', hmirrors⟩ := h.exists_mirrors_respelled hr
  have hlint : ∀ l : Linter, l.Indents → ∀ round,
      l.lintTree round source' tree = l.lintTree round source tree := by
    intro l hl round
    cases hclean : tree.tainted with
    | true => rw [Linter.lintTree, Linter.lintTree, hclean, if_pos rfl, if_pos rfl,
        Linter.brokenAt_respelled h hr]
    | false =>
      have hs'' := hs'
      rw [← mapOffsets_id tree] at hs''
      have hsame := Linter.lintTree_mirrored hmirrors hl hclean hs hs'' (fun rule i hi => by
        rw [Suppression.holds_respelled hr hcut hcut' hmirrors, hmirrors.start_eq hi, id]) round
      have hstay : List.map (Finding.mapOffsets id) = id :=
        funext fun found => List.map_id'' Finding.mapOffsets_id found
      rw [mapOffsets_id, hstay] at hsame
      rw [hsame]
      cases l.lintTree round source tree <;> rfl
  constructor
  · refine ⟨s, s', hs, hs', fun o => ?_⟩
    have hwrites : Construct.writes s' o (tree.mapOffsets id) = Construct.writes s o tree :=
      Construct.writes_eq hmirrors.parallels (fun c _ _ => hmirrors.startOf?_eq c)
        fun _ _ => hmirrors.column_eq
    have hgraph := IndentRule.graph_mirrored hmirrors o tree
    have hmismatches := IndentRule.mismatches_mirrored hmirrors o tree
    rw [mapOffsets_id] at hwrites hgraph hmismatches
    refine ⟨hwrites, IndentRule.parenWrites_eq hmirrors.parallels, hgraph, ?_, hmismatches⟩
    rw [hgraph, Graph.resolve_mirrored hmirrors]
  · exact hlint
  · intro l hl round found found' hfound hfound' level
    rw [hlint l hl round, hfound, Except.ok.injEq] at hfound'
    rw [hfound']

/-! ## A block around another name -/

/-- The name in the block of the small text is another one. -/
theorem respelled_sampleTree :
    IndentRule.sampleTree.Respelled IndentRule.sampleText ['{', '\n', 'b', '}'] where
  words := by
    have hleaf : IndentRule.sampleTree.IsLeafAt 2 (2 + Text.size ['a']) := by
      unfold IsLeafAt
      decide
    have hword : ∀ c, isWordChar c = true → IsWord [c] := fun c hc =>
      ⟨List.cons_ne_nil c [], fun d hd => by rwa [List.mem_singleton.1 hd]⟩
    exact .keep (.keep (.word hleaf (hword 'a' rfl) (hword 'b' rfl) rfl rfl (.keep .nil)))
  comments := by decide

theorem sameIndentation_sampleTree :
    IndentRule.sampleTree.SameIndentation IndentRule.sampleText ['{', '\n', 'b', '}'] :=
  respelled_sampleTree.sameIndentation IndentRule.fits_sampleTree

end Node

end Indentation
