import Indentation.Proofs.Layout.Carried
import Indentation.Proofs.Lint.Findings
import Indentation.Proofs.Token.Mirrors

/-!
# Findings in two texts that look alike

The constructs write the same graph, it gives the same widths, and the same lines are not where they
should be.  So a linter says the same of both texts, at corresponding offsets.
-/

namespace Indentation

/-! ## Findings at corresponding offsets -/

def Edit.mapOffsets (f : Nat → Nat) (e : Edit) : Edit := ⟨e.range.mapOffsets f, e.content⟩

def Fix.mapOffsets (f : Nat → Nat) (fix : Fix) : Fix :=
  ⟨fix.edits.map (Edit.mapOffsets f), fix.applicability⟩

def Violation.mapOffsets (f : Nat → Nat) (v : Violation) : Violation :=
  { v with range := v.range.mapOffsets f, fix := v.fix.map (Fix.mapOffsets f) }

/-- The same finding at the corresponding offsets of another text. -/
def Finding.mapOffsets (f : Nat → Nat) (found : Finding) : Finding :=
  ⟨found.rule, found.violation.mapOffsets f⟩

theorem Edit.mapOffsets_replacement (f : Nat → Nat) (content : Text) (r : Range) :
    (Edit.replacement content r).mapOffsets f = Edit.replacement content (r.mapOffsets f) := by
  rw [replacement, replacement]
  split <;> rfl

theorem Finding.atMost_mapOffsets {f : Nat → Nat} (hf : StrictMono f) (a b : Finding) :
    (a.mapOffsets f).atMost (b.mapOffsets f) = a.atMost b := by
  have hstart : ∀ c : Finding, (c.mapOffsets f).start = f c.start := fun _ => rfl
  have hrule : ∀ c : Finding, (c.mapOffsets f).rule = c.rule := fun _ => rfl
  rw [atMost, atMost, hstart, hstart, hrule, hrule, Bool.eq_iff_iff]
  simp only [Bool.or_eq_true, Bool.and_eq_true, decide_eq_true_eq, beq_iff_eq, hf.lt_iff_lt,
    hf.injective.eq_iff]

theorem Linter.wantedEdits_mapOffsets (f : Nat → Nat) (level : Applicability) (found : List Finding) :
    wantedEdits level (found.map (Finding.mapOffsets f)) =
      (wantedEdits level found).map (Edit.mapOffsets f) := by
  have hfixes : (found.map (Finding.mapOffsets f)).filterMap (fun a => a.violation.fix) =
      (found.filterMap fun a => a.violation.fix).map (Fix.mapOffsets f) := by
    rw [List.filterMap_map, List.map_filterMap]
    rfl
  rw [wantedEdits, wantedEdits, hfixes, List.flatMap_map, List.map_flatMap]
  refine List.flatMap_congr fun fix _ => ?_
  have happlies : (fix.mapOffsets f).applies level = fix.applies level := rfl
  rw [happlies]
  split <;> rfl

/-! ## The indentation rule -/

open TokenStream

variable {f : Nat → Nat} {s s' : TokenStream} (h : s.Mirrors f s')
include h

theorem Graph.resolve_mirrored (c : IndentChar) (g : Graph) : g.resolve s' c = g.resolve s c :=
  resolve_congr h.parallels fun t _ => by rw [h.marginOf_eq]

theorem Mismatch.all_mirrored (c : IndentChar) (g : Graph) (widths : Array Nat) :
    all s' c g widths = all s c g widths := by
  have hfits : fits s' c widths = fits s c widths := by
    funext token other
    rw [fits, fits, h.marginOf_eq]
  have hmisplaced : isMisplaced s' c g widths = isMisplaced s c g widths := by
    funext token
    rw [isMisplaced, isMisplaced, h.parallels.leads_eq, hfits]
  have hstray : isStray s' c g widths = isStray s c g widths := by
    funext comment
    have hbefore : lineBefore? s' comment = lineBefore? s comment := by
      rw [lineBefore?, lineBefore?, h.parallels.prevCode?_eq, funext h.parallels.leaderOf_eq]
    have hafter : lineAfter? s' comment = lineAfter? s comment := by
      simp only [lineAfter?, h.parallels.prevCode?_eq, h.parallels.nextCode?_eq,
        h.parallels.firstCode?_eq, funext h.parallels.leaderOf_eq]
    rw [isStray, isStray, h.hasBlankMargin_eq, hbefore, hafter, hfits]
  have hof : of s' widths = of s widths := by
    funext token
    rw [of, of, h.marginOf_eq]
  rw [all, all, h.parallels.codeIds_eq, h.parallels.commentIds_eq, hmisplaced, hstray, hof]

namespace IndentRule

theorem graph_mirrored (o : IndentOptions) (tree : Node) :
    graph o (tree.mapOffsets f) s' = graph o tree s :=
  graph_mapOffsets h.parallels (fun _ _ => h.column_eq) fun c _ _ => h.startOf?_eq c

theorem mismatches_mirrored (o : IndentOptions) (tree : Node) :
    mismatches o (tree.mapOffsets f) s' = mismatches o tree s := by
  simp only [mismatches, graph_mirrored h, Graph.resolve_mirrored h, Mismatch.all_mirrored h]

theorem violation_mirrored (o : IndentOptions) {m : Mismatch} (hm : m.token < s.size) :
    violation o s' m = (violation o s m).mapOffsets f := by
  simp only [violation, Violation.mapOffsets, Fix.mapOffsets, h.range_eq _ hm, h.marginRange_eq _ hm,
    Option.map_some, List.map_cons, List.map_nil, Edit.mapOffsets_replacement]

theorem check_mirrored (o : IndentOptions) (tree : Node) {source source' : Text} {lines lines' : Lines} :
    check o ⟨source', lines', tree.mapOffsets f, s'⟩ =
      (check o ⟨source, lines, tree, s⟩).map (List.map (Violation.mapOffsets f)) := by
  rw [check, check, mismatches_mirrored h]
  cases hms : mismatches o tree s with
  | error cause => rfl
  | ok ms =>
    refine congrArg Except.ok ?_
    rw [List.map_map]
    refine List.map_congr_left fun m hm => ?_
    obtain ⟨g, widths, rfl⟩ := exists_all_of_mismatches hms
    obtain ⟨t, ht, rfl, -⟩ := Mismatch.mem_all.1 hm
    exact violation_mirrored h o ht

end IndentRule

/-! ## Linters -/

namespace Linter

theorem findings_mirrored {tree : Node} {source source' : Text} {lines lines' : Lines}
    {suppression suppression' : Suppression}
    (hholds : ∀ rule, ∀ i < s.size, suppression'.holds rule (s'.token i).start =
      suppression.holds rule (s.token i).start) (round : Nat) {active : ActiveRule} {o : IndentOptions}
    (ho : active.rule = IndentRule.rule o) :
    findings suppression' round ⟨source', lines', tree.mapOffsets f, s'⟩ active =
      (findings suppression round ⟨source, lines, tree, s⟩ active).map
        (List.map (Finding.mapOffsets f)) := by
  rw [findings_eq, findings_eq, ho]
  have hmirrored : IndentRule.check o ⟨source', lines', tree.mapOffsets f, s'⟩ =
      (IndentRule.check o ⟨source, lines, tree, s⟩).map _ := IndentRule.check_mirrored h o tree
  change (IndentRule.check o _).map _ = ((IndentRule.check o _).map _).map _
  rw [hmirrored]
  cases hcheck : IndentRule.check o ⟨source, lines, tree, s⟩ with
  | error e => rfl
  | ok violations =>
    refine congrArg Except.ok ?_
    dsimp only
    rw [List.filter_map, List.map_map, List.map_map]
    have hfilter : ∀ v ∈ violations,
        (!suppression'.holds (IndentRule.rule o).name.toList (v.mapOffsets f).range.start) =
          !suppression.holds (IndentRule.rule o).name.toList v.range.start := fun v hv => by
      obtain ⟨t, ht, hrange⟩ := IndentRule.exists_of_mem_check hcheck hv
      have hstart : (v.mapOffsets f).range.start = (s'.token t).start := by
        rw [h.start_eq ht, Token.start, ← hrange]
        rfl
      rw [hstart, hholds _ t ht, Token.start, ← hrange]
    rw [Function.comp_def (fun v : Violation => !suppression'.holds _ v.range.start),
      List.filter_congr hfilter]
    refine List.map_congr_left fun v _ => ?_
    cases active.keepsFixes <;> rfl

/-- A linter says the same of two texts that look alike. -/
theorem lintTree_mirrored {tree : Node} {source source' : Text} {l : Linter} (hl : l.Indents)
    (hclean : tree.tainted = false) (hs : TokenStream.ofTree source tree = .ok s)
    (hs' : TokenStream.ofTree source' (tree.mapOffsets f) = .ok s')
    (hholds : ∀ rule, ∀ i < s.size, (Suppression.ofTokens s').holds rule (s'.token i).start =
      (Suppression.ofTokens s).holds rule (s.token i).start) (round : Nat) :
    l.lintTree round source' (tree.mapOffsets f) =
      (l.lintTree round source tree).map (List.map (Finding.mapOffsets f)) := by
  rw [lintTree_eq hclean (IndentRule.document_of hs),
    lintTree_eq ((Node.tainted_mapOffsets f tree).trans hclean) (IndentRule.document_of hs'),
    mapM_map (g := findings (.ofTokens s) round ⟨source, .of source, tree, s⟩) fun active hactive => by
      obtain ⟨o, ho⟩ := hl active hactive
      exact findings_mirrored h hholds round ho]
  cases l.rules.mapM (findings (.ofTokens s) round ⟨source, .of source, tree, s⟩) with
  | error e => rfl
  | ok found =>
    refine congrArg Except.ok ?_
    rw [List.map_mergeSort fun a _ b _ => (Finding.atMost_mapOffsets h.strict a b).symm,
      List.map_flatten]

end Linter

end Indentation
