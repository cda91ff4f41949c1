import Indentation.Proofs.Lint.Aligned

/-!
# Tokens on the line of their anchor

However many levels are configured, a token stands level with an anchor on its own line.  The one
exception are tokens that have moved in with the names below them: those of the initial value of the
first of several declarators.
-/

namespace Indentation.IndentRule

variable {s : TokenStream} {tree : Node}

/-- A token is part of the initial value of the first of several declarators. -/
def InFirstValue (s : TokenStream) (tree : Node) (t : Nat) : Prop :=
  ∃ c ∈ tree.preorder, Construct.ofPlace? c = some .declarator ∧
    ∃ declaration, c.parent? = some declaration ∧
      Declaration.isFirstOfSeveral declaration c = true ∧
      ∃ value, c.fieldChild? "value" = some value ∧
        ∃ span, s.spanOfNode? value.bare = some span ∧ span.first ≤ t ∧ t ≤ span.last

theorem inFirstValue_of_shift {o : IndentOptions} {span : Span} {levels : Nat}
    (hw : .shift span levels ∈ writes o tree s) {t : Nat} (hfirst : span.first ≤ t)
    (hlast : t ≤ span.last) : InFirstValue s tree t := by
  rcases List.mem_append.1 hw with hw | hw
  · rcases Construct.single_or_mem_shiftWrites hw with hsingle | ⟨c, hc, hk, hshift⟩
    · exact hsingle.elim
    · obtain ⟨declaration, hparent, hseveral, value, hvalue, moved, hspan, heq⟩ :=
        Declaration.isFirstOfSeveral_of_mem_shiftWrites o _ hshift
      obtain ⟨rfl, -⟩ := Write.shift.inj heq
      exact ⟨c, hc, hk, declaration, hparent, hseveral, value, hvalue, span, hspan, hfirst, hlast⟩
  · obtain ⟨p, -, heq⟩ := List.mem_map.1 hw
    cases heq

/-- However far the constructs and the parentheses have come, tokens are level with anchors on their own
lines. -/
theorem level_edge {o : IndentOptions} {ws : List Write} (hws : ws <+: writes o tree s) (t : Nat) :
    (((Graph.blank s.size).writeAll s o.unit ws).edge t).Level s (InFirstValue s tree) t := by
  refine Graph.level_writeAll (fun span levels hw i => ?_) (fun i => ?_) t
  · exact inFirstValue_of_shift (hws.subset hw)
  · rw [Graph.edge_blank]
    exact Edge.level_free 0

/-- Whatever levels are configured, no token is ever its own anchor, and in the end a token whose anchor
starts on the same line is set off from it by nothing, unless the token is part of the initial value of
the first of several declarators.  Unless it may stand where it is, it hence gets the width of its
anchor. -/
theorem level_on_line {source : Text} (h : tree.Fits source) (o : IndentOptions) :
    ∃ d, Document.of source tree = .ok d ∧
      (∀ ws, ws <+: writes o tree d.stream → ∀ t,
        ((Graph.blank d.stream.size).writeAll d.stream o.unit ws).anchor? t ≠ some t) ∧
      (∀ t a, (graph o tree d.stream).anchor? t = some a → d.stream.sameStartLine t a = true →
        ¬InFirstValue d.stream tree t → ((graph o tree d.stream).edge t).offset = 0) ∧
      (InOrder d.stream tree → Text.size source ≤ Offset.limit →
        ∃ widths, (graph o tree d.stream).resolve d.stream o.indentChar = .ok widths ∧
          ∀ t a, (graph o tree d.stream).anchor? t = some a → d.stream.sameStartLine t a = true →
            ¬InFirstValue d.stream tree t → (graph o tree d.stream).isExempt t = false →
              widths.getD t 0 = widths.getD a 0) := by
  obtain ⟨s, hs, hcut, hl⟩ := h.exists_ofTree
  have hlevel : ∀ t a, (graph o tree s).anchor? t = some a → s.sameStartLine t a = true →
      ¬InFirstValue s tree t → ((graph o tree s).edge t).offset = 0 := fun t a ha hline hfirst =>
    (level_edge (List.prefix_refl _) t).offset_eq hfirst a ha hline
  refine ⟨_, document_of hs, fun ws hws t ht => ?_, hlevel, fun horder hsmall => ?_⟩
  · exact (level_edge hws t).anchor_ne t ht rfl
  · obtain ⟨widths, hwidths, hprescribed, hle⟩ := exists_widths_le hl h.toNested horder hcut hsmall o
    refine ⟨widths, hwidths, fun t a ha hline hfirst hexempt => ?_⟩
    have hsize : t < s.size := by simpa [graph] using Graph.lt_size_of_anchor? ha
    have hlt : a < t := (Graph.forward_blank s.size).writeAll (forward_writes hl h.toNested horder o) t a ha
    have hedge : (graph o tree s).edge t = ⟨some a, 0⟩ := by
      rw [← ha, ← hlevel t a ha hline hfirst]
      rfl
    rw [hprescribed t hsize, Graph.prescribed_of_edge hexempt hedge]
    exact Width.add_zero (hle a (by omega))

/-- The first element of the list is on the line of the bracket, and level with it. -/
theorem level_on_line_listTree : ∃ d widths, Document.of listText listTree = .ok d ∧
    (graph .standard listTree d.stream).anchor? 1 = some 0 ∧
    ((graph .standard listTree d.stream).edge 1).offset = 0 ∧
    (graph .standard listTree d.stream).resolve d.stream .space = .ok widths ∧
      widths.getD 1 0 = widths.getD 0 0 := by
  obtain ⟨d, hd, -, hlevel, hwidths⟩ := level_on_line fits_listTree .standard
  obtain rfl := Except.ok.inj ((document_of ofTree_listTree).symm.trans hd)
  obtain ⟨widths, hwidths, hequal⟩ := hwidths (inOrder_of_unnamed (by decide)) (by decide)
  have hanchor : (graph .standard listTree listStream).anchor? 1 = some 0 := by decide +kernel
  have hfirst : ¬InFirstValue listStream listTree 1 := by
    rintro ⟨c, hc, hk, -⟩
    cases ofPlace?_listTree c hc _ hk
  exact ⟨_, widths, hd, hanchor, hlevel 1 0 hanchor (by decide) hfirst, hwidths,
    hequal 1 0 hanchor (by decide) hfirst (by decide +kernel)⟩

/-- Two declarators on one line. -/
def severalTree : Node :=
  plain "program" (bytes 0 9) true
    [plain "variable_declaration" (bytes 0 9) true
      [plain "var" (bytes 0 3) false [],
       plain "variable_declarator" (bytes 4 3) true
        [plain "identifier" (bytes 4 1) true [], plain "=" (bytes 5 1) false [],
         .mk ⟨"number", bytes 6 1, true, false, false, false, false, some "value"⟩ []],
       plain "," (bytes 7 1) false [],
       plain "variable_declarator" (bytes 8 1) true [plain "identifier" (bytes 8 1) true []]]]

def severalStream : TokenStream where
  source := "var a=1,b".toList
  tokens := #[
    ⟨.keyword, bytes 0 3, "var".toList, [], 1, 1, 0⟩,
    ⟨.identifier, bytes 4 1, ['a'], "var ".toList, 1, 1, 4⟩,
    ⟨.punctuator, bytes 5 1, ['='], "var a".toList, 1, 1, 5⟩,
    ⟨.numeric, bytes 6 1, ['1'], "var a=".toList, 1, 1, 6⟩,
    ⟨.punctuator, bytes 7 1, [','], "var a=1".toList, 1, 1, 7⟩,
    ⟨.identifier, bytes 8 1, ['b'], "var a=1,".toList, 1, 1, 8⟩]
  leaders := #[none, some 0, none]

/-- The first initial value moves in though it is on the line of its anchor. -/
example : severalStream.sameStartLine 3 0 = true ∧
    (graph .standard severalTree severalStream).edge 3 = ⟨some 0, 4⟩ ∧
    (graph .standard severalTree severalStream).edge 5 = ⟨some 0, 0⟩ := by
  decide +kernel

end Indentation.IndentRule
