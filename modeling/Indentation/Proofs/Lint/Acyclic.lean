import Indentation.Lint.Indent
import Indentation.Proofs.Construct.Single
import Indentation.Proofs.Layout.Bounds

/-!
# The graph of a tree has no cycles

Every write of a walk through a tree in the order of its grammar is forward, and so are those of the
parentheses.  Hence each token is anchored to an earlier one at any time, each gets a width, and the
check of a text comes to an end.
-/

namespace Indentation.IndentRule

theorem document_of {source : Text} {tree : Node} {s : TokenStream}
    (hs : TokenStream.ofTree source tree = .ok s) :
    Document.of source tree = .ok ⟨source, .of source, tree, s⟩ := by
  rw [Document.of, hs]
  rfl

theorem forall_document {source : Text} {tree : Node} {s : TokenStream} {P : Document → Prop}
    (hs : TokenStream.ofTree source tree = .ok s) (h : P ⟨source, .of source, tree, s⟩) :
    ∀ d, Document.of source tree = .ok d → P d := by
  intro d hd
  obtain rfl := Except.ok.inj ((document_of hs).symm.trans hd)
  exact h

/-- All that is written to the graph of a tree, in order. -/
def writes (o : IndentOptions) (tree : Node) (s : TokenStream) : List Write :=
  Construct.writes s o tree ++ Parens.writes s

theorem graph_eq (o : IndentOptions) (tree : Node) (s : TokenStream) :
    graph o tree s = (Graph.blank s.size).writeAll s o.unit (writes o tree s) := rfl

/-- The children of every place are in the order of the grammar. -/
def InOrder (s : TokenStream) (tree : Node) : Prop := ∀ c ∈ tree.preorder, Construct.InOrder s c

variable {s : TokenStream} {tree : Node}

theorem forward_writes (hs : s.Lined) (hn : tree.Nested) (horder : InOrder s tree)
    (o : IndentOptions) : ∀ w ∈ writes o tree s, w.Forward s := by
  intro w hw
  rcases List.mem_append.1 hw with hw | hw
  · obtain ⟨e, he, hw⟩ := List.mem_flatMap.1 hw
    have hplace : e.place ∈ tree.preorder := Node.mem_preorder_iff.2 (Cursor.reaches_of_mem_events he)
    exact (Construct.within_eventWrites hs hn horder hplace (fun _ _ _ _ _ _ _ => trivial)
      (Construct.covers_trivial s _) rfl w hw).1
  · exact Parens.forward_writes w hw

/-- The graph resolves, and the widths are as it says. -/
theorem exists_widths (hs : s.Lined) (hn : tree.Nested) (horder : InOrder s tree)
    (o : IndentOptions) :
    ∃ widths, (graph o tree s).resolve s o.indentChar = .ok widths ∧ ∀ t < s.size,
      widths.getD t 0 = (graph o tree s).prescribed s o.indentChar (fun a => widths.getD a 0) t :=
  Graph.exists_resolve ((Graph.forward_blank s.size).writeAll (forward_writes hs hn horder o)) s o.indentChar

/-- In a text shorter than the largest offset no token is put beyond the limit of a width. -/
theorem bounded_graph {source : Text} {xs : List Lexeme} (hcut : s.CutFrom source xs)
    (hsmall : Text.size source ≤ widthLimit) (o : IndentOptions) : (graph o tree s).Bounded := by
  refine (Graph.bounded_blank s.size).writeAll fun token column hw => ?_
  rcases List.mem_append.1 hw with hw | hw
  · rcases Construct.single_or_mem_shiftWrites hw with ⟨lead, rfl⟩ | ⟨c, -, -, hshift⟩
    · exact Nat.le_trans (hcut.column_le lead) hsmall
    · obtain ⟨_, _, _, _, _, heq⟩ := Declaration.exists_of_mem_shiftWrites o _ hshift
      cases heq
  · obtain ⟨p, -, heq⟩ := List.mem_map.1 hw
    cases heq

/-- In such a text no token gets a width beyond the limit. -/
theorem exists_widths_le {source : Text} {xs : List Lexeme} (hs : s.Lined) (hn : tree.Nested)
    (horder : InOrder s tree) (hcut : s.CutFrom source xs) (hsmall : Text.size source ≤ widthLimit)
    (o : IndentOptions) :
    ∃ widths, (graph o tree s).resolve s o.indentChar = .ok widths ∧
      (∀ t < s.size, widths.getD t 0 =
        (graph o tree s).prescribed s o.indentChar (fun a => widths.getD a 0) t) ∧
      ∀ t < s.size, widths.getD t 0 ≤ widthLimit := by
  obtain ⟨widths, hwidths, hprescribed⟩ := exists_widths hs hn horder o
  refine ⟨widths, hwidths, hprescribed, fun t ht => ?_⟩
  rw [hprescribed t ht]
  exact (bounded_graph hcut hsmall o).prescribed_le (Nat.le_trans (hcut.length_margin_le t) hsmall) _

/-- Children without a part to play are in order. -/
theorem inOrder_of_unnamed {s : TokenStream} {tree : Node}
    (h : ∀ c ∈ tree.preorder, ∀ d ∈ c.children, d.node.label.field = none) : InOrder s tree := by
  intro c hc
  have hfield : ∀ f, c.fieldChild? f = none := fun f => by
    refine List.find?_eq_none.2 fun d hd => ?_
    rw [h c hc d hd]
    simp
  have hfields : ∀ f, c.fieldChildren f = [] := fun f => by
    refine List.filter_eq_nil_iff.2 fun d hd => ?_
    rw [h c hc d hd]
    simp
  exact {
    assignment := fun _ left hl => by simp [hfield] at hl
    call := fun _ callee hl => by simp [hfield] at hl
    new := fun _ callee hl => by simp [hfield] at hl
    method := fun _ p hp => by simp [hfield] at hp
    forLoop := fun _ _ _ part hp => by simp [Body.headerParts, hfields] at hp }

/-- However far the constructs and the parentheses have come, each token that has an anchor comes
after it.  All tokens that are named are tokens of the text, their margins lie in it, and the check of
the text succeeds. -/
theorem exists_check {source : Text} (h : tree.Fits source)
    (horder : ∀ d, Document.of source tree = .ok d → InOrder d.stream tree) (o : IndentOptions) :
    ∃ d, Document.of source tree = .ok d ∧
      (∀ t < d.stream.size, Text.size (d.stream.token t).margin ≤ (d.stream.token t).start ∧
        (d.stream.token t).start < (d.stream.token t).stop ∧
        (d.stream.token t).stop ≤ Text.size source) ∧
      (∀ w ∈ writes o tree d.stream, w.Forward d.stream) ∧
      (∀ ws, ws <+: writes o tree d.stream →
        ∀ t a, ((Graph.blank d.stream.size).writeAll d.stream o.unit ws).anchor? t = some a →
          a < t ∧ t < d.stream.size) ∧
      ∃ found, check o d = .ok found := by
  obtain ⟨s, hs, hcut, hlined⟩ := h.exists_ofTree
  have hdoc : Document.of source tree = .ok ⟨source, .of source, tree, s⟩ := by
    rw [Document.of, hs]
    rfl
  have hforward := forward_writes hlined h.toNested (horder _ hdoc) o
  refine ⟨_, hdoc, fun t ht => ?_, hforward, fun ws hws t a ha => ⟨?_, ?_⟩, ?_⟩
  · obtain ⟨x, hx, hc⟩ := hcut.getElem_cut ht
    obtain ⟨a, b, hsource, hstart, hstop, hmargin⟩ := hc.parts
    refine ⟨?_, hlined.start_lt_stop t ht, ?_⟩
    · rw [hmargin, hc.start_eq, ← hstart]
      conv_rhs => rw [← Text.earlierLines_append_lastLine a, Text.size_append]
      omega
    · rw [hc.stop_eq, ← hstop, hsource, Text.size_append _ b]
      omega
  · exact (Graph.forward_blank s.size).writeAll (fun w hw => hforward w (hws.subset hw)) t a ha
  · simpa using Graph.lt_size_of_anchor? ha
  · obtain ⟨widths, hwidths, -⟩ := exists_widths hlined h.toNested (horder _ hdoc) o
    simp only [check, mismatches, hwidths, bind, Except.bind, pure, Except.pure]
    exact ⟨_, rfl⟩

/-! ## A small text -/

/-- So many bytes from an offset on. -/
def bytes (start length : Nat) : Range := ⟨start, start + length, Nat.le_add_right start length⟩

/-- A node that fills no part of another one. -/
def plain (kind : String) (r : Range) (named : Bool) (children : List Node) : Node :=
  .mk ⟨kind, r, named, false, false, false, false, none⟩ children

def leaf (kind : String) (start stop : Nat) (h : start ≤ stop) (named : Bool) : Node :=
  .mk ⟨kind, ⟨start, stop, h⟩, named, false, false, false, false, none⟩ []

/-- A block around a name on a line of its own. -/
def sampleText : Text := ['{', '\n', 'a', '}']

def sampleTree : Node :=
  .mk ⟨"program", ⟨0, 4, by decide⟩, true, false, false, false, false, none⟩
    [.mk ⟨"statement_block", ⟨0, 4, by decide⟩, true, false, false, false, false, none⟩
      [leaf "\x7b" 0 1 (by decide) false,
       .mk ⟨"expression_statement", ⟨2, 3, by decide⟩, true, false, false, false, false, none⟩
         [leaf "identifier" 2 3 (by decide) true],
       leaf "\x7d" 3 4 (by decide) false]]

theorem fits_sampleTree : sampleTree.Fits sampleText where
  inside := by decide
  ordered := by decide
  substituted := by unfold Node.Substituted; decide
  cuts := by decide

theorem wellFormed_sampleTree : sampleTree.WellFormed sampleText where
  toFits := fits_sampleTree
  clear := .of_flat (by decide) (by decide) (by decide) (by decide)

theorem inOrder_sampleTree (s : TokenStream) : InOrder s sampleTree :=
  inOrder_of_unnamed (by decide)

theorem exists_check_sampleTree : ∃ d, Document.of sampleText sampleTree = .ok d ∧
    (∀ w ∈ writes .standard sampleTree d.stream, w.Forward d.stream) ∧
    ∃ found, check .standard d = .ok found := by
  obtain ⟨d, hd, -, hforward, -, hfound⟩ :=
    exists_check fits_sampleTree (fun d _ => inOrder_sampleTree d.stream) .standard
  exact ⟨d, hd, hforward, hfound⟩

end Indentation.IndentRule
