import Indentation.Proofs.Lint.Findings
import Indentation.Proofs.Token.Moved

/-!
# A pass changes margins only

The edits of a pass replace margins of lines by indentation.  Each runs from the start of a line to the
first token of it, so it takes in no token and no terminator.  The text that comes out has the lines
and the tokens of the text that went in.
-/

namespace Indentation

open Text Lines

/-- An edit that runs from the start of a line to a token of it, over nothing but the margin. -/
structure Edit.OfMargin (s : TokenStream) (e : Edit) : Prop where
  bounds : ∃ t < s.size,
    e.range.start = (Lines.of s.source).lineStart s.source (s.token t).startLine ∧
      e.range.stop = (s.token t).start
  apart : ∀ i < s.size, (s.token i).stop ≤ e.range.start ∨ e.range.stop ≤ (s.token i).start
  slice_flat : ∃ part, Text.slice s.source e.range = .ok part ∧ part.Flat
  indentation : ∃ (c : IndentChar) (n : Nat), e.content.getD [] = Text.fill c.char n

/-- A text that edits make of another one, where all that they replace is margins. -/
structure Edit.OnlyMargins (source : Text) (tree : Node) (s : TokenStream) (es : List Edit)
    (fixed : Text) : Prop where
  applied : Edit.applyAll source es = .ok fixed
  count_eq : (Lines.of fixed).count = (Lines.of source).count
  terminators_eq : terminators fixed = terminators source
  tokens : ∃ s', TokenStream.ofTree fixed (tree.moved es) = .ok s' ∧ s'.size = s.size ∧
    ∀ i < s.size, (s'.token i).text = (s.token i).text ∧ (s'.token i).kind = (s.token i).kind ∧
      (s'.token i).startLine = (s.token i).startLine ∧ (s'.token i).endLine = (s.token i).endLine
  margins : ∀ e ∈ es, e.OfMargin s

theorem flat_fill (c : IndentChar) (n : Nat) : (Text.fill c.char n).Flat := by
  intro d hd
  rw [List.eq_of_mem_replicate hd]
  cases c <;> rfl

namespace Linter

variable {l : Linter} {source : Text} {tree : Node} {s : TokenStream}

/-- Edits like those of the indentation rule. -/
theorem ofMargin_of_leads (h : tree.WellFormed source) (hs : s.CutFrom source tree.pieces)
    (hlined : s.Lined) {t : Nat} (ht : t < s.size) (hlead : s.leads t = true) (c : IndentChar)
    (n : Nat) : (Edit.replacement (Text.fill c.char n) (s.token t).marginRange).OfMargin s := by
  refine ⟨⟨t, ht, ?_, ?_⟩, fun i hi => ?_, ?_, c, n, Edit.getD_content_replacement _ _⟩
  all_goals rw [Edit.range_replacement]
  · rw [hs.source_eq]
    exact TokenStream.lineStart_eq h.clear hs ht
  · rfl
  · change (s.token i).stop ≤ (s.token t).lineStart ∨ (s.token t).start ≤ (s.token i).start
    rcases Nat.lt_or_ge i t with hit | hti
    · exact .inl (Nat.le_of_lt (TokenStream.stop_lt_lineStart h.clear hs hlined ht hlead hit))
    · exact .inr (hlined.start_le_start hti hi)
  · obtain ⟨u, b, hsource, -, hflat, hstart, hstop⟩ := hs.exists_margin ht
    refine ⟨_, slice_eq_ok_iff.2 ⟨u, _, hs.source_eq.trans hsource, hstart, hstop⟩, hflat⟩

/-- A pass over a text can be carried out and changes nothing but margins. -/
def OnlyIndents (l : Linter) (round : Nat) (level : Applicability) (source : Text)
    (tree : Node) : Prop :=
  ∃ d found fixed, Document.of source tree = .ok d ∧ l.lintTree round source tree = .ok found ∧
    Edit.OnlyMargins source tree d.stream (Edit.select (wantedEdits level found)) fixed

/-- Fixing changes nothing but indentation.  A tree in the order of the grammar can be checked, and
where a check fails it is for want of a width.  The selected edits of all that is found can be carried
out.  The text that comes out has as many lines, with the same terminators, and its tokens are those
of the text that went in. -/
theorem exists_pass (h : tree.Legible source) (hsub : tree.Substituted)
    (hcont : Lexeme.Contiguous source tree.pieces) (hclean : tree.tainted = false) (hl : l.Indents)
    (round : Nat) (level : Applicability) :
    ∃ d, Document.of source tree = .ok d ∧
      (IndentRule.InOrder d.stream tree → ∃ found, l.lintTree round source tree = .ok found) ∧
      (∀ e, l.lintTree round source tree = .error e →
        ∃ cause, e = .unresolved IndentRule.name cause) ∧
      ∀ found, l.lintTree round source tree = .ok found →
        ∃ fixed, Edit.OnlyMargins source tree d.stream (Edit.select (wantedEdits level found)) fixed := by
  have hwell := h.wellFormed hsub hcont
  obtain ⟨s, hs, hcut, hlined⟩ := hwell.exists_ofTree
  have hdoc : Document.of source tree = .ok ⟨source, .of source, tree, s⟩ :=
    IndentRule.document_of hs
  refine ⟨_, hdoc, fun horder => exists_lintTree hclean hwell.toFits hdoc horder hl,
    fun e he => exists_unresolved hclean hdoc hl he, fun found hfound => ?_⟩
  have hwanted : ∀ e ∈ Edit.select (wantedEdits level found), ∃ t < s.size, s.leads t = true ∧
      ∃ (c : IndentChar) (n : Nat), e = .replacement (Text.fill c.char n) (s.token t).marginRange :=
    fun e he =>
      exists_of_mem_wantedEdits hwell hclean hl hdoc hcut hlined hfound (Edit.mem_of_mem_select he)
  have hreindents : s.Reindents (Edit.select (wantedEdits level found)) := fun e he => by
    obtain ⟨t, ht, hlead, c, n, rfl⟩ := hwanted e he
    refine ⟨t, ht, hlead, Edit.range_replacement _ _, ?_⟩
    rw [Edit.getD_content_replacement]
    exact flat_fill c n
  have hdesc := Edit.descending_select (wantedEdits level found)
  obtain ⟨fixed, happly, hterm⟩ := TokenStream.exists_applyAll hwell hcut hlined hdesc hreindents
  obtain ⟨s', hs', -, -, hsize, hmoves⟩ :=
    TokenStream.exists_moved hwell hcut hlined hdesc hreindents happly
  exact ⟨fixed, {
    applied := happly
    count_eq := by rw [count_of, count_of, hterm]
    terminators_eq := hterm
    tokens := ⟨s', hs', hsize, fun i hi => by
      obtain ⟨hkind, htext, -, -, hstart, hstop⟩ := hmoves i hi
      exact ⟨htext, hkind, hstart, hstop⟩⟩
    margins := fun e he => by
      obtain ⟨t, ht, hlead, c, n, rfl⟩ := hwanted e he
      exact ofMargin_of_leads hwell hcut hlined ht hlead c n }⟩

theorem exists_pass_sampleTree :
    let l : Linter := ⟨[⟨IndentRule.rule .standard, true⟩]⟩
    ∃ found fixed, l.lintTree 0 IndentRule.sampleText IndentRule.sampleTree = .ok found ∧
      Edit.applyAll IndentRule.sampleText (Edit.select (wantedEdits .safe found)) = .ok fixed ∧
      terminators fixed = [['\n']] := by
  intro l
  obtain ⟨d, -, hchecked, -, hpass⟩ :=
    exists_pass IndentRule.wellFormed_sampleTree.legible IndentRule.wellFormed_sampleTree.substituted
      IndentRule.wellFormed_sampleTree.clear.contiguous rfl (IndentRule.indents_linter .standard) 0 .safe
  obtain ⟨found, hfound⟩ := hchecked (IndentRule.inOrder_sampleTree d.stream)
  obtain ⟨fixed, hfixed⟩ := hpass found hfound
  exact ⟨found, fixed, hfound, hfixed.applied, hfixed.terminators_eq⟩

end Linter

/-! ## Where a pass goes wrong

A lexeme for each end of a substitution, one in front of the text of an element, and the order of the
grammar: each of them is needed, even where the others hold. -/

namespace IndentRule

variable {o : IndentOptions} {level : Applicability} {source : Text} {tree : Node} {s : TokenStream}
  {round : Nat}

/-- What is known where a pass has only changed margins. -/
theorem exists_of_onlyIndents (hclean : tree.tainted = false)
    (hs : TokenStream.ofTree source tree = .ok s)
    (h : (linter o).OnlyIndents round level source tree) :
    ∃ ms fixed, mismatches o tree s = .ok ms ∧ Edit.OnlyMargins source tree s
      (Edit.select (Linter.wantedEdits level (findings o s ms))) fixed := by
  obtain ⟨d, found, fixed, hd, hfound, hfixed⟩ := h
  obtain rfl := Except.ok.inj ((document_of hs).symm.trans hd)
  obtain ⟨ms, hms, rfl⟩ := exists_of_lintTree_linter hclean hs hfound
  exact ⟨ms, fixed, hms, hfixed⟩

theorem select_wantedEdits_singleton {m : Mismatch} (h : reported s [m] = [m]) :
    Edit.select (Linter.wantedEdits level (findings o s [m])) = [edit o s m] := by
  have hperm := wantedEdits_perm (o := o) (s := s) level [m]
  rw [h] at hperm
  rw [List.perm_singleton.1 hperm]
  exact List.perm_singleton.1 (Edit.select_of_apart (List.pairwise_singleton _ _)).1

/-- What is known where a pass over one finding has only changed margins. -/
theorem exists_onlyMargins_edit {m : Mismatch} (hclean : tree.tainted = false)
    (hs : TokenStream.ofTree source tree = .ok s) (hms : mismatches o tree s = .ok [m])
    (hreported : reported s [m] = [m]) (h : (linter o).OnlyIndents round level source tree) :
    ∃ fixed, Edit.OnlyMargins source tree s [edit o s m] fixed := by
  obtain ⟨ms, fixed, hms', hfixed⟩ := exists_of_onlyIndents hclean hs h
  obtain rfl := Except.ok.inj (hms.symm.trans hms')
  rw [select_wantedEdits_singleton hreported] at hfixed
  exact ⟨fixed, hfixed⟩

/-- The text of an element that begins with an LF, with a margin between it and a CR. -/
def partedText : Text := ['a', '\r', ' ', ' ', '\n', 'b']

def partedTree : Node :=
  plain "program" (bytes 0 6) true
    [plain "identifier" (bytes 0 1) true [], plain "jsx_text" (bytes 4 2) true []]

def partedStream : TokenStream where
  source := partedText
  tokens := #[
    ⟨.identifier, bytes 0 1, ['a'], [], 1, 1, 0⟩,
    ⟨.jsxText, bytes 4 2, ['\n', 'b'], [' ', ' '], 2, 3, 2⟩]
  leaders := #[none, some 0, some 1, some 1, none]

theorem ofTree_partedTree : TokenStream.ofTree partedText partedTree = .ok partedStream := by
  rw [TokenStream.ofTree_of_pairwise (by decide)]
  decide +kernel

theorem legible_partedTree : partedTree.Legible partedText where
  inside := by decide
  ordered := by decide
  cuts := by decide
  shown := .of_all (by decide) (by decide) (by decide) (by decide)

theorem mismatches_partedTree :
    mismatches .standard partedTree partedStream = .ok [⟨1, 0, ⟨2, 0⟩⟩] := by
  have hwidths : (graph .standard partedTree partedStream).resolve partedStream .space =
      .ok #[0, 0] := by with_unfolding_all decide
  exact mismatches_eq_singleton hwidths (t := 1) (by with_unfolding_all decide)
    (by with_unfolding_all decide)

/-- A substitution of one child, so that the part before it and the part behind it overlap. -/
def halvedText : Text := ['`', '\n', ' ', ' ', 'a', '\n', 'b', '`']

def halvedTree : Node :=
  plain "program" (bytes 0 8) true
    [plain "template_string" (bytes 0 8) true
      [plain "template_substitution" (bytes 4 3) true [plain "string" (bytes 4 3) true []]]]

def halvedStream : TokenStream where
  source := halvedText
  tokens := #[
    ⟨.template, bytes 0 7, ['`', '\n', ' ', ' ', 'a', '\n', 'b'], [], 1, 3, 0⟩,
    ⟨.template, bytes 4 4, ['a', '\n', 'b', '`'], [' ', ' '], 2, 3, 2⟩]
  leaders := #[none, some 0, some 1, some 0, none]

theorem ofTree_halvedTree : TokenStream.ofTree halvedText halvedTree = .ok halvedStream := by
  rw [TokenStream.ofTree_of_pairwise (by decide)]
  decide +kernel

theorem legible_halvedTree : halvedTree.Legible halvedText where
  inside := by decide
  ordered := by decide
  cuts := by decide
  shown := .of_all (by decide) (by decide) (by decide) (by decide)

theorem mismatches_halvedTree :
    mismatches .standard halvedTree halvedStream = .ok [⟨1, 0, ⟨2, 0⟩⟩] := by
  have hwidths : (graph .standard halvedTree halvedStream).resolve halvedStream .space =
      .ok #[0, 0] := by with_unfolding_all decide
  exact mismatches_eq_singleton hwidths (t := 1) (by with_unfolding_all decide)
    (by with_unfolding_all decide)

/-- An assignment whose sides play each other's part. -/
def swappedText : Text := ['a', '=', '(', 'b', ')']

def swappedTree : Node :=
  plain "program" (bytes 0 5) true
    [plain "assignment_expression" (bytes 0 5) true
      [.mk ⟨"identifier", bytes 0 1, true, false, false, false, false, some "right"⟩ [],
       plain "=" (bytes 1 1) false [],
       .mk ⟨"parenthesized_expression", bytes 2 3, true, false, false, false, false, some "left"⟩
         [plain "(" (bytes 2 1) false [], plain "identifier" (bytes 3 1) true [],
          plain ")" (bytes 4 1) false []]]]

def swappedStream : TokenStream where
  source := swappedText
  tokens := #[
    ⟨.identifier, bytes 0 1, ['a'], [], 1, 1, 0⟩,
    ⟨.punctuator, bytes 1 1, ['='], ['a'], 1, 1, 1⟩,
    ⟨.punctuator, bytes 2 1, ['('], ['a', '='], 1, 1, 2⟩,
    ⟨.identifier, bytes 3 1, ['b'], ['a', '=', '('], 1, 1, 3⟩,
    ⟨.punctuator, bytes 4 1, [')'], ['a', '=', '(', 'b'], 1, 1, 4⟩]
  leaders := #[none, some 0, none]

theorem ofTree_swappedTree : TokenStream.ofTree swappedText swappedTree = .ok swappedStream := by
  rw [TokenStream.ofTree_of_pairwise (by decide)]
  decide +kernel

theorem wellFormed_swappedTree : swappedTree.WellFormed swappedText where
  inside := by decide
  ordered := by decide
  substituted := by unfold Node.Substituted; decide
  cuts := by decide
  clear := .of_flat (by decide) (by decide) (by decide) (by decide)

theorem mismatches_swappedTree :
    mismatches .standard swappedTree swappedStream = .error (.cycle 2 3) := by
  have hwidths : (graph .standard swappedTree swappedStream).resolve swappedStream .space =
      .error (.cycle 2 3) := by with_unfolding_all decide
  rw [mismatches]
  change (graph .standard swappedTree swappedStream).resolve swappedStream .space >>= _ = _
  rw [hwidths]
  rfl

/-- A line separator, which is white space and ends no line, in front of a name. -/
def separatedText : Text := ['{', '\n', '\u2028', 'a', ';', '\n', '}']

def separatedTree : Node :=
  plain "program" (bytes 0 9) true
    [plain "statement_block" (bytes 0 9) true
      [plain "\x7b" (bytes 0 1) false [],
       plain "expression_statement" (bytes 5 2) true
         [plain "identifier" (bytes 5 1) true [], plain ";" (bytes 6 1) false []],
       plain "\x7d" (bytes 8 1) false []]]

def separatedStream : TokenStream where
  source := separatedText
  tokens := #[
    ⟨.punctuator, bytes 0 1, ['{'], [], 1, 1, 0⟩,
    ⟨.identifier, bytes 5 1, ['a'], ['\u2028'], 2, 2, 1⟩,
    ⟨.punctuator, bytes 6 1, [';'], ['\u2028', 'a'], 2, 2, 2⟩,
    ⟨.punctuator, bytes 8 1, ['}'], [], 3, 3, 0⟩]
  leaders := #[none, some 0, some 1, some 3, none]

theorem ofTree_separatedTree : TokenStream.ofTree separatedText separatedTree = .ok separatedStream := by
  rw [TokenStream.ofTree_of_pairwise (by decide)]
  decide +kernel

theorem wellFormed_separatedTree : separatedTree.WellFormed separatedText where
  inside := by decide
  ordered := by decide
  substituted := by unfold Node.Substituted; decide
  cuts := by decide
  clear := .of_flat (by decide) (by decide) (by decide) (by decide)

theorem mismatches_separatedTree :
    mismatches .standard separatedTree separatedStream = .ok [⟨1, 4, ⟨0, 0⟩⟩] := by
  have hwidths : (graph .standard separatedTree separatedStream).resolve separatedStream .space =
      .ok #[0, 4, 4, 0] := by with_unfolding_all decide
  exact mismatches_eq_singleton hwidths (t := 1) (by with_unfolding_all decide)
    (by with_unfolding_all decide)

/-- The edit of a margin makes one terminator of a CR and an LF, another one edits a literal, and
swapped sides are anchored to each other.  No condition on the tree keeps a line separator in its
margin. -/
theorem not_onlyIndents :
    (partedTree.Legible partedText ∧ partedTree.Substituted ∧ partedTree.tainted = false ∧
      (∀ s, InOrder s partedTree) ∧
      ¬(linter .standard).OnlyIndents 0 .safe partedText partedTree) ∧
    (halvedTree.Legible halvedText ∧ Lexeme.Contiguous halvedText halvedTree.pieces ∧
      halvedTree.tainted = false ∧ (∀ s, InOrder s halvedTree) ∧
      ¬(linter .standard).OnlyIndents 0 .safe halvedText halvedTree) ∧
    (swappedTree.WellFormed swappedText ∧ swappedTree.tainted = false ∧
      ¬(linter .standard).OnlyIndents 0 .safe swappedText swappedTree) ∧
    (separatedTree.WellFormed separatedText ∧ separatedTree.tainted = false ∧
      (∀ s, InOrder s separatedTree) ∧
      ∃ found, (linter .standard).lintTree 0 separatedText separatedTree = .ok found ∧
        ∃ e ∈ Edit.select (Linter.wantedEdits .safe found),
          Text.slice separatedText e.range = .ok ['\u2028']) := by
  refine ⟨⟨legible_partedTree, by unfold Node.Substituted; decide, rfl,
      fun _ => inOrder_of_unnamed (by decide), fun h => ?_⟩,
    ⟨legible_halvedTree, by unfold Lexeme.Contiguous; decide, rfl,
      fun _ => inOrder_of_unnamed (by decide), fun h => ?_⟩,
    ⟨wellFormed_swappedTree, rfl, fun h => ?_⟩,
    ⟨wellFormed_separatedTree, rfl, fun _ => inOrder_of_unnamed (by decide), _,
      lintTree_linter rfl ofTree_separatedTree mismatches_separatedTree, ?_⟩⟩
  · obtain ⟨fixed, hfixed⟩ :=
      exists_onlyMargins_edit rfl ofTree_partedTree mismatches_partedTree (by decide) h
    have happly : Edit.applyAll partedText [edit .standard partedStream ⟨1, 0, ⟨2, 0⟩⟩] =
        .ok ['a', '\r', '\n', 'b'] := by with_unfolding_all decide
    obtain rfl := Except.ok.inj (happly.symm.trans hfixed.applied)
    exact absurd hfixed.count_eq (by decide)
  · obtain ⟨fixed, hfixed⟩ :=
      exists_onlyMargins_edit rfl ofTree_halvedTree mismatches_halvedTree (by decide) h
    exact absurd ((hfixed.margins _ (List.mem_singleton.2 rfl)).apart 0 (by decide)) (by decide)
  · obtain ⟨ms, fixed, hms, -⟩ := exists_of_onlyIndents rfl ofTree_swappedTree h
    rw [mismatches_swappedTree] at hms
    cases hms
  · rw [select_wantedEdits_singleton (by decide)]
    exact ⟨_, List.mem_singleton.2 rfl, by with_unfolding_all decide⟩

end IndentRule

end Indentation
