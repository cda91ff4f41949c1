import Indentation.Layout.Indents
import Indentation.Proofs.Token.Moved
import Indentation.Proofs.Token.Tracks

/-!
# Two streams that look alike

Nothing that is measured tells two such streams apart: their tokens stand in the same columns behind
the same margins.  What differs are the texts of tokens and, with them, the offsets.
-/

namespace Indentation

namespace TokenStream

/-- A stream has tokens where another one has them, in the same columns and behind margins of the same
measure. -/
structure Mirrors (s : TokenStream) (f : Nat → Nat) (s' : TokenStream) : Prop where
  ordered : s.Ordered
  ordered' : s'.Ordered
  strict : StrictMono f
  size_eq : s'.size = s.size
  isComment_eq : ∀ i, s'.isComment i = s.isComment i
  isSign_eq : ∀ i, ∀ c ∈ signs, s'.isPunctuator i [c] = s.isPunctuator i [c]
  directive_eq : ∀ i, Directive.ofComment? (s'.token i).kind (s'.token i).text =
    Directive.ofComment? (s.token i).kind (s.token i).text
  startLine_eq : ∀ i, (s'.token i).startLine = (s.token i).startLine
  endLine_eq : ∀ i, (s'.token i).endLine = (s.token i).endLine
  column_eq : s.SameColumns s'
  leader?_eq : ∀ i, s'.leader? (s.token i).startLine = s.leader? (s.token i).startLine
  marginOf_eq : ∀ i, s'.marginOf i = s.marginOf i
  hasBlankMargin_eq : ∀ i, s'.hasBlankMargin i = s.hasBlankMargin i
  range_eq : ∀ i < s.size, (s'.token i).range = (s.token i).range.mapOffsets f
  marginRange_eq : ∀ i < s.size, (s'.token i).marginRange = (s.token i).marginRange.mapOffsets f

namespace Mirrors

variable {f : Nat → Nat} {s s' : TokenStream} (h : s.Mirrors f s')
include h

theorem start_eq {i : Nat} (hi : i < s.size) : (s'.token i).start = f (s.token i).start :=
  congrArg Range.start (h.range_eq i hi)

theorem stop_eq {i : Nat} (hi : i < s.size) : (s'.token i).stop = f (s.token i).stop :=
  (congrArg Range.stop (h.range_eq i hi)).trans (Range.stop_mapOffsets h.strict.monotone _)

theorem parallels : s.Parallels f s' where
  ordered := h.ordered
  ordered' := h.ordered'
  mono := h.strict.monotone
  size_eq := h.size_eq
  isComment_eq := h.isComment_eq
  isSign_eq := h.isSign_eq
  directive_eq := h.directive_eq
  startLine_eq := h.startLine_eq
  endLine_eq := h.endLine_eq
  leader?_eq := h.leader?_eq
  le_start := fun p i hi => by rw [h.start_eq hi, h.strict.le_iff_le]
  stop_le := fun p i hi => by rw [h.stop_eq hi, h.strict.le_iff_le]

/-- Tokens start at corresponding offsets. -/
theorem startOf?_eq (c : Cursor) : s'.startOf? (c.mapOffsets f) = s.startOf? c := by
  ext i
  rw [startOf?, startOf?, Cursor.range_mapOffsets, startingAt?_eq_some_iff h.ordered,
    startingAt?_eq_some_iff h.ordered', h.size_eq]
  refine and_congr_right fun hi => ?_
  rw [h.start_eq hi]
  exact h.strict.injective.eq_iff

end Mirrors

end TokenStream

/-! ## Token by token -/

/-- Only comments are directives. -/
theorem Form.ofComment?_classify (form : Form) (text : Text) (h : form ≠ .comment) :
    Directive.ofComment? (form.classify text) text = none := by
  have hkind : (form.classify text).isComment = false := by
    rw [Bool.eq_false_iff, Ne, isComment_classify]
    exact h
  rw [Directive.ofComment?]
  cases hclass : form.classify text with
  | lineComment => simp [hclass, TokenKind.isComment] at hkind
  | blockComment => simp [hclass, TokenKind.isComment] at hkind
  | _ => rfl

namespace Token

section

variable {form : Form} {t t' : Token} (h : t.kind = form.classify t.text)
  (h' : t'.kind = form.classify t'.text)
include h h'

theorem isComment_congr : t'.isComment = t.isComment := by
  rw [isComment, isComment, Bool.eq_iff_iff, h, h', Form.isComment_classify, Form.isComment_classify]

theorem isSign_congr {c : Char} (hc : t'.text = [c] ↔ t.text = [c]) :
    (t'.kind == .punctuator && t'.text == [c]) = (t.kind == .punctuator && t.text == [c]) := by
  rw [Bool.eq_iff_iff, Bool.and_eq_true, Bool.and_eq_true, beq_iff_eq, beq_iff_eq, beq_iff_eq,
    beq_iff_eq, hc]
  refine and_congr_left fun htext => ?_
  rw [h, h', hc.2 htext, htext]

theorem directive_congr (hcomment : form = .comment →
    Directive.ofComment? (form.classify t'.text) t'.text =
      Directive.ofComment? (form.classify t.text) t.text) :
    Directive.ofComment? t'.kind t'.text = Directive.ofComment? t.kind t.text := by
  rw [h, h']
  by_cases hform : form = .comment
  · exact hcomment hform
  · rw [Form.ofComment?_classify _ _ hform, Form.ofComment?_classify _ _ hform]

end

end Token

/-- Nothing that is measured tells two tokens apart. -/
structure Token.Mirrors (f : Nat → Nat) (t t' : Token) : Prop where
  isComment_eq : t'.isComment = t.isComment
  isSign_eq : ∀ c ∈ TokenStream.signs,
    (t'.kind == .punctuator && t'.text == [c]) = (t.kind == .punctuator && t.text == [c])
  directive_eq : Directive.ofComment? t'.kind t'.text = Directive.ofComment? t.kind t.text
  startLine_eq : t'.startLine = t.startLine
  endLine_eq : t'.endLine = t.endLine
  column_eq : t'.column = t.column
  measure_eq : Margin.measure t'.margin = Margin.measure t.margin
  isBlank_eq : t'.margin.all isBlank = t.margin.all isBlank
  range_eq : t'.range = t.range.mapOffsets f
  marginRange_eq : t'.marginRange = t.marginRange.mapOffsets f

namespace TokenStream

variable {f : Nat → Nat} {s s' : TokenStream} {source source' : Text} {xs xs' : List Lexeme}

/-- Streams look alike if their tokens do. -/
theorem mirrors_of_tokens (hf : StrictMono f) (hs : s.CutFrom source xs) (hl : s.Lined)
    (hs' : s'.CutFrom source' xs') (hl' : s'.Lined) (hsize : s'.size = s.size)
    (hcount : (Lines.of source').count = (Lines.of source).count)
    (h : ∀ i < s.size, (s.token i).Mirrors f (s'.token i)) : s.Mirrors f s' where
  ordered := hl.toOrdered
  ordered' := hl'.toOrdered
  strict := hf
  size_eq := hsize
  isComment_eq := token_congr hsize Token.isComment fun i hi => (h i hi).isComment_eq
  isSign_eq i c hc := token_congr hsize (fun t => t.kind == .punctuator && t.text == [c])
    (fun i hi => (h i hi).isSign_eq c hc) i
  directive_eq := token_congr hsize (fun t => Directive.ofComment? t.kind t.text)
    fun i hi => (h i hi).directive_eq
  startLine_eq := token_congr hsize Token.startLine fun i hi => (h i hi).startLine_eq
  endLine_eq := token_congr hsize Token.endLine fun i hi => (h i hi).endLine_eq
  column_eq := token_congr hsize Token.column fun i hi => (h i hi).column_eq
  leader?_eq := leader?_congr hsize hs hs' hcount (fun i hi => (h i hi).startLine_eq)
    fun i hi => (h i hi).endLine_eq
  marginOf_eq := token_congr hsize (fun t => Margin.measure t.margin) fun i hi => (h i hi).measure_eq
  hasBlankMargin_eq := token_congr hsize (fun t => t.margin.all isBlank)
    fun i hi => (h i hi).isBlank_eq
  range_eq i hi := (h i hi).range_eq
  marginRange_eq i hi := (h i hi).marginRange_eq

end TokenStream

open TokenStream

/-- A tree and the same tree moved make streams that look alike if the tokens do that are cut along
corresponding lexemes. -/
theorem Node.Fits.exists_mirrors {f : Nat → Nat} {source source' : Text} {tree : Node}
    (h : tree.Fits source) (h' : (tree.mapOffsets f).Fits source') (hf : StrictMono f)
    (hcount : (Lines.of source').count = (Lines.of source).count)
    (htoken : ∀ x ∈ tree.pieces, ∀ t t', Token.CutFrom source x t →
      Token.CutFrom source' (x.mapOffsets f) t' → t.Mirrors f t') :
    ∃ s s', ofTree source tree = .ok s ∧ ofTree source' (tree.mapOffsets f) = .ok s' ∧
      s.CutFrom source tree.pieces ∧ s'.CutFrom source' (tree.mapOffsets f).pieces ∧
        s.Mirrors f s' := by
  obtain ⟨s, hs, hcut, hlined⟩ := h.exists_ofTree
  obtain ⟨s', hs', hcut', hlined'⟩ := h'.exists_ofTree
  have hpieces := pieces_mapOffsets hf tree
  have hsize : s'.size = s.size := by rw [hcut'.size_eq, hcut.size_eq, hpieces, List.length_map]
  refine ⟨s, s', hs, hs', hcut, hcut',
    mirrors_of_tokens hf hcut hlined hcut' hlined' hsize hcount fun i hi => ?_⟩
  have hi' : i < tree.pieces.length := hcut.size_eq ▸ hi
  have hi'' : i < (tree.mapOffsets f).pieces.length := by rwa [hpieces, List.length_map]
  have htoken' := hcut'.token_cut i hi''
  simp only [hpieces, List.getElem_map] at htoken'
  exact htoken _ (List.getElem_mem hi') _ _ (hcut.token_cut i hi') htoken'

end Indentation
