import Indentation.Directive.Basic
import Indentation.Proofs.Token.Rows
import Indentation.Proofs.Tree.Carried

/-!
# Two streams with the same tokens

When the offsets of a text are moved so that tokens keep their lines and their places among the
boundaries of a tree, every question about tokens has the answer that it had, as long as it asks of their
texts no more than which are comments, parentheses or semicolons.
-/

namespace Indentation

namespace TokenStream

/-- An offset of a character of a token. -/
def Covers (s : TokenStream) (p : Nat) : Prop :=
  ∃ i < s.size, (s.token i).start ≤ p ∧ p < (s.token i).stop

/-- The tokens stand in the same columns. -/
def SameColumns (s s' : TokenStream) : Prop := ∀ i, (s'.token i).column = (s.token i).column

/-- The characters that are looked for among the tokens of a text. -/
def signs : List Char := ['(', ')', ';']

theorem mem_signs {c : Char} : c ∈ signs ↔ c = '(' ∨ c = ')' ∨ c = ';' := by simp [signs]

/-- A stream has tokens where another one has them, moved along with the text.  Tokens that stand for
each other may have different texts, but they are the same comments, directives and signs. -/
structure Parallels (s : TokenStream) (f : Nat → Nat) (s' : TokenStream) : Prop where
  ordered : s.Ordered
  ordered' : s'.Ordered
  mono : Monotone f
  size_eq : s'.size = s.size
  isComment_eq : ∀ i, s'.isComment i = s.isComment i
  isSign_eq : ∀ i, ∀ c ∈ signs, s'.isPunctuator i [c] = s.isPunctuator i [c]
  directive_eq : ∀ i, Directive.ofComment? (s'.token i).kind (s'.token i).text =
    Directive.ofComment? (s.token i).kind (s.token i).text
  startLine_eq : ∀ i, (s'.token i).startLine = (s.token i).startLine
  endLine_eq : ∀ i, (s'.token i).endLine = (s.token i).endLine
  leader?_eq : ∀ i, s'.leader? (s.token i).startLine = s.leader? (s.token i).startLine
  le_start : ∀ p, ∀ i < s.size, f p ≤ (s'.token i).start ↔ p ≤ (s.token i).start
  stop_le : ∀ p, ∀ i < s.size, (s'.token i).stop ≤ f p ↔ (s.token i).stop ≤ p

/-- A stream has the tokens of another one, moved along with the text. -/
structure Tracks (s : TokenStream) (f : Nat → Nat) (s' : TokenStream) : Prop
    extends s.Parallels f s' where
  kind_eq : ∀ i, (s'.token i).kind = (s.token i).kind
  text_eq : ∀ i, (s'.token i).text = (s.token i).text
  start_eq : ∀ p, s.Covers p → ∀ i < s.size, (s'.token i).start = f p ↔ (s.token i).start = p

namespace Parallels

variable {f : Nat → Nat} {s s' : TokenStream} (h : s.Parallels f s')
include h

theorem isOpening_eq (i : Nat) : s'.isPunctuator i ['('] = s.isPunctuator i ['('] :=
  h.isSign_eq i '(' (by decide)

theorem isClosing_eq (i : Nat) : s'.isPunctuator i [')'] = s.isPunctuator i [')'] :=
  h.isSign_eq i ')' (by decide)

theorem isSemicolon_eq (i : Nat) : s'.isPunctuator i [';'] = s.isPunctuator i [';'] :=
  h.isSign_eq i ';' (by decide)

theorem sameStartLine_eq (i j : Nat) : s'.sameStartLine i j = s.sameStartLine i j := by
  rw [sameStartLine, sameStartLine, h.startLine_eq, h.startLine_eq]

theorem leads_eq (i : Nat) : s'.leads i = s.leads i := by
  rw [leads, leads, h.startLine_eq, h.leader?_eq]

theorem leaderOf_eq (i : Nat) : s'.leaderOf i = s.leaderOf i := by
  rw [leaderOf, leaderOf, h.startLine_eq, h.leader?_eq]

theorem ids_eq : s'.ids = s.ids := by
  rw [ids, ids, h.size_eq]

theorem codeIds_eq : s'.codeIds = s.codeIds := by
  simp only [codeIds, h.ids_eq, h.isComment_eq]

theorem commentIds_eq : s'.commentIds = s.commentIds := by
  rw [commentIds, commentIds, h.ids_eq, funext h.isComment_eq]

theorem prevCode?_eq (i : Nat) : s'.prevCode? i = s.prevCode? i := by
  induction i with
  | zero => rfl
  | succ i ih => rw [prevCode?, prevCode?, h.isComment_eq, ih]

theorem nextCodeFrom?_eq (i : Nat) : s'.nextCodeFrom? i = s.nextCodeFrom? i := by
  fun_induction nextCodeFrom? s i with
  | case1 i hi hc ih => rw [nextCodeFrom?, h.size_eq, h.isComment_eq, if_pos hi, if_pos hc, ih]
  | case2 i hi hc => rw [nextCodeFrom?, h.size_eq, h.isComment_eq, if_pos hi, if_neg hc]
  | case3 i hi => rw [nextCodeFrom?, h.size_eq, if_neg hi]

theorem nextCode?_eq (i : Nat) : s'.nextCode? i = s.nextCode? i := h.nextCodeFrom?_eq (i + 1)

theorem firstCode?_eq : s'.firstCode? = s.firstCode? := h.nextCodeFrom?_eq 0

theorem codeBetween_eq (i j : Nat) : s'.codeBetween i j = s.codeBetween i j := by
  simp only [codeBetween, h.isComment_eq]

/-! ## Tokens of a range -/

theorem codeIn_iff {r : Range} {i : Nat} : s'.CodeIn (r.mapOffsets f) i ↔ s.CodeIn r i := by
  constructor
  · rintro ⟨hlt, hcode, hstart, hstop⟩
    have hlt' : i < s.size := h.size_eq ▸ hlt
    rw [Range.stop_mapOffsets h.mono] at hstop
    exact ⟨hlt', h.isComment_eq i ▸ hcode, (h.le_start _ i hlt').1 hstart, (h.stop_le _ i hlt').1 hstop⟩
  · rintro ⟨hlt, hcode, hstart, hstop⟩
    refine ⟨h.size_eq ▸ hlt, (h.isComment_eq i).trans hcode, (h.le_start _ i hlt).2 hstart, ?_⟩
    rw [Range.stop_mapOffsets h.mono]
    exact (h.stop_le _ i hlt).2 hstop

theorem firstCodeIn?_eq (r : Range) : s'.firstCodeIn? (r.mapOffsets f) = s.firstCodeIn? r := by
  ext i
  simp only [firstCodeIn?_eq_some_iff h.ordered, firstCodeIn?_eq_some_iff h.ordered', h.codeIn_iff]

theorem lastCodeIn?_eq (r : Range) : s'.lastCodeIn? (r.mapOffsets f) = s.lastCodeIn? r := by
  ext i
  simp only [lastCodeIn?_eq_some_iff h.ordered, lastCodeIn?_eq_some_iff h.ordered', h.codeIn_iff]

theorem firstOf?_eq (c : Cursor) : s'.firstOf? (c.mapOffsets f) = s.firstOf? c := by
  rw [firstOf?, firstOf?, Cursor.range_mapOffsets, h.firstCodeIn?_eq]

theorem lastOf?_eq (c : Cursor) : s'.lastOf? (c.mapOffsets f) = s.lastOf? c := by
  rw [lastOf?, lastOf?, Cursor.range_mapOffsets, h.lastCodeIn?_eq]

theorem spanOfNode?_eq (c : Cursor) : s'.spanOfNode? (c.mapOffsets f) = s.spanOfNode? c := by
  simp only [spanOfNode?, spanOf?, Cursor.range_mapOffsets, h.firstCodeIn?_eq, h.lastCodeIn?_eq]

theorem headOf?_eq (c : Cursor) : s'.headOf? (c.mapOffsets f) = s.headOf? c := by
  rw [headOf?, headOf?, Cursor.kind_mapOffsets, Cursor.fieldChild?_mapOffsets, h.firstOf?_eq]
  cases c.fieldChild? "parameters" with
  | none => rfl
  | some parameters => simp only [Option.map_some, h.firstOf?_eq]

end Parallels

namespace Tracks

variable {f : Nat → Nat} {s s' : TokenStream} (h : s.Tracks f s')
include h

theorem isPunctuator_eq (i : Nat) (text : Text) :
    s'.isPunctuator i text = s.isPunctuator i text := by
  rw [isPunctuator, isPunctuator, h.kind_eq, h.text_eq]

/-- The token that starts where a place starts, if the place starts within a token. -/
theorem startOf?_eq {c : Cursor} (hc : s.Covers c.range.start) :
    s'.startOf? (c.mapOffsets f) = s.startOf? c := by
  ext i
  rw [startOf?, startOf?, Cursor.range_mapOffsets, startingAt?_eq_some_iff h.ordered,
    startingAt?_eq_some_iff h.ordered', h.size_eq]
  exact and_congr_right fun hi => h.start_eq _ hc i hi

end Tracks

end TokenStream

end Indentation
