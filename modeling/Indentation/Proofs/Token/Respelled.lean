import Indentation.Proofs.Directive.Carried
import Indentation.Proofs.Text.Respelled
import Indentation.Proofs.Token.Leaves
import Indentation.Proofs.Token.Mirrors

/-!
# Tokens of texts that spell words differently

A tree with other words in its leaves, but with the same comments, makes a stream that looks alike.  No
token starts or ends inside a leaf, so a token has the words of its text spelled in the other way.
-/

namespace Indentation

open Text Lines

namespace Node

/-- A leaf has this range. -/
def IsLeafAt (tree : Node) (p q : Nat) : Prop :=
  ∃ c ∈ tree.preorder, c.children = [] ∧ c.range.start = p ∧ c.range.stop = q

/-- Two texts of one tree that differ only inside leaves, such as identifiers, where one has a word and the
other another word of the same length.  They have the same comments. -/
structure Respelled (tree : Node) (source source' : Text) : Prop where
  words : Respells tree.IsLeafAt 0 source source'
  comments : ∀ c ∈ tree.preorder, Form.ofKind? c.kind = some .comment →
    Text.slice source' c.range = Text.slice source c.range

variable {tree : Node} {source source' : Text}

/-- An offset that is inside no leaf. -/
def IsOutside (tree : Node) (n : Nat) : Prop := ∀ p q, tree.IsLeafAt p q → ¬(p < n ∧ n < q)

theorem Nested.isOutside (h : tree.Nested) {c : Cursor} (hc : c ∈ tree.preorder) :
    tree.IsOutside c.range.start ∧ tree.IsOutside c.range.stop := by
  constructor
  all_goals
    rintro _ _ ⟨d, hd, hleaf, rfl, rfl⟩
  · exact (h.not_inside_leaf hc hd hleaf).1
  · exact (h.not_inside_leaf hc hd hleaf).2

theorem Fits.isOutside (h : tree.Fits source) {x : Lexeme} (hx : x ∈ tree.lexemes) :
    tree.IsOutside x.start ∧ tree.IsOutside x.stop :=
  ends_of_mem_lexemes h.substituted (fun _ hc => h.toNested.isOutside hc) tree.mem_preorder_self hx

/-- The tree fits the other text, too. -/
theorem Fits.respelled (h : tree.Fits source) (hr : tree.Respelled source source') :
    tree.Fits source' where
  toNested := h.toNested
  substituted := h.substituted
  cuts := by
    have hcut : ∀ n, tree.IsOutside n → source.Cuts n → source'.Cuts n := by
      intro n hn hcut
      obtain ⟨a, b, rfl, rfl⟩ := cuts_iff.1 hcut
      obtain ⟨a', b', rfl, ha, -⟩ := hr.words.exists_cut_outside rfl hn
      exact cuts_iff.2 ⟨a', b', rfl, ha.size_eq⟩
    intro c hc
    have hout := h.toNested.isOutside hc
    exact ⟨hcut _ hout.1 (h.cuts c hc).1, hcut _ hout.2 (h.cuts c hc).2⟩

/-- A comment is the same in both texts. -/
theorem Respelled.comment_eq (hr : tree.Respelled source source') (h : tree.Fits source) {x : Lexeme}
    (hx : x ∈ tree.lexemes) (hform : x.form = .comment) {t t' : Token} (ht : t.CutFrom source x)
    (ht' : t'.CutFrom source' x) : t'.text = t.text := by
  obtain ⟨e, he, horigin⟩ := Cursor.origin h.substituted tree.mem_preorder_self hx
  rcases horigin with ⟨hkind, hstart, hstop⟩ | ⟨-, rfl⟩ | ⟨-, hpart, -⟩
  · obtain ⟨a, b, hsource, ha, hat, -⟩ := ht.parts
    obtain ⟨a', b', hsource', ha', hat', -⟩ := ht'.parts
    have hslice : Text.slice source e.range = .ok t.text :=
      slice_eq_ok_iff.2 ⟨a, b, hsource, ha.trans hstart, hat.trans hstop⟩
    have hslice' : Text.slice source' e.range = .ok t'.text :=
      slice_eq_ok_iff.2 ⟨a', b', hsource', ha'.trans hstart, hat'.trans hstop⟩
    have hsame := hr.comments e (mem_preorder_iff.2 he) (hkind.trans (congrArg some hform))
    rw [hslice, hslice'] at hsame
    exact Except.ok.inj hsame
  · cases hform
  · rw [hpart] at hform
    cases hform

end Node

/-! ## Tokens -/

namespace Token.CutFrom

variable {tree : Node} {source source' : Text} {x : Lexeme} {t t' : Token}
  (ht : t.CutFrom source x) (ht' : t'.CutFrom source' x) (h : tree.Fits source)
  (hr : tree.Respelled source source') (hx : x ∈ tree.lexemes)
include ht ht' h hr hx

/-- A token and what stands before it are spelled in the other way. -/
theorem exists_respelled : ∃ a b a', source = a ++ t.text ++ b ∧ size a = x.start ∧
    size (a ++ t.text) = x.stop ∧ t.margin = Lexeme.lastLine a ∧ t'.margin = Lexeme.lastLine a' ∧
    Respells tree.IsLeafAt 0 a a' ∧ Respells tree.IsLeafAt (size a) t.text t'.text := by
  obtain ⟨hstartout, hstopout⟩ := h.isOutside hx
  obtain ⟨a, b, hsource, hstart, hstop, hmargin⟩ := ht.parts
  obtain ⟨c, d, hsource', hstart', hstop', hmargin'⟩ := ht'.parts
  rw [← hstart] at hstartout
  rw [← hstop] at hstopout
  obtain ⟨u, v, huv, hu, -⟩ := hr.words.exists_cut_outside hsource hstopout
  obtain ⟨a', w, rfl, ha, hw⟩ := hu.exists_cut_outside rfl hstartout
  have hbefore : a' = c ∧ w ++ v = t'.text ++ d := by
    refine append_inj_of_size ?_ (by rw [ha.size_eq, hstart, hstart'])
    rw [← List.append_assoc, ← huv, hsource', List.append_assoc]
  obtain ⟨rfl, hrest⟩ := hbefore
  have htext : size w = size t'.text := by
    have hsize := hu.size_eq
    rw [hstop, ← hstop', size_append, size_append] at hsize
    omega
  obtain ⟨rfl, -⟩ := append_inj_of_size hrest htext
  exact ⟨a, b, a', hsource, hstart, hstop, hmargin, hmargin', ha, hw⟩

/-- Nothing that is measured tells a token from the one with the other words. -/
theorem mirrors_respelled : t.Mirrors id t' := by
  obtain ⟨a, b, a', hsource, hstart, hstop, hmargin, hmargin', ha, htext⟩ :=
    ht.exists_respelled ht' h hr hx
  have hout := (h.isOutside hx).1
  rw [List.append_assoc] at hsource
  rw [← hstart] at hout
  have hstarts : t'.start = t.start := ht'.start_eq.trans ht.start_eq.symm
  exact {
    isComment_eq := isComment_congr ht.kind_eq ht'.kind_eq
    isSign_eq := fun c hc => isSign_congr ht.kind_eq ht'.kind_eq (by
      have hword : isWordChar c = false := by
        rcases TokenStream.mem_signs.1 hc with rfl | rfl | rfl <;> rfl
      rw [← blur_eq_singleton hword, htext.blur_eq, blur_eq_singleton hword])
    directive_eq := directive_congr ht.kind_eq ht'.kind_eq fun hform => by
      rw [hr.comment_eq h hx hform ht ht']
    startLine_eq := by rw [ht'.startLine_eq, ht.startLine_eq, of_respelled hr.words]
    endLine_eq := by rw [ht'.endLine_eq, ht.endLine_eq, of_respelled hr.words]
    column_eq := by
      have hcolumn := column_respelled hr.words hsource hout
      rw [hstart, ht.column_eq, ht'.column_eq] at hcolumn
      exact Except.ok.inj hcolumn
    measure_eq := by
      rw [hmargin, hmargin', ← measure_blur, ha.blur_lastLine_eq, measure_blur]
    isBlank_eq := by
      rw [hmargin, hmargin', ← all_isBlank_blur, ha.blur_lastLine_eq, all_isBlank_blur]
    range_eq := by
      rw [Range.mapOffsets_id]
      exact Range.ext hstarts (ht'.stop_eq.trans ht.stop_eq.symm)
    marginRange_eq := by
      rw [Range.mapOffsets_id]
      refine Range.ext ?_ hstarts
      change t'.lineStart = t.lineStart
      rw [Token.lineStart, Token.lineStart, hstarts, hmargin, hmargin', ha.size_lastLine_eq] }

end Token.CutFrom

/-! ## The stream -/

namespace Node

variable {tree : Node} {source source' : Text}

/-- The streams of two spellings look alike. -/
theorem Fits.exists_mirrors_respelled (h : tree.Fits source) (hr : tree.Respelled source source') :
    ∃ s s', TokenStream.ofTree source tree = .ok s ∧ TokenStream.ofTree source' tree = .ok s' ∧
      s.CutFrom source tree.pieces ∧ s'.CutFrom source' tree.pieces ∧ s.Mirrors id s' := by
  have hfits := h.respelled hr
  have hcount : (Lines.of source').count = (Lines.of source).count := by rw [of_respelled hr.words]
  rw [← mapOffsets_id tree] at hfits
  have hmirrors := h.exists_mirrors hfits strictMono_id hcount fun x hx t t' ht ht' =>
    ht.mirrors_respelled ht' h hr (mem_pieces_iff.1 hx).1
  rwa [mapOffsets_id] at hmirrors

end Node

namespace Suppression

variable {tree : Node} {source source' : Text} (hr : tree.Respelled source source')
include hr

theorem sameLines_respelled : SameLines Eq source source' where
  lineStart line _ := by
    rintro q _ rfl
    rw [lineStart_respelled hr.words]
  lineEnd line _ := by
    rintro q _ rfl
    rw [lineEnd_respelled hr.words]
  size := by
    rintro q _ rfl
    rw [hr.words.size_eq]

/-- The same places are suppressed. -/
theorem holds_respelled {s s' : TokenStream} (hs : s.CutFrom source tree.pieces)
    (hs' : s'.CutFrom source' tree.pieces) (h : s.Mirrors id s') (rule : Text) (p : Nat) :
    (ofTokens s').holds rule p = (ofTokens s).holds rule p := by
  refine holds_eq_of_point (sameLines_respelled hr) h.parallels hs.source_eq hs'.source_eq
    (fun i hi => ?_) (fun i hi => ?_) rule rfl
  · rintro q _ rfl
    rw [h.start_eq hi, id]
  · rw [h.start_eq hi, id, of_respelled hr.words]

end Suppression

end Indentation
