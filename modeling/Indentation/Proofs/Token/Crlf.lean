import Indentation.Proofs.Directive.Carried
import Indentation.Proofs.Directive.Crlf
import Indentation.Proofs.Token.Carried
import Indentation.Proofs.Token.Mirrors

/-!
# Tokens of a text with CR LF

The tokens of a text with CR LF are those of the text, with CR LF in them.  They stand on the same lines
behind the same margins, and their comments put rules off at the same places.
-/

namespace Indentation

open Text Lines

/-- What is no terminator stands alone in a text just if it does with CR LF. -/
theorem Text.crlf_eq_singleton {c : Char} (h : Lexeme.isTerminator c = false) {t : Text} :
    crlf t = [c] ↔ t = [c] := by
  have hflat : Flat [c] := fun d hd => by rwa [List.mem_singleton.1 hd]
  have hc := hflat.ne_of_mem List.mem_cons_self
  constructor
  · intro heq
    cases t with
    | nil => cases heq
    | cons d t =>
      by_cases hd : d = '\n'
      · rw [hd, crlf_cons_lf, List.cons.injEq] at heq
        exact absurd heq.1.symm hc.2
      · rw [crlf_cons_of_ne hd, List.cons.injEq, crlf_eq_nil] at heq
        rw [heq.1, heq.2]
  · rintro rfl
    exact hflat.crlf_eq

namespace Form

theorem classify_comment (text : Text) : classify .comment text =
    if (after? ['/', '*'] text).isSome then .blockComment else .lineComment := by
  cases h : after? ['/', '*'] text with
  | some rest =>
    rw [after?_eq_some_iff.1 h]
    rfl
  | none =>
    have hne : ∀ rest, text = '/' :: '*' :: rest → False := by
      rintro rest rfl
      simp [after?] at h
    rw [classify]
    · rfl
    · exact hne

theorem classify_comment_crlf (text : Text) :
    classify .comment (crlf text) = classify .comment text := by
  rw [classify_comment, classify_comment, after?_crlf (by decide), Option.isSome_map]

end Form

/-! ## Tokens -/

theorem Token.lineStart_of_parts {t : Token} {a : Text} (hstart : t.start = size a)
    (hmargin : t.margin = Lexeme.lastLine a) : t.lineStart = size (earlierLines a) := by
  have hsize := congrArg size (earlierLines_append_lastLine a)
  rw [size_append] at hsize
  rw [Token.lineStart, hstart, hmargin]
  omega

namespace Token.CutFrom

variable {source : Text} {x : Lexeme} {t t' : Token} (h : t.CutFrom source x)
  (h' : t'.CutFrom source.crlf (x.mapOffsets source.crlfOffset))
include h h'

theorem start_crlf : t'.start = source.crlfOffset t.start :=
  h'.start_eq.trans (congrArg _ h.start_eq.symm)

theorem stop_crlf : t'.stop = source.crlfOffset t.stop :=
  h'.stop_eq.trans (congrArg _ h.stop_eq.symm)

/-- A token is cut from the text with CR LF where it is cut from the text. -/
theorem exists_crlf : ∃ a b, source = a ++ t.text ++ b ∧ t'.text = crlf t.text ∧
    t.start = size a ∧ t'.start = size (crlf a) ∧
    t.stop = size (a ++ t.text) ∧ t'.stop = size (crlf (a ++ t.text)) ∧
    t.margin = Lexeme.lastLine a ∧ t'.margin = Lexeme.lastLine (crlf a) := by
  obtain ⟨a, b, hsource, hstart, hstop, hmargin⟩ := h.parts
  obtain ⟨a', b', hsource', hstart', hstop', hmargin'⟩ := h'.parts
  rw [← h.start_eq] at hstart
  rw [← h.stop_eq] at hstop
  rw [← h'.start_eq, h.start_crlf h', ← hstart, crlfOffset_size (hsource.trans (List.append_assoc ..))]
    at hstart'
  rw [← h'.stop_eq, h.stop_crlf h', ← hstop, crlfOffset_size hsource] at hstop'
  have hcrlf : crlf a ++ (crlf t.text ++ crlf b) = a' ++ (t'.text ++ b') := by
    rw [← List.append_assoc, ← crlf_append, ← crlf_append, ← hsource, hsource', List.append_assoc]
  obtain ⟨rfl, hrest⟩ := append_inj_of_size hcrlf hstart'.symm
  have htext : size (crlf t.text) = size t'.text := by
    rw [crlf_append, size_append, size_append] at hstop'
    omega
  refine ⟨a, b, hsource, (append_inj_of_size hrest htext).1.symm, hstart.symm, ?_, hstop.symm, ?_,
    hmargin, hmargin'⟩
  · rw [h.start_crlf h', ← hstart, crlfOffset_size (hsource.trans (List.append_assoc ..))]
  · rw [h.stop_crlf h', ← hstop, crlfOffset_size hsource]

/-- Nothing that is measured tells a token from the one of the text with CR LF. -/
theorem mirrors_crlf (hcr : '\r' ∉ source) : t.Mirrors source.crlfOffset t' := by
  have hmono := (strictMono_crlfOffset source).monotone
  obtain ⟨a, b, hsource, htext, hstart, hstart', hstop, hstop', hmargin, hmargin'⟩ := h.exists_crlf h'
  have hsame : t'.margin = t.margin := by rw [hmargin', hmargin, (lastLine_crlf a).1]
  have hbefore : source = a ++ (t.text ++ b) := hsource.trans (List.append_assoc ..)
  have hkind' : t'.kind = x.form.classify t'.text := h'.kind_eq
  exact {
    isComment_eq := isComment_congr h.kind_eq hkind'
    isSign_eq := fun c hc => isSign_congr h.kind_eq hkind' (by
      rw [htext]
      apply crlf_eq_singleton
      rcases TokenStream.mem_signs.1 hc with rfl | rfl | rfl <;> rfl)
    directive_eq := directive_congr h.kind_eq hkind' fun hform => by
      rw [hform, htext, Form.classify_comment_crlf, Directive.ofComment?_crlf]
    startLine_eq := by
      rw [h'.startLine_eq, h.startLine_eq, ← h'.start_eq, ← h.start_eq, hstart, hstart', hbefore,
        lineOf_crlf (hbefore ▸ hcr)]
    endLine_eq := by
      rw [h'.endLine_eq, h.endLine_eq, ← h'.stop_eq, ← h.stop_eq, hstop, hstop']
      conv_lhs => rw [hsource]
      conv_rhs => rw [hsource]
      exact lineOf_crlf (hsource ▸ hcr)
    column_eq := by
      have hcolumn := column_crlf (hbefore ▸ hcr)
      rw [← hbefore, ← hstart, ← hstart', h.start_eq, h'.start_eq, h.column_eq, h'.column_eq] at hcolumn
      exact Except.ok.inj hcolumn
    measure_eq := by rw [hsame]
    isBlank_eq := by rw [hsame]
    range_eq := Range.ext (h.start_crlf h') ((h.stop_crlf h').trans (Range.stop_mapOffsets hmono _).symm)
    marginRange_eq := by
      have hearlier : source = earlierLines a ++ (Lexeme.lastLine a ++ (t.text ++ b)) := by
        rw [← List.append_assoc, earlierLines_append_lastLine, hbefore]
      ext
      · change t'.lineStart = source.crlfOffset t.lineStart
        rw [lineStart_of_parts hstart hmargin, lineStart_of_parts hstart' hmargin', (lastLine_crlf a).2,
          crlfOffset_size hearlier]
      · rw [Range.stop_mapOffsets hmono]
        exact h.start_crlf h' }

end Token.CutFrom

/-! ## The stream -/

namespace Node

/-- The tree of a text with CR LF. -/
def crlf (source : Text) (tree : Node) : Node := tree.mapOffsets source.crlfOffset

variable {source : Text} {tree : Node}

theorem Fits.crlf (h : tree.Fits source) : (tree.crlf source).Fits source.crlf := by
  refine h.mapOffsets (strictMono_crlfOffset source).monotone fun p hp => ?_
  obtain ⟨a, b, rfl, rfl⟩ := cuts_iff.1 hp
  exact cuts_iff.2 ⟨a.crlf, b.crlf, crlf_append a b, (crlfOffset_append a b).symm⟩

/-- The stream of a text and that of the text with CR LF. -/
theorem Fits.exists_mirrors_crlf (h : tree.Fits source) (hcr : '\r' ∉ source) :
    ∃ s s', TokenStream.ofTree source tree = .ok s ∧
      TokenStream.ofTree source.crlf (tree.crlf source) = .ok s' ∧
      s.CutFrom source tree.pieces ∧ s'.CutFrom source.crlf (tree.crlf source).pieces ∧
        s.Mirrors source.crlfOffset s' :=
  h.exists_mirrors h.crlf (strictMono_crlfOffset source) (count_crlf hcr)
    fun _ _ _ _ hcut hcut' => hcut.mirrors_crlf hcut' hcr

end Node

/-! ## Suppression -/

namespace Suppression

/-- A cut of a text and the same cut of the text with CR LF. -/
def CutsOfCrlf (source : Text) (q q' : Nat) : Prop :=
  ∃ a b, source = a ++ b ∧ q = size a ∧ q' = size a.crlf

theorem sameSide_cut {a b : Text} : SameSide (CutsOfCrlf (a ++ b)) (size a) (size a.crlf) := by
  rintro _ _ ⟨c, d, hcd, rfl, rfl⟩
  rw [size_crlf_le_iff hcd]

variable {source : Text} (hcr : '\r' ∉ source)
include hcr

/-- The lines of a text hold the same cuts with CR LF. -/
theorem sameLines_crlf : SameLines (CutsOfCrlf source) source source.crlf where
  lineStart line hline := by
    rintro _ _ ⟨a, b, rfl, rfl, rfl⟩
    by_cases hb : b = []
    · subst hb
      rw [List.append_nil]
      exact iff_of_true (lineStart_le_size hline) (lineStart_le_size hline)
    · have hpos := size_pos hb
      have hpos' : 0 < size b.crlf := size_pos (mt crlf_eq_nil.1 hb)
      rw [lineStart_le_iff hline (by rw [size_append]; omega),
        lineStart_le_iff hline (by rw [crlf_append, size_append]; omega), lineOf_crlf hcr]
  lineEnd line hline := by
    rintro _ _ ⟨a, b, rfl, rfl, rfl⟩
    have ha : '\r' ∉ a := fun hmem => hcr (List.mem_append_left b hmem)
    have hiff := le_lineEnd_iff hline (not_partsPair_of_not_mem (b := b) ha)
    have hiff' := le_lineEnd_iff hline (not_partsPair_crlf a.crlf b)
    rw [← crlf_append, lineOf_crlf hcr, ← hiff] at hiff'
    omega
  size := by
    rintro _ _ ⟨a, b, rfl, rfl, rfl⟩
    rw [crlf_append, size_append, size_append]
    omega

variable {tree : Node} {s s' : TokenStream} (hs : s.CutFrom source tree.pieces)
  (hs' : s'.CutFrom source.crlf (tree.crlf source).pieces) (h : s.Mirrors source.crlfOffset s')
include hs hs' h

/-- The directives of a text put rules off at the same places with CR LF. -/
theorem holds_crlf (rule : Text) {a b : Text} (hsource : source = a ++ b) :
    (ofTokens s').holds rule (size a.crlf) = (ofTokens s).holds rule (size a) := by
  have hcut : ∀ i < s.size, ∃ c d, source = c ++ d ∧ (s.token i).start = size c ∧
      (s'.token i).start = size c.crlf := by
    intro i hi
    obtain ⟨x, -, hx⟩ := hs.getElem_cut hi
    obtain ⟨c, d, hcd, hstart, -⟩ := hx.parts
    rw [List.append_assoc] at hcd
    rw [← hx.start_eq] at hstart
    exact ⟨c, _, hcd, hstart.symm, by rw [h.start_eq hi, ← hstart, crlfOffset_size hcd]⟩
  refine holds_eq_of_point (sameLines_crlf hcr) h.parallels hs.source_eq hs'.source_eq (fun i hi => ?_)
    (fun i hi => ?_) rule ⟨a, b, hsource, rfl, rfl⟩
  · obtain ⟨c, d, rfl, hstart, hstart'⟩ := hcut i hi
    rw [hstart, hstart']
    exact sameSide_cut
  · obtain ⟨c, d, rfl, hstart, hstart'⟩ := hcut i hi
    rw [hstart, hstart', lineOf_crlf hcr]

end Suppression

end Indentation
