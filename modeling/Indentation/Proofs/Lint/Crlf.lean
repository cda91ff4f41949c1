import Indentation.Proofs.Lint.Mirrored
import Indentation.Proofs.Lint.Pass
import Indentation.Proofs.Token.Crlf

/-!
# Linting a text with CR LF

Whether lines end with LF or with CR LF makes no difference to a linter: it finds the same, at the same
lines and columns, and a pass of fixes leaves the same text.
-/

namespace Indentation

open Text

/-! ## Edits -/

namespace Edit

variable {f : Nat → Nat}

theorem clearOf_mapOffsets (hf : StrictMono f) (kept : List Edit) (e : Edit) :
    clearOf (kept.map (mapOffsets f)) (e.mapOffsets f) = clearOf kept e := by
  have hle : ∀ k : Edit, (e.mapOffsets f).range.stop ≤ (k.mapOffsets f).range.start ↔
      e.range.stop ≤ k.range.start := by
    intro k
    rw [mapOffsets, mapOffsets, Range.stop_mapOffsets hf.monotone, Range.start_mapOffsets,
      hf.le_iff_le]
  simp only [clearOf, List.all_map, Function.comp_def, hle]

/-- The same edits are selected at other offsets. -/
theorem select_mapOffsets (hf : StrictMono f) (es : List Edit) :
    select (es.map (mapOffsets f)) = (select es).map (mapOffsets f) := by
  have hsort : (es.map (mapOffsets f)).mergeSort (fun a b => b.range.start ≤ a.range.start) =
      (es.mergeSort fun a b => b.range.start ≤ a.range.start).map (mapOffsets f) := by
    symm
    refine List.map_mergeSort fun a _ b _ => ?_
    simp only [mapOffsets, Range.start_mapOffsets, hf.le_iff_le]
  rw [select, select, hsort, List.foldl_map]
  have hstep : ∀ (kept : List Edit) (e : Edit),
      (if clearOf (kept.map (mapOffsets f)) (e.mapOffsets f) then
        kept.map (mapOffsets f) ++ [e.mapOffsets f] else kept.map (mapOffsets f)) =
      (if clearOf kept e then kept ++ [e] else kept).map (mapOffsets f) := by
    intro kept e
    rw [clearOf_mapOffsets hf]
    split <;> simp
  change List.foldl _ (List.map (mapOffsets f) []) _ = _
  exact List.foldl_hom _ hstep

/-- Edits of a text with CR LF leave what they leave of the text, with CR LF. -/
theorem applyAll_crlf (hmono : Monotone f) {t : Text} {es : List Edit} (hd : Descending es)
    (hes : ∀ e ∈ es, Fits t e) (hflat : ∀ e ∈ es, (e.content.getD []).Flat)
    (hf : ∀ a b, t = a ++ b → (∃ e ∈ es, size a ≤ e.range.stop) → f (size a) = size a.crlf) :
    applyAll t.crlf (es.map (mapOffsets f)) = (applyAll t es).map crlf := by
  induction es generalizing t with
  | nil => rfl
  | cons e es ih =>
    obtain ⟨u, m, v, rfl, hu, hm⟩ := hes e List.mem_cons_self
    have hle := e.range.start_le_stop
    have hstart : size u.crlf = (e.mapOffsets f).range.start := by
      rw [← hf u (m ++ v) (List.append_assoc ..) ⟨e, List.mem_cons_self, by omega⟩, hu]
      rfl
    have hstop : size (u.crlf ++ m.crlf) = (e.mapOffsets f).range.stop := by
      rw [← crlf_append, ← hf (u ++ m) v rfl ⟨e, List.mem_cons_self, by omega⟩, hm]
      exact (Range.stop_mapOffsets hmono _).symm
    have hcontent : u.crlf ++ ((e.mapOffsets f).content.getD [] ++ v.crlf) =
        crlf (u ++ (e.content.getD [] ++ v)) := by
      rw [crlf_append, crlf_append, (hflat e List.mem_cons_self).crlf_eq]
      rfl
    have hbefore := (List.pairwise_cons.1 hd).1
    rw [List.map_cons, crlf_append, crlf_append, applyAll_cons _ hstart hstop, applyAll_cons es hu hm,
      hcontent]
    refine ih (List.pairwise_cons.1 hd).2 (fits_of_descending hu hd fun d hd' =>
      hes d (List.mem_cons_of_mem e hd')) (fun d hd' => hflat d (List.mem_cons_of_mem e hd')) ?_
    -- what the other edits are about stands before this one and is part of the text as it was
    rintro a b hab ⟨d, hd', hsize⟩
    have hdu := hbefore d hd'
    obtain ⟨w, rfl, -⟩ : ∃ w, u = a ++ w ∧ b = w ++ (e.content.getD [] ++ v) :=
      exists_between hab.symm (by omega)
    exact hf a (w ++ (m ++ v)) (by simp) ⟨d, List.mem_cons_of_mem e hd', hsize⟩

end Edit

/-! ## A lint and a pass -/

namespace Linter

/-- What a linter says of a text and does to it, it says of the text with CR LF and does to it. -/
structure AlikeWithCrlf (l : Linter) (round : Nat) (source : Text) (tree : Node) : Prop where
  /-- The findings are the same, messages included, at the same places of the text. -/
  lint : l.lintTree round source.crlf (tree.crlf source) =
    (l.lintTree round source tree).map (List.map (Finding.mapOffsets source.crlfOffset))
  /-- These places are at the same lines and columns. -/
  places : ∀ found, l.lintTree round source tree = .ok found → ∀ x ∈ found,
    ∀ p ∈ [x.violation.range.start, x.violation.range.stop],
      (Lines.of source.crlf).lineColumn source.crlf (source.crlfOffset p) =
        (Lines.of source).lineColumn source p
  /-- A pass of fixes leaves the same text. -/
  pass : ∀ found, l.lintTree round source tree = .ok found → ∀ level, ∃ fixed,
    Edit.applyAll source (Edit.select (wantedEdits level found)) = .ok fixed ∧
      Edit.applyAll source.crlf (Edit.select (wantedEdits level
        (found.map (Finding.mapOffsets source.crlfOffset)))) = .ok fixed.crlf
  /-- The directives put the same rules off at the same places. -/
  holds : ∀ s s', TokenStream.ofTree source tree = .ok s →
    TokenStream.ofTree source.crlf (tree.crlf source) = .ok s' →
      ∀ rule a b, source = a ++ b →
        (Suppression.ofTokens s').holds rule (size a.crlf) =
          (Suppression.ofTokens s).holds rule (size a)

variable {l : Linter} {round : Nat} {source : Text} {tree : Node} {s : TokenStream}

/-- The edits of a lint are about margins of tokens. -/
theorem fits_of_mem_wantedEdits (hl : l.Indents) (hclean : tree.tainted = false)
    (hs : TokenStream.ofTree source tree = .ok s) (hcut : s.CutFrom source tree.pieces)
    {found : List Finding} (hfound : l.lintTree round source tree = .ok found) {level : Applicability}
    {e : Edit} (he : e ∈ wantedEdits level found) : Edit.Fits source e ∧ (e.content.getD []).Flat := by
  obtain ⟨o, ms, hms, m, hm, rfl⟩ :=
    exists_mismatch_of_mem_wantedEdits hclean hl (IndentRule.document_of hs) hfound he
  obtain ⟨g, widths, rfl⟩ := IndentRule.exists_all_of_mismatches hms
  obtain ⟨t, ht, rfl, -⟩ := Mismatch.mem_all.1 hm
  obtain ⟨u, b, hsource, -, -, hstart, hstop⟩ := hcut.exists_margin ht
  rw [Edit.Fits, Edit.range_replacement, Edit.getD_content_replacement]
  exact ⟨⟨u, _, _, hsource, hstart, hstop⟩, flat_fill _ _⟩

/-- Line ends do not matter. -/
theorem alikeWithCrlf (h : tree.Fits source) (hcr : '\r' ∉ source) (hclean : tree.tainted = false)
    (hl : l.Indents) (round : Nat) : l.AlikeWithCrlf round source tree := by
  obtain ⟨s, s', hs, hs', hcut, hcut', hmirrors⟩ := h.exists_mirrors_crlf hcr
  have hd := IndentRule.document_of hs
  have hholds := fun rule {a b} => Suppression.holds_crlf hcr hcut hcut' hmirrors rule (a := a) (b := b)
  have hcuts : ∀ i < s.size, ∃ a b, source = a ++ (s.token i).text ++ b ∧
      (s.token i).start = size a ∧ (s.token i).stop = size (a ++ (s.token i).text) := by
    intro i hi
    obtain ⟨x, -, hx⟩ := hcut.getElem_cut hi
    obtain ⟨a, b, hsource, hstart, hstop, -⟩ := hx.parts
    exact ⟨a, b, hsource, hx.start_eq.trans hstart.symm, hx.stop_eq.trans hstop.symm⟩
  constructor
  · refine lintTree_mirrored hmirrors hl hclean hs hs' (fun rule i hi => ?_) round
    obtain ⟨a, b, hsource, hstart, -⟩ := hcuts i hi
    rw [List.append_assoc] at hsource
    rw [hmirrors.start_eq hi, hstart, crlfOffset_size hsource]
    exact hholds rule hsource
  · intro found hfound x hx p hp
    obtain ⟨active, hactive, violations, hcheck, v, hv, hrange, -⟩ :=
      exists_of_mem_lintTree hclean hd hfound hx
    obtain ⟨o, ho⟩ := hl active hactive
    rw [ho] at hcheck
    obtain ⟨t, ht, hvt⟩ := IndentRule.exists_of_mem_check hcheck hv
    obtain ⟨a, b, hsource, hstart, hstop⟩ := hcuts t ht
    obtain ⟨c, d, rfl, rfl⟩ : ∃ c d, source = c ++ d ∧ p = size c := by
      rw [hrange, hvt] at hp
      rcases List.mem_pair.1 hp with rfl | rfl
      · exact ⟨a, _, hsource.trans (List.append_assoc ..), hstart⟩
      · exact ⟨_, b, hsource, hstop⟩
    rw [crlfOffset_append, Lines.lineColumn_crlf hcr]
  · intro found hfound level
    have hmem : ∀ e ∈ Edit.select (wantedEdits level found),
        Edit.Fits source e ∧ (e.content.getD []).Flat := fun e he =>
      fits_of_mem_wantedEdits hl hclean hs hcut hfound (Edit.mem_of_mem_select he)
    have hdesc := Edit.descending_select (wantedEdits level found)
    obtain ⟨fixed, happly⟩ := Edit.exists_applyAll_of_fits hdesc fun e he => (hmem e he).1
    refine ⟨fixed, happly, ?_⟩
    have hmono := strictMono_crlfOffset source
    rw [wantedEdits_mapOffsets, Edit.select_mapOffsets hmono, Edit.applyAll_crlf hmono.monotone hdesc
      (fun e he => (hmem e he).1) (fun e he => (hmem e he).2) (fun a b hab _ => crlfOffset_size hab),
      happly]
    rfl
  · intro t t' ht ht' rule a b hsource
    obtain rfl : s = t := Except.ok.inj (hs.symm.trans ht)
    obtain rfl : s' = t' := Except.ok.inj (hs'.symm.trans ht')
    exact hholds rule hsource

/-- The standard linter of a block around a name on a line of its own. -/
theorem alikeWithCrlf_sampleTree :
    Linter.AlikeWithCrlf ⟨[⟨IndentRule.rule .standard, true⟩]⟩ 0 IndentRule.sampleText
      IndentRule.sampleTree :=
  alikeWithCrlf IndentRule.fits_sampleTree (by decide) rfl
    (fun active hactive => ⟨.standard, by rw [List.mem_singleton.1 hactive]⟩) 0

end Linter

end Indentation
