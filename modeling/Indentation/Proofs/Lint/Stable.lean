import Indentation.Proofs.Directive.Carried
import Indentation.Proofs.Layout.Carried
import Indentation.Proofs.Lint.Pass
import Indentation.Proofs.Token.Carried

/-!
# One pass is enough

Where no list looks at columns, the graph of a text is the graph of the text that a pass leaves, and so
are the widths that it prescribes.  The pass has given every line that was reported the margin that it
should have and has left the other lines alone, so there is nothing left to report.
-/

namespace Indentation

/-- Indentation fits its own width and no other. -/
theorem Margin.measure_fill (c : IndentChar) (n width : Nat) :
    (Margin.measure (Text.fill c.char n)).fits c width = (n == width) := by
  have hlead : (Text.fill c.char n).takeWhile (fun d => d = ' ' || d = '\t') =
      List.replicate n c.char := by
    rw [Text.fill, List.takeWhile_eq_self_iff]
    intro d hd
    rw [List.eq_of_mem_replicate hd]
    cases c <;> rfl
  have hmeasure : Margin.measure (Text.fill c.char n) =
      ⟨(List.replicate n c.char).count ' ', (List.replicate n c.char).count '\t'⟩ := by
    rw [← hlead]
    rfl
  rw [hmeasure]
  cases c <;> simp [fits, isMixed, good, bad, IndentChar.char, List.count_replicate]

namespace Mismatch

variable {s : TokenStream} {c : IndentChar} {g : Graph} {widths : Array Nat}

/-- Code and comments are merged in the order of the text, and no token is reported twice. -/
theorem pairwise_all :
    (all s c g widths).Pairwise fun m m' => m.token < m'.token := by
  have hids : s.ids.Nodup := List.nodup_range
  have hnodup : (s.codeIds.filter (isMisplaced s c g widths) ++
      s.commentIds.filter (isStray s c g widths)).Nodup := by
    refine List.nodup_append.2 ⟨(hids.filter _).filter _, (hids.filter _).filter _, ?_⟩
    rintro t ht _ hu rfl
    have h₁ := (List.mem_filter.1 (List.mem_filter.1 ht).1).2
    have h₂ := (List.mem_filter.1 (List.mem_filter.1 hu).1).2
    rw [h₂] at h₁
    cases h₁
  have hsorted : ((s.codeIds.filter (isMisplaced s c g widths) ++
      s.commentIds.filter (isStray s c g widths)).mergeSort fun a b => a ≤ b).Pairwise
        fun a b => decide (a ≤ b) = true :=
    List.pairwise_mergeSort
      (fun a b c hab hbc => by simp only [decide_eq_true_eq] at *; omega)
      (fun a b => by simp only [Bool.or_eq_true, decide_eq_true_eq]; omega) _
  have hne := (List.mergeSort_perm _ fun a b : Nat => decide (a ≤ b)).symm.pairwise hnodup
    fun hne => hne.symm
  exact List.pairwise_map.2 ((hsorted.and hne).imp fun h =>
    Nat.lt_of_le_of_ne (of_decide_eq_true h.1) h.2)

section

variable {s' : TokenStream} {f : Nat → Nat} {g' : Graph} {widths' : Array Nat} {t : Nat}
  (htracks : s.Tracks f s') (hmargin : (s'.token t).margin = (s.token t).margin)
include htracks hmargin

/-- The lines around a comment are the same, and it fits them as it did if they should stand where they
should have stood. -/
theorem isStray_of_margin_eq (hexempt : g'.isExempt t = g.isExempt t)
    (hfits : ∀ u, u = t ∨ lineBefore? s t = some u ∨ lineAfter? s t = some u →
      fits s' c widths' t u = fits s c widths t u)
    (h : isStray s' c g' widths' t = true) : isStray s c g widths t = true := by
  have hblank : s'.hasBlankMargin t = s.hasBlankMargin t := by
    rw [TokenStream.hasBlankMargin, TokenStream.hasBlankMargin, hmargin]
  have hbefore : lineBefore? s' t = lineBefore? s t := by
    rw [lineBefore?, lineBefore?, htracks.prevCode?_eq, funext htracks.leaderOf_eq]
  have hafter : lineAfter? s' t = lineAfter? s t := by
    simp only [lineAfter?, htracks.prevCode?_eq, htracks.nextCode?_eq, htracks.firstCode?_eq,
      funext htracks.leaderOf_eq]
  have hany : ∀ line : Option Nat, line = lineBefore? s t ∨ line = lineAfter? s t →
      line.any (fits s' c widths' t) = line.any (fits s c widths t) := by
    intro line hline
    cases line with
    | none => rfl
    | some u => exact hfits u (.inr (hline.imp Eq.symm Eq.symm))
  simpa only [isStray, hblank, hexempt, hbefore, hafter, hfits t (.inl rfl), hany _ (.inl rfl),
    hany _ (.inr rfl)] using h

/-- A token whose margin is the same is not where it should be only if it was not before, provided the
graph says the same of it and of the lines around it. -/
theorem mem_all_of_margin_eq (ht : t < s.size) (hexempt : g'.isExempt t = g.isExempt t)
    (hwidths : ∀ u, u = t ∨ lineBefore? s t = some u ∨ lineAfter? s t = some u →
      widths'.getD u 0 = widths.getD u 0)
    (hm : of s' widths' t ∈ all s' c g' widths') : of s widths t ∈ all s c g widths := by
  obtain ⟨u, -, hu, hbad⟩ := mem_all.1 hm
  obtain rfl : t = u := congrArg Mismatch.token hu
  have hfits : ∀ u, u = t ∨ lineBefore? s t = some u ∨ lineAfter? s t = some u →
      fits s' c widths' t u = fits s c widths t u := fun u hu => by
    rw [fits, fits, TokenStream.marginOf, TokenStream.marginOf, hmargin, hwidths u hu]
  refine mem_all.2 ⟨t, ht, rfl, ?_⟩
  rw [← htracks.isComment_eq]
  refine hbad.imp (And.imp_right fun hbad => ?_) (And.imp_right fun hbad => ?_)
  · simpa only [isMisplaced, htracks.leads_eq, hexempt, hfits t (.inl rfl)] using hbad
  · exact isStray_of_margin_eq htracks hmargin hexempt hfits hbad

end

end Mismatch

namespace IndentRule

variable {o : IndentOptions} {source : Text} {tree : Node} {s : TokenStream} {round : Nat}

theorem findings_nil {ms : List Mismatch} (h : reported s ms = []) : findings o s ms = [] := by
  rw [findings, h, List.map_nil, List.mergeSort_nil]

/-- Whatever is found is wanted. -/
theorem findings_eq_nil_of_wantedEdits {level : Applicability} {ms : List Mismatch}
    (h : Linter.wantedEdits level (findings o s ms) = []) : findings o s ms = [] := by
  have hperm := wantedEdits_perm (o := o) (s := s) level ms
  rw [h, List.nil_perm, List.map_eq_nil_iff] at hperm
  exact findings_nil hperm

section

variable {g : Graph} {widths : Array Nat} (h : tree.WellFormed source)
  (hcut : s.CutFrom source tree.pieces) (hl : s.Lined)
include h hcut hl

/-- The edits of mismatches are about different lines: each ends before the line of the next one
starts. -/
theorem pairwise_edits {kept : List Mismatch}
    (hkept : kept.Sublist (Mismatch.all s o.indentChar g widths)) :
    (kept.map (edit o s)).Pairwise fun a b => a.range.stop < b.range.start := by
  refine List.pairwise_map.2 (List.Pairwise.imp_of_mem ?_ (Mismatch.pairwise_all.sublist hkept))
  intro m m' hm hm' hlt
  obtain ⟨t, ht, rfl, -⟩ := Mismatch.exists_of_mem_all h hcut hl (hkept.subset hm)
  obtain ⟨u, hu, rfl, hlead, -⟩ := Mismatch.exists_of_mem_all h hcut hl (hkept.subset hm')
  rw [edit, edit, Edit.range_replacement, Edit.range_replacement]
  change (s.token t).start < (s.token u).lineStart
  have hstop := hl.start_lt_stop t ht
  have := TokenStream.stop_lt_lineStart h.clear hcut hl hu hlead (show t < u from hlt)
  omega

/-- A pass edits the margins of the lines that are reported, each on its own. -/
theorem select_wantedEdits (level : Applicability) :
    let ms := Mismatch.all s o.indentChar g widths
    let found := findings o s ms
    Edit.Apart (Edit.select (Linter.wantedEdits level found)) ∧
      (Edit.select (Linter.wantedEdits level found)).Perm ((reported s ms).map (edit o s)) := by
  intro ms found
  have hperm := wantedEdits_perm (o := o) (s := s) level ms
  have hapart : ((reported s ms).map (edit o s)).Pairwise fun a b =>
      a.range.stop < b.range.start ∨ b.range.stop < a.range.start :=
    (pairwise_edits h hcut hl List.filter_sublist).imp .inl
  obtain ⟨hselect, hdesc⟩ := Edit.select_of_apart
    (hperm.symm.pairwise hapart fun hab => hab.symm)
  exact ⟨hdesc, hselect.trans hperm⟩

omit h hcut in
/-- The edit of a line tells which token leads it. -/
theorem token_eq_of_range {t u : Nat} (ht : t < s.size) (hu : u < s.size)
    (hrange : (s.token t).marginRange = (s.token u).marginRange) : t = u :=
  hl.eq_of_start_eq ht hu (congrArg Range.stop hrange)

end

/-- A pass over a text: the widths that were found, the edits that follow, and the text that they leave
with its tokens. -/
structure Pass (o : IndentOptions) (source : Text) (tree : Node) (s : TokenStream) (widths : Array Nat)
    (es : List Edit) (fixed : Text) (s' : TokenStream) : Prop where
  resolved : (graph o tree s).resolve s o.indentChar = .ok widths
  mem_iff : ∀ e, e ∈ es ↔
    ∃ m ∈ reported s (Mismatch.all s o.indentChar (graph o tree s) widths), e = edit o s m
  apart : Edit.Apart es
  applied : Edit.applyAll source es = .ok fixed
  terminators_eq : Text.terminators fixed = Text.terminators source
  ofTree_eq : TokenStream.ofTree fixed (tree.moved es) = .ok s'
  cut : s'.CutFrom fixed (tree.moved es).pieces
  lined : s'.Lined
  size_eq : s'.size = s.size
  moves : ∀ i < s.size, TokenStream.Moves es (s.token i) (s'.token i)

variable (h : tree.WellFormed source) (hcut : s.CutFrom source tree.pieces) (hl : s.Lined)
include h hcut hl

/-- The edits of mismatches replace margins of leading tokens. -/
theorem reindents_of_mem {g : Graph} {widths : Array Nat} {es : List Edit}
    (hes : ∀ e ∈ es, ∃ m ∈ Mismatch.all s o.indentChar g widths, e = edit o s m) :
    s.Reindents es := by
  intro e he
  obtain ⟨m, hm, rfl⟩ := hes e he
  obtain ⟨t, ht, rfl, hlead, -⟩ := Mismatch.exists_of_mem_all h hcut hl hm
  refine ⟨t, ht, hlead, Edit.range_replacement _ _, ?_⟩
  rw [edit, Edit.getD_content_replacement]
  exact flat_fill _ _

/-- What is found makes a pass, whatever the level. -/
theorem pass_of_mismatches {ms : List Mismatch} (hms : mismatches o tree s = .ok ms)
    (level : Applicability) :
    let es := Edit.select (Linter.wantedEdits level (findings o s ms))
    ∃ widths fixed s', ms = Mismatch.all s o.indentChar (graph o tree s) widths ∧
      Pass o source tree s widths es fixed s' := by
  intro es
  rw [mismatches] at hms
  cases hwidths : (graph o tree s).resolve s o.indentChar with
  | error cause =>
    rw [hwidths] at hms
    cases hms
  | ok widths =>
    rw [hwidths] at hms
    obtain rfl := Except.ok.inj hms
    obtain ⟨hapart, hperm⟩ : Edit.Apart es ∧ es.Perm ((reported s
        (Mismatch.all s o.indentChar (graph o tree s) widths)).map (edit o s)) :=
      select_wantedEdits h hcut hl level
    have hes : ∀ e, e ∈ es ↔
        ∃ m ∈ reported s (Mismatch.all s o.indentChar (graph o tree s) widths), e = edit o s m := by
      intro e
      rw [hperm.mem_iff, List.mem_map]
      simp only [eq_comm]
    have hre := reindents_of_mem h hcut hl fun e he => by
      obtain ⟨m, hm, hem⟩ := (hes e).1 he
      exact ⟨m, (List.mem_filter.1 hm).1, hem⟩
    obtain ⟨fixed, happly, hterm⟩ := TokenStream.exists_applyAll h hcut hl hapart.descending hre
    obtain ⟨s', hs', hcut', hl', hsize, hmoves⟩ :=
      TokenStream.exists_moved h hcut hl hapart.descending hre happly
    exact ⟨widths, fixed, s', rfl,
      ⟨hwidths, hes, hapart, happly, hterm, hs', hcut', hl', hsize, hmoves⟩⟩

namespace Pass

variable {widths : Array Nat} {es : List Edit} {fixed : Text} {s' : TokenStream}
  (hp : Pass o source tree s widths es fixed s')
include hp

theorem reindents : s.Reindents es := reindents_of_mem h hcut hl fun e he =>
  have ⟨m, hm, hem⟩ := (hp.mem_iff e).1 he
  ⟨m, (List.mem_filter.1 hm).1, hem⟩

theorem tracks : s.Tracks (Edit.moved es) s' :=
  TokenStream.tracks_moved h hcut hl (hp.reindents h hcut hl) hp.cut hp.lined hp.size_eq hp.moves
    hp.terminators_eq

theorem wellFormed : (tree.moved es).WellFormed fixed :=
  TokenStream.wellFormed_moved h hcut hl hp.apart.descending (hp.reindents h hcut hl) hp.applied hp.cut
    hp.size_eq hp.moves hp.lined

/-- A line that is edited belongs to a token that may not stand where it is. -/
theorem exists_of_edit {t : Nat} (ht : t < s.size) {e : Edit} (he : e ∈ es)
    (hrange : e.range = (s.token t).marginRange) :
    e.content.getD [] = Text.fill o.indentChar.char (widths.getD t 0) ∧
      (graph o tree s).isExempt t = false := by
  obtain ⟨m, hm, rfl⟩ := (hp.mem_iff e).1 he
  obtain ⟨u, hu, rfl, -, hexempt, -⟩ :=
    Mismatch.exists_of_mem_all h hcut hl (List.mem_filter.1 hm).1
  rw [edit, Edit.range_replacement] at hrange
  obtain rfl : u = t := token_eq_of_range hl hu ht hrange
  exact ⟨Edit.getD_content_replacement _ _, hexempt⟩

/-- Exempt tokens keep their margins. -/
theorem marginOf_of_exempt {t : Nat} (ht : (graph o tree s).isExempt t = true) :
    s'.marginOf t = s.marginOf t := by
  by_cases hlt : t < s.size
  · rw [TokenStream.marginOf, TokenStream.marginOf, TokenStream.margin_of_no_edit h hcut hl
      hp.apart.descending (hp.reindents h hcut hl) hp.applied hp.cut hp.size_eq hp.moves hlt
      (exemptLeads_graph o tree s t ht)]
    intro e he hrange
    rw [(hp.exists_of_edit h hcut hl hlt he hrange).2] at ht
    cases ht
  · have hsize := hp.size_eq
    rw [TokenStream.marginOf, TokenStream.marginOf, TokenStream.token_of_size_le (s := s) (by omega),
      TokenStream.token_of_size_le (s := s') (by omega)]

/-- Where the graph of the edited text says the same of a token and of the lines around it, the token
is not reported.  If it is still not where it should be, it was not before, and it is suppressed. -/
theorem notMem_reported {g' : Graph} {widths' : Array Nat} {t : Nat} (ht : t < s.size)
    (hexempt : g'.isExempt t = (graph o tree s).isExempt t)
    (hwidths : ∀ u, u = t ∨ Mismatch.lineBefore? s t = some u ∨ Mismatch.lineAfter? s t = some u →
      widths'.getD u 0 = widths.getD u 0) :
    Mismatch.of s' widths' t ∉ reported s' (Mismatch.all s' o.indentChar g' widths') := by
  intro hmem
  obtain ⟨hm', hopen'⟩ := List.mem_filter.1 hmem
  have hdesc := hp.apart.descending
  have hre := hp.reindents h hcut hl
  have htracks := hp.tracks h hcut hl
  have hwell' := hp.wellFormed h hcut hl
  obtain ⟨u, -, hu, hlead, -, hnofit⟩ := Mismatch.exists_of_mem_all hwell' hp.cut hp.lined hm'
  obtain rfl : t = u := congrArg Mismatch.token hu
  rw [htracks.leads_eq] at hlead
  -- an edited line would fit
  have hno : ∀ e ∈ es, e.range ≠ (s.token t).marginRange := by
    intro e he hrange
    have hmargin := TokenStream.margin_of_edit h hcut hl hdesc hre hp.applied hp.cut hp.size_eq hp.moves
      hp.apart ht he hrange
    rw [(hp.exists_of_edit h hcut hl ht he hrange).1] at hmargin
    rw [Mismatch.fits, TokenStream.marginOf, hmargin, hwidths t (.inl rfl), Margin.measure_fill,
      beq_self_eq_true] at hnofit
    cases hnofit
  have hmargin : (s'.token t).margin = (s.token t).margin :=
    TokenStream.margin_of_no_edit h hcut hl hdesc hre hp.applied hp.cut hp.size_eq hp.moves ht hlead hno
  have hm := Mismatch.mem_all_of_margin_eq htracks hmargin ht hexempt hwidths hm'
  have hsuppressed : (Suppression.ofTokens s).holds name.toList (s.token t).start = true := by
    by_contra hopen
    have hmem : Mismatch.of s widths t ∈
        reported s (Mismatch.all s o.indentChar (graph o tree s) widths) :=
      List.mem_filter.2 ⟨hm, by simpa [Mismatch.of] using hopen⟩
    exact hno _ ((hp.mem_iff _).2 ⟨_, hmem, rfl⟩) (Edit.range_replacement _ _)
  have hholds := Suppression.holds_eq htracks.toParallels hcut hl h.clear hp.cut hp.lined hwell'.clear
    name.toList ht
  change (!(Suppression.ofTokens s').holds name.toList (s'.token t).start) = true at hopen'
  rw [hholds, hsuppressed] at hopen'
  cases hopen'

/-- With the same graph and the same widths nothing is left to report. -/
theorem reported_moved :
    reported s' (Mismatch.all s' o.indentChar (graph o tree s) widths) = [] := by
  refine List.eq_nil_iff_forall_not_mem.2 fun m hm => ?_
  obtain ⟨t, ht, rfl, -⟩ := Mismatch.mem_all.1 (List.mem_filter.1 hm).1
  exact hp.notMem_reported h hcut hl (hp.size_eq ▸ ht) rfl (fun _ _ => rfl) hm

end Pass

omit h hcut hl

/-- Every mark of an operation starts at a character of a lexeme. -/
def MarksInside (tree : Node) : Prop :=
  ∀ c ∈ tree.preorder, Operation.IsMark c →
    ∃ x ∈ tree.pieces, x.start ≤ c.range.start ∧ c.range.start < x.stop

theorem covers_of_isMark (hcut : s.CutFrom source tree.pieces) (hmarks : MarksInside tree) :
    ∀ c ∈ tree.preorder, Operation.IsMark c → s.Covers c.range.start := by
  intro c hc hmark
  obtain ⟨x, hx, hstart, hstop⟩ := hmarks c hc hmark
  obtain ⟨i, hi, rfl⟩ := List.getElem_of_mem hx
  have hcutx := hcut.token_cut i hi
  exact ⟨i, hcut.size_eq ▸ hi, hcutx.start_eq ▸ hstart, hcutx.stop_eq ▸ hstop⟩

/-- The text that a pass leaves has nothing left to report. -/
theorem exists_lintTree_nil (h : tree.WellFormed source) (hclean : tree.tainted = false)
    (hmarks : MarksInside tree) (ho : Construct.Columnless o)
    (hcut : s.CutFrom source tree.pieces) (hl : s.Lined) {ms : List Mismatch} (hms : mismatches o tree s = .ok ms)
    (level : Applicability) :
    let found := findings o s ms
    let es := Edit.select (Linter.wantedEdits level found)
    ∃ fixed, Edit.applyAll source es = .ok fixed ∧
      ∀ round, (linter o).lintTree round fixed (tree.moved es) = .ok [] := by
  intro found es
  obtain ⟨widths, fixed, s', rfl, hp⟩ := pass_of_mismatches h hcut hl hms level
  have htracks := hp.tracks h hcut hl
  have hgraph : graph o (tree.moved es) s' = graph o tree s :=
    graph_mapOffsets htracks.toParallels (fun k hk => absurd hk (ho.listOffset?_ne k))
      fun c hc hmark => htracks.startOf?_eq (covers_of_isMark hcut hmarks c hc hmark)
  have hresolve : (graph o tree s).resolve s' o.indentChar = .ok widths := by
    rw [Graph.resolve_congr htracks.toParallels fun t ht => ?_, hp.resolved]
    rw [hp.marginOf_of_exempt h hcut hl ht]
  have hms' : mismatches o (tree.moved es) s' =
      .ok (Mismatch.all s' o.indentChar (graph o tree s) widths) := by
    rw [mismatches, hgraph, hresolve]
    rfl
  refine ⟨fixed, hp.applied, fun round => ?_⟩
  have hclean' : (tree.moved es).tainted = false := by
    rw [Node.moved, Node.tainted_mapOffsets, hclean]
  rw [lintTree_linter hclean' hp.ofTree_eq hms', findings_nil (hp.reported_moved h hcut hl)]

end IndentRule

namespace Linter

variable {l : Linter} {parse : Parser} {level : Applicability} {source fixed : Text}
  {found : List Finding}

theorem fixFrom_of_pass {left : Nat} {s s' : FixState} (hwanted : wantedEdits level s.remaining ≠ [])
    (hpass : l.pass parse s (Edit.select (wantedEdits level s.remaining)) = .ok s') :
    l.fixFrom parse level (left + 1) s = l.fixFrom parse level left s' := by
  rw [fixFrom]
  split
  · next hnil => exact absurd hnil hwanted
  · rw [hpass]
    rfl

/-- A text in which nothing is found stays as it is. -/
theorem fix_of_lint_nil (h : l.lint parse 0 source = .ok []) :
    l.fix parse level source = .ok ⟨source, 0, 0, []⟩ := by
  rw [fix, h]
  rfl

/-- One pass is enough when it leaves nothing to find. -/
theorem fix_of_pass (h : l.lint parse 0 source = .ok found)
    (hwanted : wantedEdits level found ≠ [])
    (happly : Edit.applyAll source (Edit.select (wantedEdits level found)) = .ok fixed)
    (h' : l.lint parse 1 fixed = .ok []) :
    l.fix parse level source =
      .ok ⟨fixed, (Edit.select (wantedEdits level found)).length, 1, []⟩ := by
  have hpass : l.pass parse ⟨source, 0, 0, found⟩ (Edit.select (wantedEdits level found)) =
      .ok ⟨fixed, (Edit.select (wantedEdits level found)).length, 1, []⟩ := by
    simp only [pass, happly, h', LintError.orFault, bind, Except.bind, pure, Except.pure, Nat.zero_add]
  rw [fix, h]
  exact fixFrom_of_pass hwanted hpass

end Linter

namespace IndentRule

variable {o : IndentOptions} {source : Text} {tree : Node}

/-- One pass is enough where no list looks at columns.  The text that it leaves, whose tree is the tree
of the text moved along with it, has nothing to report.  Hence fixing comes to rest after one pass at
most, and fixing what it leaves changes nothing. -/
theorem exists_fix (h : tree.WellFormed source) (hclean : tree.tainted = false)
    (hmarks : MarksInside tree) (ho : Construct.Columnless o) (level : Applicability) :
    ∃ d, Document.of source tree = .ok d ∧
      (InOrder d.stream tree → ∃ found, (linter o).lintTree 0 source tree = .ok found) ∧
      ∀ found, (linter o).lintTree 0 source tree = .ok found →
        let es := Edit.select (Linter.wantedEdits level found)
        ∃ fixed, Edit.applyAll source es = .ok fixed ∧
          (∀ round, (linter o).lintTree round fixed (tree.moved es) = .ok []) ∧
          (∀ parse : Parser, parse 0 source = some tree → parse 1 fixed = some (tree.moved es) →
            ∃ passes ≤ 1, (linter o).fix parse level source = .ok ⟨fixed, es.length, passes, []⟩) ∧
          ∀ parse : Parser, parse 0 fixed = some (tree.moved es) →
            (linter o).fix parse level fixed = .ok ⟨fixed, 0, 0, []⟩ := by
  obtain ⟨s, hs, hcut, hl⟩ := h.exists_ofTree
  have hdoc := document_of hs
  refine ⟨_, hdoc, fun horder =>
    Linter.exists_lintTree hclean h.toFits hdoc horder (indents_linter o), fun found hfound => ?_⟩
  obtain ⟨ms, hms, rfl⟩ := exists_of_lintTree_linter hclean hs hfound
  obtain ⟨fixed, happly, hnil⟩ := exists_lintTree_nil h hclean hmarks ho hcut hl hms level
  refine ⟨fixed, happly, hnil, fun parse hparse hparse' => ?_, fun parse hparse => ?_⟩
  · have hlint : (linter o).lint parse 0 source =
        .ok (findings o s ms) := by
      rw [Linter.lint, hparse]
      exact hfound
    by_cases hwanted : Linter.wantedEdits level (findings o s ms) = []
    · -- nothing was found at all
      have hselect : Edit.select [] = [] := by rw [Edit.select, List.mergeSort_nil, List.foldl_nil]
      rw [hwanted, hselect] at happly ⊢
      obtain rfl : source = fixed := by simpa [Edit.applyAll, pure, Except.pure] using happly
      rw [findings_eq_nil_of_wantedEdits hwanted] at hlint
      exact ⟨0, Nat.zero_le 1, Linter.fix_of_lint_nil hlint⟩
    · refine ⟨1, Nat.le_refl 1, Linter.fix_of_pass hlint hwanted happly ?_⟩
      rw [Linter.lint, hparse']
      exact hnil 1
  · refine Linter.fix_of_lint_nil ?_
    rw [Linter.lint, hparse]
    exact hnil 0

theorem exists_fix_sampleTree : ∃ found fixed,
    (linter .standard).lintTree 0 sampleText sampleTree = .ok found ∧
      Edit.applyAll sampleText (Edit.select (Linter.wantedEdits .safe found)) = .ok fixed ∧
      (linter .standard).lintTree 1 fixed
        (sampleTree.moved (Edit.select (Linter.wantedEdits .safe found))) = .ok [] := by
  have hmarks : MarksInside sampleTree := by
    unfold MarksInside Operation.IsMark
    decide
  have ho : Construct.Columnless .standard := ⟨nofun, nofun, nofun, nofun, nofun⟩
  obtain ⟨d, -, hchecked, hfix⟩ := exists_fix wellFormed_sampleTree rfl hmarks ho .safe
  obtain ⟨found, hfound⟩ := hchecked (inOrder_sampleTree d.stream)
  obtain ⟨fixed, happly, hnil, -⟩ := hfix found hfound
  exact ⟨found, fixed, hfound, happly, hnil 1⟩

end IndentRule

end Indentation
