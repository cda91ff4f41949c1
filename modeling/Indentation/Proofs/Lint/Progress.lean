import Indentation.Proofs.Construct.Followed
import Indentation.Proofs.Lint.Stable
import Indentation.Proofs.Text.Above

/-!
# A pass settles the first line that it reports

A pass edits no line above the first one that it reports, so the code before the token that leads this
line stays in its columns.  The widths of all tokens up to there, and of the lines that a comment up to
there is compared with, look at no other columns.  Hence they are as they were, and the next round finds
all these tokens where they should be.
-/

namespace Indentation

open Text Lines

namespace IndentRule

/-- What is relied on: a tree without errors that fits its text, in the order of the grammar. -/
structure Readable (source : Text) (tree : Node) : Prop extends tree.WellFormed source where
  clean : tree.tainted = false
  marks : MarksInside tree
  inOrder : ∀ s, TokenStream.ofTree source tree = .ok s → InOrder s tree
  ended : ∀ s, TokenStream.ofTree source tree = .ok s → ∀ c ∈ tree.preorder, Construct.Ended s c

variable {o : IndentOptions} {source fixed : Text} {tree : Node} {s s' : TokenStream}
  {widths : Array Nat} {es : List Edit}

/-! ## Graphs and widths of an edited text -/

/-- Graphs agree about a token if the code before it is settled. -/
theorem agreeAt_graph {f : Nat → Nat} (htracks : s.Tracks f s') (hn : tree.Nested)
    (hended : ∀ c ∈ tree.preorder, Construct.Ended s c)
    (hin : ∀ c ∈ tree.preorder, Operation.IsMark c → s.Covers c.range.start) {t : Nat}
    (hsettled : s.Settled s' t) :
    (graph o tree s).AgreeAt (graph o (tree.mapOffsets f) s') t := by
  have hwrites : List.Forall₂ (Write.Follows s s') (writes o tree s) (writes o (tree.mapOffsets f) s') := by
    refine List.rel_append (Construct.follows_writes htracks hn hended hin) ?_
    rw [parenWrites_eq htracks.toParallels]
    exact Write.forall₂_follows s s' _
  rw [graph_eq, graph_eq, htracks.size_eq]
  exact Graph.AgreeAt.writeAll htracks ⟨rfl, rfl, rfl, rfl⟩ hwrites hsettled

section

variable (h : Readable source tree) (hs : TokenStream.ofTree source tree = .ok s)
  (hcut : s.CutFrom source tree.pieces) (hl : s.Lined)
  (hp : Pass o source tree s widths es fixed s')
include h hs hcut hl hp

omit hs in
/-- Every mark of the edited text starts at a character of a lexeme. -/
theorem Pass.marksInside : MarksInside (tree.moved es) := by
  intro _ hmem hmark
  obtain ⟨c, hc, rfl⟩ := Node.exists_of_mem_preorder_mapOffsets hmem
  have hmark' : Operation.IsMark c := by
    simpa only [Operation.IsMark, Cursor.field_mapOffsets, Cursor.kind_mapOffsets] using hmark
  obtain ⟨x, hx, hstart, hstop⟩ := h.marks c hc hmark'
  have hre := hp.reindents h.toWellFormed hcut hl
  rw [Cursor.range_mapOffsets]
  refine ⟨x.mapOffsets (Edit.moved es), ?_, Edit.moved_mono es hstart, ?_⟩
  · rw [TokenStream.pieces_moved h.toWellFormed hcut hl hp.apart.descending hre]
    exact List.mem_map_of_mem hx
  · obtain ⟨i, hi, rfl⟩ := List.getElem_of_mem hx
    have his : i < s.size := hcut.size_eq ▸ hi
    have hstop' := (hcut.token_cut i hi).stop_eq
    have hiff := TokenStream.moved_stop_le_iff h.toWellFormed hcut hl hre (p := c.range.start) his
    rw [hstop'] at hiff
    exact Nat.lt_of_not_le fun hle => absurd (hiff.1 hle) (Nat.not_le_of_lt hstop)

/-- The edited text and its tree can be relied on for what the text and its tree could. -/
theorem Pass.readable : Readable fixed (tree.moved es) where
  toWellFormed := hp.wellFormed h.toWellFormed hcut hl
  clean := by rw [Node.moved, Node.tainted_mapOffsets, h.clean]
  marks := hp.marksInside h hcut hl
  inOrder := by
    intro d hd _ hmem
    obtain rfl : s' = d := Except.ok.inj (hp.ofTree_eq.symm.trans hd)
    obtain ⟨c, hc, rfl⟩ := Node.exists_of_mem_preorder_mapOffsets hmem
    exact Construct.inOrder_mapOffsets (hp.tracks h.toWellFormed hcut hl) (h.inOrder s hs c hc)
  ended := by
    intro d hd _ hmem
    obtain rfl : s' = d := Except.ok.inj (hp.ofTree_eq.symm.trans hd)
    obtain ⟨c, hc, rfl⟩ := Node.exists_of_mem_preorder_mapOffsets hmem
    exact Construct.ended_mapOffsets (hp.tracks h.toWellFormed hcut hl) (h.ended s hs c hc)

/-- The width of a token is as it was if the code before it is settled. -/
theorem Pass.width_eq {widths' : Array Nat}
    (hwidths' : (graph o (tree.moved es) s').resolve s' o.indentChar = .ok widths') {t : Nat}
    (ht : t < s.size) (hsettled : s.Settled s' t) : widths'.getD t 0 = widths.getD t 0 := by
  have htracks := hp.tracks h.toWellFormed hcut hl
  have hr' := hp.readable h hs hcut hl
  have hforward : (graph o tree s).Forward :=
    (Graph.forward_blank s.size).writeAll (forward_writes hl h.toNested (h.inOrder s hs) o)
  obtain ⟨_, hresolve, hprescribed⟩ := exists_widths hl h.toNested (h.inOrder s hs) o
  obtain rfl := Except.ok.inj (hresolve.symm.trans hp.resolved)
  obtain ⟨_, hresolve', hprescribed'⟩ :=
    exists_widths hp.lined hr'.toNested (hr'.inOrder s' hp.ofTree_eq) o
  obtain rfl := Except.ok.inj (hresolve'.symm.trans hwidths')
  refine Graph.width_eq hforward hprescribed (fun t ht => hprescribed' t (hp.size_eq.symm ▸ ht))
    (fun t ht => ?_) (fun a ha => ?_) ht
  · rw [hp.marginOf_of_exempt h.toWellFormed hcut hl ht]
  · exact agreeAt_graph htracks h.toNested (h.ended s hs) (covers_of_isMark hcut h.marks)
      fun u hu => hsettled u (Nat.lt_of_lt_of_le hu ha)

end

/-- The code before the lines that a token is compared with comes before the token. -/
theorem code_lt_of_compared (hl : s.Lined) {t u : Nat} (ht : t < s.size)
    (hu : u = t ∨ Mismatch.lineBefore? s t = some u ∨ Mismatch.lineAfter? s t = some u) :
    u < s.size ∧ ∀ v < u, s.isComment v = false → v < t := by
  rcases hu with rfl | hbefore | hafter
  · exact ⟨ht, fun v hv _ => hv⟩
  · obtain ⟨p, hp, rfl⟩ := Option.map_eq_some_iff.1 hbefore
    have hpt := (TokenStream.prevCode?_some hp).1
    have hle := hl.leaderOf_le (Nat.lt_trans hpt ht)
    exact ⟨by omega, fun v hv _ => by omega⟩
  · obtain ⟨n, hn, rfl⟩ := Option.map_eq_some_iff.1 hafter
    cases hprev : s.prevCode? t with
    | none =>
      rw [hprev] at hn
      obtain ⟨-, hnsize, -, hcomments⟩ := TokenStream.nextCodeFrom?_some hn
      have hle := hl.leaderOf_le hnsize
      refine ⟨Nat.lt_of_le_of_lt hle hnsize, fun v hv hcode => ?_⟩
      rw [hcomments v (Nat.zero_le v) (Nat.lt_of_lt_of_le hv hle)] at hcode
      cases hcode
    | some p =>
      rw [hprev] at hn
      have hnsize := (TokenStream.nextCode?_some hn).2.1
      have hle := hl.leaderOf_le hnsize
      have hpt := (TokenStream.prevCode?_some hprev).1
      refine ⟨Nat.lt_of_le_of_lt hle hnsize, fun v hv hcode => ?_⟩
      by_contra hge
      have := TokenStream.nextCode?_le hn (k := v) (by omega) hcode
      omega

/-! ## The first token that is reported -/

/-- A token that is reported, and none before it is. -/
structure IsFirst (s : TokenStream) (ms : List Mismatch) (t : Nat) : Prop where
  mem : ∃ m ∈ reported s ms, m.token = t
  le : ∀ m ∈ reported s ms, t ≤ m.token

section

variable (h : Readable source tree) (hs : TokenStream.ofTree source tree = .ok s)
  (hcut : s.CutFrom source tree.pieces) (hl : s.Lined)
  (hp : Pass o source tree s widths es fixed s') {t : Nat}
  (ht : IsFirst s (Mismatch.all s o.indentChar (graph o tree s) widths) t)
include h hcut hl ht

theorem IsFirst.spec : t < s.size ∧ s.leads t = true ∧
    Mismatch.fits s o.indentChar widths t t = false := by
  obtain ⟨m, hm, rfl⟩ := ht.mem
  obtain ⟨u, hu, rfl, hlead, -, hfits⟩ :=
    Mismatch.exists_of_mem_all h.toWellFormed hcut hl (List.mem_filter.1 hm).1
  exact ⟨hu, hlead, hfits⟩

omit h hcut hl in
theorem IsFirst.of_mem : Mismatch.of s widths t ∈
    reported s (Mismatch.all s o.indentChar (graph o tree s) widths) := by
  obtain ⟨m, hm, rfl⟩ := ht.mem
  obtain ⟨u, -, rfl, -⟩ := Mismatch.mem_all.1 (List.mem_filter.1 hm).1
  exact hm

include hp

/-- Each edit is that of the first token or behind its line. -/
theorem Pass.cases_of_mem {e : Edit} (he : e ∈ es) :
    e = edit o s (Mismatch.of s widths t) ∨ ∃ u < s.size, s.leads u = true ∧
      (s.token t).startLine < (s.token u).startLine ∧ e.range.start = (s.token u).lineStart := by
  obtain ⟨htsize, hlead, -⟩ := ht.spec h hcut hl
  obtain ⟨m, hm, rfl⟩ := (hp.mem_iff e).1 he
  have hle := ht.le m hm
  obtain ⟨u, hu, rfl, hleadu, -⟩ :=
    Mismatch.exists_of_mem_all h.toWellFormed hcut hl (List.mem_filter.1 hm).1
  rcases Nat.eq_or_lt_of_le hle with rfl | hlt
  · exact .inl rfl
  · refine .inr ⟨u, hu, hleadu, ?_, ?_⟩
    · have hend := (hl.leads_iff hu).1 hleadu t hlt
      have hstart := hl.startLine_le t htsize
      omega
    · rw [edit, Edit.range_replacement]
      rfl

/-- No edit starts above the line of the first token. -/
theorem Pass.lineStart_le {e : Edit} (he : e ∈ es) : (s.token t).lineStart ≤ e.range.start := by
  obtain ⟨htsize, -⟩ := ht.spec h hcut hl
  rcases hp.cases_of_mem h hcut hl ht he with rfl | ⟨u, hu, hleadu, hline, hstart⟩
  · rw [edit, Edit.range_replacement]
    exact Nat.le_refl _
  · have htu : t < u := by
      by_contra hge
      have := hl.startLine_le_startLine (Nat.le_of_not_lt hge) htsize
      omega
    have hstop := TokenStream.stop_lt_lineStart h.clear hcut hl hu hleadu htu
    have hpos := hl.start_lt_stop t htsize
    have hle : (s.token t).lineStart ≤ (s.token t).start := Nat.sub_le _ _
    omega

/-- The edited text still begins with the lines above the first token. -/
theorem Pass.exists_lines_above :
    ∃ u q q', source = u ++ q ∧ fixed = u ++ q' ∧ u.EndsLine ∧ ¬PartsPair u q ∧ ¬PartsPair u q' ∧
      Text.size u = (s.token t).lineStart ∧ (terminators u).length + 1 = (s.token t).startLine := by
  obtain ⟨htsize, hlead, -⟩ := ht.spec h hcut hl
  obtain ⟨u, b, hsource, hend, hflat, hhead, hsize, -, hline⟩ :=
    TokenStream.exists_line_of_leads h.clear hcut hl htsize hlead
  rw [List.append_assoc] at hsource
  have hhead' := hflat.head?_append hhead
  have hmargins := TokenStream.isMargin_of_reindents h.toWellFormed hcut hl
    (hp.reindents h.toWellFormed hcut hl)
  have happly := hp.applied
  rw [hsource] at hmargins happly
  obtain ⟨q', hfixed, hlf⟩ := Edit.exists_behind hp.apart.descending hmargins
    (fun e he => hsize ▸ hp.lineStart_le h hcut hl ht he) happly
  exact ⟨u, _, q', hsource, hfixed, hend, not_partsPair_of_head? hhead',
    not_partsPair_of_head? fun hq => hhead' (hlf hq), hsize, hline⟩

/-- Tokens before the first one stay in their columns. -/
theorem Pass.column_eq {i : Nat} (hi : i < t) : (s'.token i).column = (s.token i).column := by
  obtain ⟨htsize, hlead, -⟩ := ht.spec h hcut hl
  obtain ⟨u, q, q', hsource, hfixed, -, -, -, hsize, -⟩ := hp.exists_lines_above h hcut hl ht
  have his : i < s.size := Nat.lt_trans hi htsize
  have his' : i < s'.size := hp.size_eq.symm ▸ his
  obtain ⟨x, -, hxcut⟩ := hcut.getElem_cut his
  obtain ⟨a, b, hxsource, ha, -, hmargin⟩ := hxcut.parts
  obtain ⟨y, -, hycut⟩ := hp.cut.getElem_cut his'
  obtain ⟨a', b', hysource, ha', -, hmargin'⟩ := hycut.parts
  have hstop := TokenStream.stop_lt_lineStart h.clear hcut hl htsize hlead hi
  have hpos := hl.start_lt_stop i his
  have hmoved : (s'.token i).start = (s.token i).start := by
    rw [(hp.moves i his).start_eq]
    refine Edit.moved_eq_self fun e he => ?_
    have := hp.lineStart_le h hcut hl ht he
    omega
  rw [hxcut.start_eq] at hpos hmoved
  rw [hycut.start_eq] at hmoved
  obtain ⟨r, rfl, -⟩ : ∃ r, u = a ++ r ∧ _ = r ++ q :=
    exists_between (by rw [← hsource, hxsource, List.append_assoc]) (by omega)
  have hsame : a' = a := by
    rw [hfixed, List.append_assoc, List.append_assoc] at hysource
    exact (append_inj_of_size hysource (by omega)).1.symm
  rw [TokenStream.column_eq_length h.clear hcut his,
    TokenStream.column_eq_length (hp.wellFormed h.toWellFormed hcut hl).clear hp.cut his', hmargin,
    hmargin', hsame]

/-- The lines above the first token are left as they are. -/
theorem Pass.sameAbove : SameAbove (s.token t).startLine source fixed := by
  obtain ⟨u, q, q', hsource, hfixed, hend, hpair, hpair', -, hline⟩ :=
    hp.exists_lines_above h hcut hl ht
  have hcount : ∀ {z w : Text}, z = u ++ w → ¬PartsPair u w →
      (s.token t).startLine ≤ (Lines.of z).count := by
    rintro _ w rfl hw
    rw [← hline, count_of, terminators_append hw, List.length_append]
    omega
  have hlow : 1 ≤ (s.token t).startLine := by omega
  exact ⟨u, (above_eq_ok_iff hlow (hcount hsource hpair)).2 ⟨q, hsource, hend, hpair, hline⟩,
    (above_eq_ok_iff hlow (hcount hfixed hpair')).2 ⟨q', hfixed, hend, hpair', hline⟩⟩

/-- The edit of the first token is carried out last. -/
theorem Pass.exists_split : ∃ later, es = later ++ [edit o s (Mismatch.of s widths t)] ∧
    ∀ e ∈ later, ∃ u < s.size, s.leads u = true ∧
      (s.token t).startLine < (s.token u).startLine ∧ e.range.start = (s.token u).lineStart := by
  have hmem : edit o s (Mismatch.of s widths t) ∈ es := (hp.mem_iff _).2 ⟨_, ht.of_mem, rfl⟩
  have hstart : (edit o s (Mismatch.of s widths t)).range.start = (s.token t).lineStart := by
    rw [edit, Edit.range_replacement]
    rfl
  obtain ⟨later, earlier, hes⟩ := List.append_of_mem hmem
  have hapart := hp.apart
  rw [hes, Edit.Apart, List.pairwise_append] at hapart
  obtain ⟨-, hearlier, hlater⟩ := hapart
  have hnil : earlier = [] := by
    refine List.eq_nil_iff_forall_not_mem.2 fun e he => ?_
    have hlt := (List.pairwise_cons.1 hearlier).1 e he
    have hle := hp.lineStart_le h hcut hl ht (hes ▸ List.mem_append_right _ (List.mem_cons_of_mem _ he))
    have := e.range.start_le_stop
    omega
  subst hnil
  refine ⟨later, hes, fun e he => ?_⟩
  refine (hp.cases_of_mem h hcut hl ht (hes ▸ List.mem_append_left _ he)).resolve_left ?_
  rintro rfl
  have hlt := hlater _ he _ List.mem_cons_self
  have := (edit o s (Mismatch.of s widths t)).range.start_le_stop
  omega

omit h hcut hl ht in
/-- The last edit of the pass replaces the margin of the first token. -/
theorem Pass.eq_of_replaced {later : List Edit} {mid u w : Text}
    (hes : es = later ++ [edit o s (Mismatch.of s widths t)]) (hmid : Edit.applyAll source later = .ok mid)
    (hu : Text.size u = (s.token t).lineStart)
    (hm : Text.size (u ++ (s.token t).margin) = (s.token t).start)
    (hw : mid = u ++ (s.token t).margin ++ w) :
    fixed = u ++ Text.fill o.indentChar.char (widths.getD t 0) ++ w := by
  obtain ⟨mid', hmid', hlast⟩ := Edit.exists_of_applyAll_concat (hes ▸ hp.applied)
  obtain rfl : mid = mid' := Except.ok.inj (hmid.symm.trans hmid')
  rw [hw, Edit.apply_append _ _ w _ (by rw [hu, edit, Edit.range_replacement]; rfl)
    (by rw [hm, edit, Edit.range_replacement]; rfl), edit, Edit.getD_content_replacement] at hlast
  exact (Except.ok.inj hlast).symm

omit ht in
/-- A text is left as it begins if the edits before the last one lie behind its beginning. -/
theorem Pass.exists_replaced_behind {later : List Edit} {mid x q : Text}
    (hes : es = later ++ [edit o s (Mismatch.of s widths t)]) (hmid : Edit.applyAll source later = .ok mid)
    (hxq : source = x ++ q) (hbehind : ∀ e ∈ later, Text.size x ≤ e.range.start) :
    ∃ q', mid = x ++ q' ∧ (q'.head? = some '\n' → q.head? = some '\n') := by
  have hmargins := TokenStream.isMargin_of_reindents h.toWellFormed hcut hl
    (hp.reindents h.toWellFormed hcut hl)
  have hapart := hp.apart
  rw [hes, Edit.Apart, List.pairwise_append] at hapart
  rw [hes, hxq] at hmargins
  rw [hxq] at hmid
  exact Edit.exists_behind (Edit.Apart.descending hapart.1)
    (fun e he => hmargins e (List.mem_append_left _ he)) hbehind hmid

/-- The line of the first token before and after the pass. -/
theorem Pass.exists_line : ∃ u l,
    above source ((s.token t).startLine + 1) = .ok (u ++ (s.token t).margin ++ l) ∧
      above fixed ((s.token t).startLine + 1) =
        .ok (u ++ Text.fill o.indentChar.char (widths.getD t 0) ++ l) := by
  obtain ⟨htsize, hlead, -⟩ := ht.spec h hcut hl
  obtain ⟨later, hes, hlater⟩ := hp.exists_split h hcut hl ht
  obtain ⟨u, b, hsource, hend, hflat, hhead, hu, hm, hline⟩ :=
    TokenStream.exists_line_of_leads h.clear hcut hl htsize hlead
  have hfill := flat_fill o.indentChar (widths.getD t 0)
  have hcount : (Lines.of fixed).count = (Lines.of source).count := by
    rw [count_of, count_of, hp.terminators_eq]
  obtain ⟨mid, hmid, -⟩ := Edit.exists_of_applyAll_concat (hes ▸ hp.applied)
  rcases Nat.lt_or_ge (s.token t).startLine (Lines.of source).count with hlt | hge
  · obtain ⟨x, l, q, hxlq, hx, hxm, hne, hlhead, hlend, hlpair, hlines, hbelow⟩ :=
      TokenStream.exists_line_below h.clear hcut hl htsize hlead hlt
    obtain rfl : u = x := by
      rw [List.append_assoc] at hsource
      rw [List.append_assoc, List.append_assoc] at hxlq
      exact (append_inj_of_size (hsource.symm.trans hxlq) (hu.trans hx.symm)).1
    have hbehind : ∀ e ∈ later, Text.size (u ++ (s.token t).margin ++ l) ≤ e.range.start :=
      fun e he => by
        obtain ⟨v, hv, hleadv, hltv, hstart⟩ := hlater e he
        rw [hstart, ← hbelow]
        exact TokenStream.lineStart_le_of_leads h.clear hcut hl hv hleadv (Nat.le_add_left 1 _) hltv
    obtain ⟨q', hq', hqhead⟩ := hp.exists_replaced_behind h hcut hl hes hmid hxlq hbehind
    have hlpair' : ¬PartsPair l q' := fun hpair => hlpair ⟨hpair.1, hqhead hpair.2⟩
    have hfixed := hp.eq_of_replaced hes hmid hu hm (hq'.trans (List.append_assoc _ l q'))
    refine ⟨u, l, ?_, ?_⟩
    · rw [hxlq, ← hlines]
      exact above_reindented hflat hne hlhead hlend hlpair
    · rw [hfixed, ← hlines, ← List.append_assoc]
      exact above_reindented hfill hne hlhead hlend hlpair'
  · -- there is no line behind it
    have hnil : later = [] := by
      refine List.eq_nil_iff_forall_not_mem.2 fun e he => ?_
      obtain ⟨v, hv, -, hltv, -⟩ := hlater e he
      have := lineOf_le_count source (s.token v).start
      rw [hcut.lineOf_start hv] at this
      omega
    subst hnil
    obtain rfl : source = mid := by simpa [Edit.applyAll, pure, Except.pure] using hmid
    have hfixed := hp.eq_of_replaced hes hmid hu hm hsource
    refine ⟨u, (s.token t).text ++ b, ?_, ?_⟩
    · rw [above_of_count_lt (Nat.lt_succ_of_le hge), ← hsource]
    · rw [above_of_count_lt (Nat.lt_succ_of_le (hcount ▸ hge)), ← hfixed]

/-- The line of the first token is another one after the pass. -/
theorem Pass.above_ne :
    above fixed ((s.token t).startLine + 1) ≠ above source ((s.token t).startLine + 1) := by
  obtain ⟨-, -, hmisfit⟩ := ht.spec h hcut hl
  obtain ⟨u, l, hsource, hfixed⟩ := hp.exists_line h hcut hl ht
  rw [hsource, hfixed, Ne, Except.ok.injEq, List.append_left_inj, List.append_right_inj]
  intro hfill
  rw [Mismatch.fits, TokenStream.marginOf, ← hfill, Margin.measure_fill, beq_self_eq_true] at hmisfit
  cases hmisfit

include hs in
/-- What is reported after the pass stands behind the line of the first token. -/
theorem Pass.startLine_lt {widths' : Array Nat}
    (hwidths' : (graph o (tree.moved es) s').resolve s' o.indentChar = .ok widths') {m : Mismatch}
    (hm : m ∈ reported s' (Mismatch.all s' o.indentChar (graph o (tree.moved es) s') widths')) :
    (s.token t).startLine < (s'.token m.token).startLine := by
  obtain ⟨htsize, -⟩ := ht.spec h hcut hl
  have htracks := hp.tracks h.toWellFormed hcut hl
  obtain ⟨u, hu, rfl, hlead, -⟩ := Mismatch.exists_of_mem_all
    (hp.wellFormed h.toWellFormed hcut hl) hp.cut hp.lined (List.mem_filter.1 hm).1
  rw [hp.size_eq] at hu
  rw [htracks.leads_eq] at hlead
  change (s.token t).startLine < (s'.token u).startLine
  rw [htracks.startLine_eq]
  rcases Nat.lt_or_ge t u with htu | hut
  · have hend := (hl.leads_iff hu).1 hlead t htu
    have hstart := hl.startLine_le t htsize
    omega
  · -- all that decides about the token is as it was
    refine absurd hm (hp.notMem_reported h.toWellFormed hcut hl hu ?_ fun v hv => ?_)
    · have hagree := agreeAt_graph (o := o) htracks h.toNested (h.ended s hs)
        (covers_of_isMark hcut h.marks)
        fun w hw _ => hp.column_eq h hcut hl ht (Nat.lt_of_lt_of_le hw hut)
      exact (hagree.isExempt_eq u).symm
    · obtain ⟨hvsize, hbefore⟩ := code_lt_of_compared hl hu hv
      exact hp.width_eq h hs hcut hl hwidths' hvsize fun w hw hcode =>
        hp.column_eq h hcut hl ht (Nat.lt_of_lt_of_le (hbefore w hw hcode) hut)

end

end IndentRule

end Indentation
