import Indentation.Proofs.Token.Moved
import Indentation.Proofs.Token.Tracks

/-!
# The tokens of a text with other margins

When margins of leading tokens are replaced, the tokens of the text that comes out are on the same
lines and on the same sides of all boundaries.  A line that is edited gets the margin of the edit, and
any other line keeps its own.
-/

namespace Indentation

/-- A moved tree fits a text that has its cuts where they have moved. -/
theorem Node.Fits.mapOffsets {f : Nat → Nat} {source source' : Text} {tree : Node}
    (h : tree.Fits source) (hf : Monotone f) (hcuts : ∀ p, source.Cuts p → source'.Cuts (f p)) :
    (tree.mapOffsets f).Fits source' where
  toNested := h.toNested.mapOffsets hf
  substituted := by
    intro _ hmem hkind
    obtain ⟨c, hc, rfl⟩ := exists_of_mem_preorder_mapOffsets hmem
    rw [Cursor.kind_mapOffsets] at hkind
    rw [Cursor.children_mapOffsets, List.length_map]
    exact h.substituted c hc hkind
  cuts := by
    intro _ hmem
    obtain ⟨c, hc, rfl⟩ := exists_of_mem_preorder_mapOffsets hmem
    obtain ⟨hstart, hstop⟩ := h.cuts c hc
    rw [Cursor.range_mapOffsets, Range.start_mapOffsets, Range.stop_mapOffsets hf]
    exact ⟨hcuts _ hstart, hcuts _ hstop⟩

namespace TokenStream

open Text Lines

variable {source fixed : Text} {tree : Node} {s s' : TokenStream} {es : List Edit}
  (h : tree.WellFormed source) (hs : s.CutFrom source tree.pieces) (hl : s.Lined)
  (hd : Edit.Descending es) (hes : s.Reindents es) (happly : Edit.applyAll source es = .ok fixed)
  (hs' : s'.CutFrom fixed (tree.moved es).pieces) (hl' : s'.Lined) (hsize : s'.size = s.size)
  (hmoves : ∀ i < s.size, Moves es (s.token i) (s'.token i))

section

include h hs hl hes

/-- No offset behind the start of a token moves to the start or before it. -/
theorem moved_le_start_iff {i p : Nat} (hi : i < s.size) :
    Edit.moved es p ≤ Edit.moved es (s.token i).start ↔ p ≤ (s.token i).start := by
  refine ⟨fun hle => ?_, fun hle => Edit.moved_mono es hle⟩
  by_contra hlt
  have hpos := hl.start_lt_stop i hi
  have hadd := Edit.moved_add (p := min p (s.token i).stop) (by omega) (Nat.min_le_right _ _)
    (out_of_reindents h hs hl hes hi)
  have hmono := Edit.moved_mono es (Nat.min_le_left p (s.token i).stop)
  omega

theorem moved_stop_le_iff {i p : Nat} (hi : i < s.size) :
    Edit.moved es (s.token i).stop ≤ Edit.moved es p ↔ (s.token i).stop ≤ p := by
  refine ⟨fun hle => ?_, fun hle => Edit.moved_mono es hle⟩
  by_contra hlt
  have hpos := hl.start_lt_stop i hi
  have hout := out_of_reindents h hs hl hes hi
  have h₁ := Edit.moved_add (p := max p (s.token i).start) (Nat.le_max_right _ _) (by omega) hout
  have h₂ := Edit.moved_add (Nat.le_of_lt hpos) (Nat.le_refl _) hout
  have hmono := Edit.moved_mono es (Nat.le_max_left p (s.token i).start)
  omega

/-- Offsets within tokens stay apart from the starts of other tokens. -/
theorem moved_start_eq_iff {i p : Nat} (hi : i < s.size) (hp : s.Covers p) :
    Edit.moved es (s.token i).start = Edit.moved es p ↔ (s.token i).start = p := by
  refine ⟨fun heq => ?_, fun heq => by rw [heq]⟩
  have hle := (moved_le_start_iff h hs hl hes (p := p) hi).1 (Nat.le_of_eq heq.symm)
  obtain ⟨j, hj, hjp, hpj⟩ := hp
  have hout := out_of_reindents h hs hl hes hj
  by_contra hne
  have h₁ := Edit.moved_add hjp (Nat.le_of_lt hpj) hout
  have h₂ := Edit.moved_add (p := min (s.token i).start (s.token j).stop) (by omega)
    (Nat.min_le_right _ _) hout
  have hmono := Edit.moved_mono es (Nat.min_le_left (s.token i).start (s.token j).stop)
  omega

end

include h hs hl hes hs' hl' hsize hmoves in
/-- The stream of the edited text has the tokens of the stream of the text. -/
theorem tracks_moved (hterm : terminators fixed = terminators source) :
    s.Tracks (Edit.moved es) s' := by
  have hkind := token_congr hsize Token.kind fun i hi => (hmoves i hi).kind_eq
  have htext := token_congr hsize Token.text fun i hi => (hmoves i hi).text_eq
  exact {
    ordered := hl.toOrdered
    ordered' := hl'.toOrdered
    mono := Edit.monotone_moved es
    size_eq := hsize
    isComment_eq := fun i => by rw [isComment, isComment, Token.isComment, Token.isComment, hkind]
    isSign_eq := fun i c _ => by rw [isPunctuator, isPunctuator, hkind, htext]
    directive_eq := fun i => by rw [hkind, htext]
    kind_eq := hkind
    text_eq := htext
    startLine_eq := token_congr hsize _ fun i hi => (hmoves i hi).startLine_eq
    endLine_eq := token_congr hsize _ fun i hi => (hmoves i hi).endLine_eq
    leader?_eq := leader?_congr hsize hs hs' (by rw [count_of, count_of, hterm])
      (fun i hi => (hmoves i hi).startLine_eq) fun i hi => (hmoves i hi).endLine_eq
    le_start := fun p i hi => by
      rw [(hmoves i hi).start_eq]
      exact moved_le_start_iff h hs hl hes hi
    stop_le := fun p i hi => by
      rw [(hmoves i hi).stop_eq]
      exact moved_stop_le_iff h hs hl hes hi
    start_eq := fun p hp i hi => by
      rw [(hmoves i hi).start_eq]
      exact moved_start_eq_iff h hs hl hes hi hp }

/-! ## White space of the edited text -/

include h hs hl hd hes happly hs' hmoves

/-- A piece of the edited text is cut from around the text of its token. -/
theorem parts?_moved {i : Nat} (hi : i < tree.pieces.length)
    (hi' : i < (tree.moved es).pieces.length) :
    ∃ p ∈ (tree.pieces[i]).parts? source, p.2.1 = (s.token i).text ∧
      ∀ p' ∈ ((tree.moved es).pieces[i]).parts? fixed, p'.2.1 = (s.token i).text ∧
        ¬PartsPair p'.1 (p'.2.1 ++ p'.2.2) := by
  have his : i < s.size := hs.size_eq ▸ hi
  have hcut := hs.token_cut i hi
  have hcut' := hs'.token_cut i hi'
  have hmove := hmoves i his
  obtain ⟨a, b, hsource, hstart, hstop, -⟩ := hcut.parts
  obtain ⟨a', b', hfixed, hstart', hstop', hp, -⟩ := exists_parts_moved h hs hl hd hes happly his
  rw [← hmove.start_eq, hcut'.start_eq] at hstart'
  rw [← hmove.stop_eq, hcut'.stop_eq] at hstop'
  refine ⟨_, Lexeme.parts?_eq_some_iff.2 ⟨hsource, hstart, hstop⟩, rfl, fun p' hp' => ?_⟩
  have hparts := Lexeme.parts?_eq_some_iff.2 ⟨hfixed, hstart', hstop'⟩
  obtain rfl : (a', (s.token i).text, b') = p' := by
    rw [hparts] at hp'
    exact Option.some.inj hp'
  exact ⟨rfl, hp⟩

include hsize

/-- The lexemes of the edited text keep clear of its white space. -/
theorem clear_moved (hl' : s'.Lined) : Lexeme.Clear fixed (tree.moved es).pieces := by
  have hpieces := pieces_moved h hs hl hd hes
  have hlength : (tree.moved es).pieces.length = tree.pieces.length := by
    rw [hpieces, List.length_map]
  have hget : ∀ x ∈ (tree.moved es).pieces, ∃ (i : Nat) (hi : i < tree.pieces.length)
      (hi' : i < (tree.moved es).pieces.length), x = (tree.moved es).pieces[i] ∧
        x.form = (tree.pieces[i]).form := by
    intro x hx
    obtain ⟨i, hi', rfl⟩ := List.getElem_of_mem hx
    refine ⟨i, hlength ▸ hi', hi', rfl, ?_⟩
    simp only [hpieces, List.getElem_map]
    rfl
  have hparts := fun i hi hi' => parts?_moved h hs hl hd hes happly hs' hmoves (i := i) hi hi'
  exact {
    unparted := by
      intro x hx p hp
      obtain ⟨i, hi, hi', rfl, -⟩ := hget x hx
      obtain ⟨-, -, -, hall⟩ := hparts i hi hi'
      exact (hall p hp).2
    begins := by
      intro x hx hform p hp
      obtain ⟨i, hi, hi', rfl, hsame⟩ := hget x hx
      obtain ⟨q, hq, htext, hall⟩ := hparts i hi hi'
      rw [(hall p hp).1, ← htext]
      exact h.clear.begins _ (List.getElem_mem hi) (hsame ▸ hform) q hq
    ends := by
      intro x hx hform p hp
      obtain ⟨i, hi, hi', rfl, hsame⟩ := hget x hx
      obtain ⟨q, hq, htext, hall⟩ := hparts i hi hi'
      rw [(hall p hp).1, ← htext]
      exact h.clear.ends _ (List.getElem_mem hi) (hsame ▸ hform) q hq
    uncommented := by
      intro x hx hform y hy hcomment hle
      obtain ⟨i, hi, hi', rfl, hsame⟩ := hget x hx
      obtain ⟨j, hj, hj', rfl, hsame'⟩ := hget y hy
      have his : i < s.size := hs.size_eq ▸ hi
      have hjs : j < s.size := hs.size_eq ▸ hj
      have hcut := hs'.token_cut i hi'
      have hcut' := hs'.token_cut j hj'
      have hij : i < j := by
        refine hl'.lt_of_start_lt (hsize ▸ his) ?_
        have := hl'.start_lt_stop i (hsize ▸ his)
        rw [hcut.stop_eq] at this
        rw [hcut'.start_eq]
        omega
      rw [← hcut.endLine_eq, ← hcut'.startLine_eq, (hmoves i his).endLine_eq,
        (hmoves j hjs).startLine_eq, (hs.token_cut i hi).endLine_eq, (hs.token_cut j hj).startLine_eq]
      refine h.clear.uncommented _ (List.getElem_mem hi) (hsame ▸ hform) _ (List.getElem_mem hj)
        (hsame' ▸ hcomment) ?_
      rw [← (hs.token_cut i hi).stop_eq, ← (hs.token_cut j hj).start_eq]
      exact hl.stop_le_start i j hij hjs
    contiguous := by
      intro x hx hform p hp hhead
      obtain ⟨i, hi, hi', rfl, hsame⟩ := hget x hx
      obtain ⟨q, hq, htext, hall⟩ := hparts i hi hi'
      rw [(hall p hp).1, ← htext] at hhead
      obtain ⟨y, hy, hstop⟩ := h.clear.contiguous _ (List.getElem_mem hi) (hsame ▸ hform) q hq hhead
      refine ⟨y.mapOffsets (Edit.moved es), hpieces ▸ List.mem_map_of_mem hy, ?_⟩
      simp only [hpieces, List.getElem_map, Lexeme.mapOffsets, hstop] }

/-- The tree of the edited text is as well formed as the tree of the text. -/
theorem wellFormed_moved (hl' : s'.Lined) : (tree.moved es).WellFormed fixed where
  toFits := h.toFits.mapOffsets (Edit.monotone_moved es) fun _ => Edit.cuts_moved hd
    (fun e he => (isMargin_of_reindents h hs hl hes e he).fits) happly
  clear := clear_moved h hs hl hd hes happly hs' hsize hmoves hl'

/-- Where a token has been and where it has gone. -/
theorem exists_survives_margin {i : Nat} (hi : i < s.size) :
    ∃ a b a' b', source = a ++ (s.token i).text ++ b ∧ Text.size a = (s.token i).start ∧
      (s.token i).margin = Lexeme.lastLine a ∧ (s'.token i).margin = Lexeme.lastLine a' ∧
      ¬PartsPair a ((s.token i).text ++ b) ∧ Edit.Survives es a (s.token i).text b a' b' := by
  obtain ⟨a, b, a', b', hsource, hstart, -, hmargin, hp, hsurv⟩ :=
    exists_survives_token h hs hl hd hes hi
  refine ⟨a, b, a', b', hsource, hstart, hmargin, ?_, hp, hsurv⟩
  obtain ⟨x, -, hcut⟩ := hs'.getElem_cut (hsize ▸ hi : i < s'.size)
  obtain ⟨u, v, hfixed, hu, -, hmargin'⟩ := hcut.parts
  have hfixed' := hsurv.applied
  rw [← hsource, happly, Except.ok.injEq] at hfixed'
  rw [hfixed', List.append_assoc, List.append_assoc] at hfixed
  have hsame : Text.size a' = Text.size u := by
    rw [hu, ← hcut.start_eq, (hmoves i hi).start_eq, ← hstart, hsurv.size_before]
  rw [hmargin', (append_inj_of_size hfixed hsame).1]

/-- A line that is edited gets the margin of the edit. -/
theorem margin_of_edit (hapart : Edit.Apart es) {i : Nat} (hi : i < s.size) {e : Edit} (he : e ∈ es)
    (hrange : e.range = (s.token i).marginRange) : (s'.token i).margin = e.content.getD [] := by
  obtain ⟨a, b, a', b', -, hstart, -, hmargin', -, hsurv⟩ :=
    exists_survives_margin h hs hl hd hes happly hs' hsize hmoves hi
  have hstop : Text.size a = e.range.stop := by rw [hstart, hrange]; rfl
  rw [hmargin', hsurv.lastLine_edited hapart e he a [] (List.append_nil a).symm hstop
    (fun c hc => by cases hc), List.append_nil]

/-- A line that is not edited keeps its margin. -/
theorem margin_of_no_edit {i : Nat} (hi : i < s.size) (hlead : s.leads i = true)
    (hno : ∀ e ∈ es, e.range ≠ (s.token i).marginRange) :
    (s'.token i).margin = (s.token i).margin := by
  obtain ⟨a, b, a', b', hsource, hstart, hmargin, hmargin', hp, hsurv⟩ :=
    exists_survives_margin h hs hl hd hes happly hs' hsize hmoves hi
  rw [hmargin, hmargin']
  refine hsurv.lastLine_eq fun e he u w hw hu hflat => ?_
  obtain ⟨j, hj, -, hrange, -⟩ := hes e he
  have hstartj : Text.size u = (s.token j).start := by rw [hu, hrange]; rfl
  have hji : j < i := by
    refine hl.lt_of_start_lt hj ?_
    have hle : Text.size u ≤ Text.size a := by
      rw [hw, size_append]
      omega
    have hne : j ≠ i := by
      rintro rfl
      exact hno e he hrange
    rw [← hstartj, ← hstart]
    refine Nat.lt_of_le_of_ne hle fun heq => hne (hl.eq_of_start_eq hj hi ?_)
    rw [← hstartj, ← hstart, heq]
  -- the token of the edit would be on the line of this one
  obtain ⟨x, -, hcut⟩ := hs.getElem_cut hj
  obtain ⟨c, d, hsource', hc, hstop', -⟩ := hcut.parts
  rw [← hcut.start_eq] at hc
  have hpj := not_partsPair h.clear hs hj hsource' hc (hstop'.trans hcut.stop_eq.symm)
  have hcu : c = u := by
    rw [hw, List.append_assoc, List.append_assoc] at hsource
    rw [List.append_assoc] at hsource'
    exact (append_inj_of_size (hsource'.symm.trans hsource) (hc.trans hstartj.symm)).1
  subst hcu
  have h₁ : (Lines.of source).lineOf (s.token j).start = (terminators c).length + 1 := by
    rw [← hc, hsource', List.append_assoc]
    exact lineOf_append hpj
  have h₂ : (Lines.of source).lineOf (s.token i).start = (terminators a).length + 1 := by
    rw [← hstart, hsource, List.append_assoc]
    exact lineOf_append hp
  have hterm : terminators a = terminators c := by
    rw [hw, terminators_append hflat.not_partsPair_right, hflat.terminators_eq, List.append_nil]
  have hlt := (hl.leads_iff hi).1 hlead j hji
  have hle := hl.startLine_le j hj
  obtain ⟨y, -, hycut⟩ := hs.getElem_cut hi
  rw [hcut.startLine_eq, ← hcut.start_eq, h₁] at hle
  rw [hycut.startLine_eq, ← hycut.start_eq, h₂, hterm] at hlt
  omega

end TokenStream

end Indentation
