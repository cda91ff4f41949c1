import Indentation.Proofs.Lint.Rounds

/-!
# Chains of lists

Each list of a chain stands in the column of the first element of the list around it.  A pass puts every
list where the list around it was, so what is out of place moves down the chain by one list a pass.
-/

namespace Indentation

open Text Cursor TokenStream Construct

namespace IndentRule

/-! ## Programs of arrays -/

/-- A program of arrays without parentheses. -/
structure Arrays (s : TokenStream) (tree : Node) : Prop where
  array : ∀ c ∈ tree.preorder, ∀ k, ofPlace? c = some k → k = .array
  unheld : ∀ c ∈ tree.preorder, c.kind ≠ "program" → ∀ d ∈ c.properChildren, ¬IsHeld c d
  unbraced : ∀ c ∈ tree.preorder, c.kind ∉ ["statement_block", "class_body", "switch_body"]
  bare : Parens.pairs s = []
  separated : ∀ c ∈ tree.preorder, ofPlace? c = some .array → ∀ span, s.spanOfNode? c = some span →
    FirstList.Separated s c span (Sequence.arrayElements c)

/-- A token is put into the column of another one. -/
def InColumn (s : TokenStream) (tree : Node) (lead t : Nat) : Prop :=
  ∃ c ∈ tree.preorder, ∃ span e, ofPlace? c = some .array ∧ s.spanOfNode? c = some span ∧
    (Sequence.arrayElements c).head?.join.bind (Sequence.elementStart? s span.first) = some lead ∧
    some e ∈ (Sequence.arrayElements c).drop 1 ∧ Sequence.elementStart? s span.first e = some t

variable {o : IndentOptions} {source : Text} {tree : Node} {s s' : TokenStream} {f : Nat → Nat}

theorem Arrays.grammatical (h : Arrays s tree) (hin : InOrder s tree) : Grammatical s tree := by
  have hother : ∀ c ∈ tree.preorder, ∀ {k}, k ≠ .array → ofPlace? c ≠ some k :=
    fun c hc _ hne hk => hne (h.array c hc _ hk)
  have hnone : ∀ {P : Prop}, ∀ p ∈ Parens.pairs s, P := fun p hp => by
    rw [h.bare] at hp
    cases hp
  exact {
    inOrder := hin
    whole := fun c hc => ⟨fun hk => absurd hk (hother c hc nofun),
      fun hk => absurd hk (hother c hc nofun), fun hk => absurd hk (hother c hc nofun)⟩
    framed := fun c hc => ⟨fun hkind d hd => absurd hd.2 (h.unheld c hc hkind d hd.1),
      fun hkind => absurd hkind (h.unbraced c hc), fun _ _ p hp => hnone p hp⟩
    balanced := fun _ _ _ p hp => hnone p hp }

section

variable (htracks : s.Tracks f s')
include htracks

theorem Arrays.mapOffsets (h : Arrays s tree) : Arrays s' (tree.mapOffsets f) where
  array := by
    intro _ hmem k hk
    obtain ⟨c, hc, rfl⟩ := Node.exists_of_mem_preorder_mapOffsets hmem
    exact h.array c hc k (ofPlace?_mapOffsets c ▸ hk)
  unheld := by
    intro _ hmem hkind _ hd hheld
    obtain ⟨c, hc, rfl⟩ := Node.exists_of_mem_preorder_mapOffsets hmem
    rw [properChildren_mapOffsets] at hd
    obtain ⟨d, hdc, rfl⟩ := List.mem_map.1 hd
    rw [IsHeld, kind_mapOffsets, field_mapOffsets] at hheld
    exact h.unheld c hc (by rwa [kind_mapOffsets] at hkind) d hdc hheld
  unbraced := by
    intro _ hmem
    obtain ⟨c, hc, rfl⟩ := Node.exists_of_mem_preorder_mapOffsets hmem
    rw [kind_mapOffsets]
    exact h.unbraced c hc
  bare := by rw [parenPairs_eq htracks.toParallels, h.bare]
  separated := by
    intro _ hmem hk span hspan
    obtain ⟨c, hc, rfl⟩ := Node.exists_of_mem_preorder_mapOffsets hmem
    rw [ofPlace?_mapOffsets] at hk
    rw [htracks.spanOfNode?_eq] at hspan
    have hseparated := h.separated c hc hk span hspan
    have hmap : ∀ {xs : List (Option Cursor)} {e}, some e ∈ xs.map (Option.map (Cursor.mapOffsets f)) →
        ∃ d, some d ∈ xs ∧ e = d.mapOffsets f := fun he => by
      obtain ⟨d, hd, hde⟩ := List.mem_map.1 he
      obtain ⟨d, rfl, rfl⟩ := Option.map_eq_some_iff.1 hde
      exact ⟨d, hd, rfl⟩
    rw [Sequence.arrayElements_mapOffsets]
    refine ⟨fun e he => ?_, fun e he => ?_, fun e he t ht => ?_, fun e he t ht => ?_⟩
    · refine adjoins_child ((Sequence.filterMap_arrayElements _).subset ?_)
      rw [Sequence.arrayElements_mapOffsets]
      exact List.mem_filterMap.2 ⟨some e, he, rfl⟩
    · obtain ⟨d, hd, rfl⟩ := hmap he
      rw [named_mapOffsets]
      exact hseparated.named d hd
    · rw [← List.map_drop] at he
      obtain ⟨d, hd, rfl⟩ := hmap he
      rw [htracks.firstOf?_eq] at ht
      simp only [htracks.prevCode?_eq, htracks.isPunctuator_eq]
      exact hseparated.commas d hd t ht
    · obtain ⟨d, hd, rfl⟩ := hmap he
      rw [htracks.firstOf?_eq] at ht
      exact hseparated.closes d hd t ht

theorem InColumn.mapOffsets {lead t : Nat} (h : InColumn s tree lead t) :
    InColumn s' (tree.mapOffsets f) lead t := by
  obtain ⟨c, hc, span, e, hk, hspan, hlead, he, ht⟩ := h
  refine ⟨c.mapOffsets f, Node.mem_preorder_mapOffsets f hc, span, e.mapOffsets f,
    by rw [ofPlace?_mapOffsets, hk], by rw [htracks.spanOfNode?_eq, hspan], ?_, ?_,
    by rw [Sequence.elementStart?_eq htracks.toParallels, ht]⟩
  · rw [Sequence.arrayElements_mapOffsets, List.head?_map]
    cases hhead : (Sequence.arrayElements c).head? with
    | none => simp [hhead] at hlead
    | some element =>
      cases element with
      | none => simp [hhead] at hlead
      | some d => simpa [hhead, Sequence.elementStart?_eq htracks.toParallels] using hlead
  · rw [Sequence.arrayElements_mapOffsets, ← List.map_drop]
    exact List.mem_map_of_mem he

end

theorem InColumn.lead_lt {lead t : Nat} (h : InColumn s tree lead t) : lead < s.size := by
  obtain ⟨c, hc, span, e, hk, hspan, hlead, he, ht⟩ := h
  obtain ⟨d, hd, hstart⟩ := Option.bind_eq_some_iff.1 hlead
  obtain ⟨first, hfirst, hlt, hcode, hcases⟩ := Sequence.elementStart?_some hstart
  exact hlt

/-- A token that may not stand where it is stands in its column. -/
theorem InColumn.width_eq (hl : s.Lined) (hn : tree.Nested) (hin : InOrder s tree) (ha : Arrays s tree)
    (ho : o.array = .first) {lead t : Nat} (h : InColumn s tree lead t) (hleads : s.leads t = true)
    (hexempt : (graph o tree s).isExempt t = false) {widths : Array Nat}
    (hprescribed : widths.getD t 0 =
      (graph o tree s).prescribed s o.indentChar (fun a => widths.getD a 0) t) :
    widths.getD t 0 = (s.token lead).column := by
  obtain ⟨c, hc, span, e, hk, hspan, hlead, he, ht⟩ := h
  have hshift : ∀ d ∈ tree.preorder, ofPlace? d = some .declarator →
      ∀ w ∈ Declaration.shiftWrites s o d, ¬w.Touches t := fun d hd hk' => by
    cases ha.array d hd _ hk'
  have hnone : ∀ {P : Prop}, ∀ p ∈ Parens.pairs s, P := fun p hp => by
    rw [ha.bare] at hp
    cases hp
  have hedge : (graph o tree s).edge t = ⟨none, (s.token lead).column⟩ := by
    rw [graph, Graph.writeAll_append, Parens.edge_writes_of_ungrouped (fun p hp => hnone p hp)
      (fun p hp _ _ => hnone p hp)]
    exact edge_writes_of_first hl hn (ha.grammatical hin) hc (.array hk ho hspan)
      (ha.separated c hc hk span hspan) hlead he ht hleads hshift
  rw [hprescribed, Graph.prescribed, hexempt, Graph.anchor?, hedge]
  rfl

/-! ## A chain and the passes over it -/

/-- Lines whose leading tokens are brackets, each in the column of what follows the bracket before it. -/
structure Chain (o : IndentOptions) (n : Nat) (head : Nat → Nat) (s : TokenStream) (tree : Node) :
    Prop extends Arrays s tree where
  head_zero : head 0 = 0
  head_lt : ∀ i ≤ n, head i < s.size
  code : ∀ i ≤ n, s.isComment (head i) = false
  leads : ∀ i ≤ n, s.leads (head i) = true
  placed : ∀ i ≤ n, (graph o tree s).isExempt (head i) = false
  unsuppressed : ∀ i ≤ n, (Suppression.ofTokens s).holds name.toList (s.token (head i)).start = false
  outermost : (graph o tree s).edge 0 = .margin
  opens : ∀ i < n, (s.token (head i)).text = ['[']
  adjacent : ∀ i < n, (s.token (head i + 1)).start = (s.token (head i)).stop
  linked : ∀ i < n, InColumn s tree (head i + 1) (head (i + 1))

/-- The margins of a chain after a pass, given those before it. -/
def passed (m : Nat → Nat) : Nat → Nat
  | 0 => 0
  | i + 1 => m i + 1

/-- So many passes settle so many lines. -/
theorem iterate_passed_of_lt (m : Nat → Nat) {k i : Nat} (h : i < k) : passed^[k] m i = i := by
  induction k generalizing i with
  | zero => omega
  | succ k ih =>
    rw [Function.iterate_succ_apply']
    cases i with
    | zero => rfl
    | succ i => rw [passed, ih (by omega)]

/-- What is out of place on the first line comes down line by line. -/
theorem iterate_passed_self (m : Nat → Nat) (k : Nat) : passed^[k] m k = m 0 + k := by
  induction k with
  | zero => rfl
  | succ k ih => rw [Function.iterate_succ_apply', passed, ih, Nat.add_assoc]

/-- After some passes the line that they have come to is still out of place. -/
theorem iterate_passed_ne {m : Nat → Nat} (h : 0 < m 0) (k : Nat) :
    passed^[k] m k ≠ passed (passed^[k] m) k := by
  have hlt := iterate_passed_of_lt m (Nat.lt_succ_self k)
  rw [Function.iterate_succ_apply'] at hlt
  rw [hlt, iterate_passed_self]
  omega

variable {n : Nat} {head : Nat → Nat}

namespace Chain

variable (hc : Chain o n head s tree)
include hc

/-- A bracket that is not where it should be is reported. -/
theorem mem_reported {widths : Array Nat} {i : Nat} (hi : i ≤ n)
    (hfits : Mismatch.fits s o.indentChar widths (head i) (head i) = false) :
    Mismatch.of s widths (head i) ∈
      reported s (Mismatch.all s o.indentChar (graph o tree s) widths) := by
  have hmisplaced : Mismatch.isMisplaced s o.indentChar (graph o tree s) widths (head i) = true := by
    rw [Mismatch.isMisplaced, hc.leads i hi, hc.placed i hi, hfits]
    rfl
  refine List.mem_filter.2 ⟨Mismatch.mem_all.2 ⟨head i, hc.head_lt i hi, rfl,
    .inl ⟨hc.code i hi, hmisplaced⟩⟩, ?_⟩
  rw [Mismatch.of, hc.unsuppressed i hi]
  rfl

variable {widths : Array Nat} {es : List Edit} {fixed : Text} (h : Readable source tree)
  (hs : TokenStream.ofTree source tree = .ok s) (hcut : s.CutFrom source tree.pieces) (hl : s.Lined)
include h

include hcut in
theorem column_eq {i : Nat} (hi : i < n) :
    (s.token (head i + 1)).column = (s.token (head i)).column + 1 := by
  have hflat : (s.token (head i)).text.Flat := by
    rw [hc.opens i hi]
    decide
  rw [TokenStream.column_of_adjacent h.clear hcut (hc.head_lt i (Nat.le_of_lt hi))
    (hc.linked i hi).lead_lt hflat (hc.adjacent i hi), hc.opens i hi]
  rfl

include hs hcut hl in
/-- The first bracket should stand at the margin of the page, and each other one in the column behind
the bracket before it. -/
theorem width_eq (ho : o.array = .first)
    (hwidths : (graph o tree s).resolve s o.indentChar = .ok widths) {m : Nat → Nat}
    (hm : ∀ i ≤ n, (s.token (head i)).margin = Text.fill o.indentChar.char (m i)) {i : Nat}
    (hi : i ≤ n) : widths.getD (head i) 0 = passed m i := by
  obtain ⟨_, hresolve, hprescribed⟩ := exists_widths hl h.toNested (h.inOrder s hs) o
  obtain rfl := Except.ok.inj (hresolve.symm.trans hwidths)
  cases i with
  | zero =>
    have hplaced := hc.placed 0 hi
    have hlt := hc.head_lt 0 hi
    rw [hc.head_zero] at hplaced hlt ⊢
    rw [hprescribed 0 hlt, Graph.prescribed, hplaced, Graph.anchor?, hc.outermost]
    rfl
  | succ i =>
    have hlt : i < n := hi
    have hwidth := (hc.linked i hlt).width_eq hl h.toNested (h.inOrder s hs) hc.toArrays ho
      (hc.leads _ hi) (hc.placed _ hi) (hprescribed _ (hc.head_lt _ hi))
    rw [hwidth, hc.column_eq h hcut hlt,
      TokenStream.column_eq_length h.clear hcut (hc.head_lt i (Nat.le_of_lt hlt)),
      hm i (Nat.le_of_lt hlt), Text.fill, List.length_replicate, passed]

variable (hp : Pass o source tree s widths es fixed s')
include hcut hl hp

include hs in
/-- A pass over a chain leaves a chain. -/
theorem moved : Chain o n head s' (tree.moved es) := by
  have htracks := hp.tracks h.toWellFormed hcut hl
  -- nothing comes before the first token, so the graphs agree about it
  have hagree := agreeAt_graph (o := o) (t := 0) htracks h.toNested (h.ended s hs)
    (covers_of_isMark hcut h.marks) fun u hu => absurd hu (Nat.not_lt_zero u)
  exact {
    toArrays := hc.toArrays.mapOffsets htracks
    head_zero := hc.head_zero
    head_lt := fun i hi => hp.size_eq ▸ hc.head_lt i hi
    code := fun i hi => htracks.isComment_eq _ ▸ hc.code i hi
    leads := fun i hi => htracks.leads_eq _ ▸ hc.leads i hi
    placed := fun i hi => (hagree.isExempt_eq (head i)).symm.trans (hc.placed i hi)
    unsuppressed := fun i hi => by
      rw [Suppression.holds_eq htracks.toParallels hcut hl h.clear hp.cut hp.lined
        (hp.wellFormed h.toWellFormed hcut hl).clear name.toList (hc.head_lt i hi)]
      exact hc.unsuppressed i hi
    outermost := hagree.edge_eq.symm.trans hc.outermost
    opens := fun i hi => by rw [htracks.text_eq, hc.opens i hi]
    adjacent := fun i hi => by
      rw [(hp.moves _ (hc.linked i hi).lead_lt).start_eq,
        (hp.moves _ (hc.head_lt i (Nat.le_of_lt hi))).stop_eq, hc.adjacent i hi]
    linked := fun i hi => (hc.linked i hi).mapOffsets htracks }

/-- A pass puts each bracket where it should be. -/
theorem margin_eq {m i : Nat} (hi : i ≤ n)
    (hmargin : (s.token (head i)).margin = Text.fill o.indentChar.char m) :
    (s'.token (head i)).margin = Text.fill o.indentChar.char (widths.getD (head i) 0) := by
  have hdesc := hp.apart.descending
  have hre := hp.reindents h.toWellFormed hcut hl
  have hlt := hc.head_lt i hi
  by_cases hedit : ∃ e ∈ es, e.range = (s.token (head i)).marginRange
  · obtain ⟨e, he, hrange⟩ := hedit
    rw [TokenStream.margin_of_edit h.toWellFormed hcut hl hdesc hre hp.applied hp.cut hp.size_eq hp.moves
      hp.apart hlt he hrange]
    exact (hp.exists_of_edit h.toWellFormed hcut hl hlt he hrange).1
  · rw [TokenStream.margin_of_no_edit h.toWellFormed hcut hl hdesc hre hp.applied hp.cut hp.size_eq hp.moves
      hlt (hc.leads i hi) fun e he hrange => hedit ⟨e, he, hrange⟩, hmargin]
    by_contra hne
    have hfits : Mismatch.fits s o.indentChar widths (head i) (head i) = false := by
      rw [Mismatch.fits, TokenStream.marginOf, hmargin, Margin.measure_fill, beq_eq_false_iff_ne]
      rintro rfl
      exact hne rfl
    exact hedit ⟨_, (hp.mem_iff _).2 ⟨_, hc.mem_reported hi hfits, rfl⟩, Edit.range_replacement _ _⟩

end Chain

variable {level : Applicability}

/-- A round of a chain with a line out of place leads to a round of a chain, one pass further. -/
theorem Chain.exists_next {k : Nat} {r : Linter.Round} (hc : Chain o n head s r.tree)
    (ho : o.array = .first) (h : Readable r.source r.tree)
    (hs : TokenStream.ofTree r.source r.tree = .ok s)
    (hfound : (linter o).lintTree k r.source r.tree = .ok r.found) {m : Nat → Nat}
    (hm : ∀ i ≤ n, (s.token (head i)).margin = Text.fill o.indentChar.char (m i)) {i : Nat}
    (hi : i ≤ n) (hout : m i ≠ passed m i) :
    Linter.wantedEdits level r.found ≠ [] ∧
      ∃ r' s', (linter o).next? level k r = some r' ∧
        TokenStream.ofTree r'.source r'.tree = .ok s' ∧ Chain o n head s' r'.tree ∧
        ∀ i ≤ n, (s'.token (head i)).margin = Text.fill o.indentChar.char (passed m i) := by
  obtain ⟨_, widths, hs₁, hcut, hl, hlook, fixed, s', hp⟩ := h.exists_look o level
  obtain rfl := Except.ok.inj (hs.symm.trans hs₁)
  have heq := Except.ok.inj ((hlook k).symm.trans hfound)
  rw [heq] at hp
  have hwidth : ∀ i ≤ n, widths.getD (head i) 0 = passed m i := fun i hi =>
    hc.width_eq h hs hcut hl ho hp.resolved hm hi
  have hwanted : Linter.wantedEdits level r.found ≠ [] := by
    have hfits : Mismatch.fits s o.indentChar widths (head i) (head i) = false := by
      rw [Mismatch.fits, TokenStream.marginOf, hm i hi, hwidth i hi, Margin.measure_fill,
        beq_eq_false_iff_ne]
      exact hout
    have hperm := wantedEdits_perm (o := o) (s := s) level
      (Mismatch.all s o.indentChar (graph o r.tree s) widths)
    rw [heq] at hperm
    exact List.ne_nil_of_mem (hperm.mem_iff.2 (List.mem_map_of_mem (hc.mem_reported hi hfits)))
  obtain ⟨r', -, hnext, -, -⟩ := h.exists_step hfound hwanted
  obtain ⟨-, happly, htree, -⟩ := Linter.next?_eq_some_iff.1 hnext
  obtain rfl := Except.ok.inj (hp.applied.symm.trans happly)
  refine ⟨hwanted, r', s', hnext, htree ▸ hp.ofTree_eq, htree ▸ hc.moved h hs hcut hl hp, fun i hi => ?_⟩
  rw [hc.margin_eq h hcut hl hp hi (hm i hi), hwidth i hi]

section

variable (hc : Chain o n head s tree) (ho : o.array = .first) (h : Readable source tree)
  (hs : TokenStream.ofTree source tree = .ok s) {m : Nat → Nat}
  (hm : ∀ i ≤ n, (s.token (head i)).margin = Text.fill o.indentChar.char (m i)) (hout : 0 < m 0)
include hc ho h hs hm hout

theorem Chain.exists_round {k : Nat} (hk : k ≤ n) :
    ∃ r s, (linter o).rounds level source tree k = some r ∧
      TokenStream.ofTree r.source r.tree = .ok s ∧ Chain o n head s r.tree ∧
      ∀ i ≤ n, (s.token (head i)).margin = Text.fill o.indentChar.char (passed^[k] m i) := by
  induction k with
  | zero =>
    obtain ⟨r, hr⟩ : ∃ r, (linter o).rounds level source tree 0 = some r := h.exists_zero
    obtain ⟨hsource, htree, -⟩ := Linter.look?_eq_some_iff.1 hr
    exact ⟨r, s, hr, by rw [hsource, htree, hs], htree ▸ hc, hm⟩
  | succ k ih =>
    obtain ⟨r, s, hr, hs, hc, hm⟩ := ih (by omega)
    obtain ⟨hread, hfound⟩ := h.of_rounds hr
    obtain ⟨-, r', s', hnext, hs', hc', hm'⟩ := hc.exists_next ho hread hs hfound hm
      (by omega : k ≤ n) (iterate_passed_ne hout k)
    refine ⟨r', s', Linter.rounds_succ_eq_some_iff.2 ⟨r, hr, hnext⟩, hs', hc', fun i hi => ?_⟩
    rw [hm' i hi, Function.iterate_succ_apply']

/-- A chain whose first line stands too far in takes as many passes as it has lines. -/
theorem Chain.exists_late_round {k : Nat} (hk : k ≤ n) :
    ∃ r, (linter o).rounds level source tree k = some r ∧ Linter.wantedEdits level r.found ≠ [] := by
  obtain ⟨r, s, hr, hs, hc, hm⟩ : ∃ r s, (linter o).rounds level source tree k = some r ∧ _ :=
    hc.exists_round ho h hs hm hout hk
  obtain ⟨hread, hfound⟩ := h.of_rounds hr
  exact ⟨r, hr, (hc.exists_next ho hread hs hfound hm hk
    (iterate_passed_ne hout k)).1⟩

end

end IndentRule

end Indentation
