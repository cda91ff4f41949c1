import Indentation.Proofs.Construct.Listed
import Indentation.Proofs.Lint.Aligned

/-!
# Lists that are put in by levels

What a list writes about the first tokens of its elements stays as it is.  The anchor of an element is
the opening delimiter or a token between that and the element, so whatever moves the element moves its
anchor too: no parentheses that group open behind the delimiter and close behind the element.
-/

namespace Indentation

open Cursor TokenStream Construct Sequence

namespace IndentRule

variable {s : TokenStream} {tree : Node} {o : IndentOptions} {c e : Cursor} {span : Span}
  {elements : List (Option Cursor)} {levels i t : Nat}

section

variable (hs : s.Lined) (hn : tree.Nested) (hg : Grammatical s tree)
  (hended : ∀ c ∈ tree.preorder, Ended s c) (hc : c ∈ tree.preorder)
  (h : LevelList s o c span elements levels) (hdelimited : Delimited s c span elements)
  (he : elements[i]? = some (some e)) (ht : elementStart? s span.first e = some t)
include hs hn hc h hdelimited

omit hdelimited in
/-- The parentheses of parameters and arguments are brackets in the graph. -/
theorem isBracket_of_isCallable {k : Construct} (hk : ofPlace? c = some k) (hcallable : isCallable k = true) :
    (graph o tree s).isBracket span.first = true := by
  have hopening := h.listed.codeIn_first hs hn hc
  obtain ⟨before, post, hwrites, -⟩ := exists_split_writes (o := o) hs hn hc hk hopening
  obtain ⟨ahead, after, henter, hbracket, -⟩ := h.listed.exists_enter hk
  rw [graph, Graph.writeAll_append, Parens.isBracket_writes, hwrites, henter]
  refine Graph.isBracket_writeAll_of_mem ?_ (by simpa [Graph.blank] using hopening.lt_size)
  simp [hbracket hcallable]

include hg hended he ht

omit hg in
theorem firstOf?_of_levels : s.firstOf? e = some t :=
  firstOf?_of_elementStart? hdelimited (h.listed.successive hn hended hc) hs.toOrdered
    (h.listed.codeIn_first hs hn hc).code he ht

/-- At the end of a walk an element is put in as its list says. -/
theorem exists_edge_writes_of_levels (hleads : s.leads t = true) :
    ∃ a n, PutIn s o.unit span elements levels i a n ∧ span.first ≤ a ∧ a < t ∧
      ∀ g : Graph, t < g.size → (g.writeAll s o.unit (Construct.writes s o tree)).edge t = ⟨some a, n⟩ := by
  have hsuccessive := h.listed.successive hn hended hc
  have hmem := List.mem_of_getElem? he
  have hopening := h.listed.codeIn_first hs hn hc
  have hfirst := firstOf?_of_levels hs hn hended hc h hdelimited he ht
  have hlast := (hdelimited.between e hmem t hfirst).2
  have hadjoins := h.adjoins hmem
  have hrange := hn.range_le hc hadjoins.1
  have htin := (codeIn_of_firstOf? hs.toOrdered hfirst).mono hrange.1 hrange.2
  obtain ⟨a, n, hput, hedge⟩ : ∃ a n, PutIn s o.unit span elements levels i a n ∧ ∀ g : Graph, _ → _ :=
    exists_edge_writes hdelimited hsuccessive hs hopening.code he ht hn
      (fun d hd => Node.mem_preorder_of_reaches hc (h.adjoins hd).1) hleads
  obtain ⟨hle, hlt, hcode⟩ := hput.between hdelimited hsuccessive hs hopening.code he ht
  have hain := hopening.between hs.toOrdered htin hle (Nat.le_of_lt hlt) hcode
  obtain ⟨k, hk, hne⟩ := h.listed.exists_construct
  obtain ⟨before, after, henter, -, hafter⟩ := h.listed.exists_enter hk
  refine ⟨a, n, hput, hle, hlt, fun g hsize => edge_writes_of_enter hs hn hg hc hk hadjoins hfirst hleads
    (fun b hb hbw v hv => ?_) fun g' hg' => ?_⟩
  · exact keeps_of_leave hs hn hb hbw hk hne hain htin v hv
  · rw [henter, Graph.edge_append_of (hafter t hlast), Graph.writeAll_append]
    exact hedge _ (by rw [Graph.size_writeAll, hg']; exact hsize)

/-- Parentheses that group an element are around its list. -/
theorem lt_first_of_encloses {p : Nat × Nat} (hp : p ∈ Parens.pairs s)
    (hgroups : Parens.Groups (graph o tree s) p) (hencloses : Parens.Encloses p t) : p.1 < span.first := by
  have hsuccessive := h.listed.successive hn hended hc
  have hfirst := firstOf?_of_levels hs hn hended hc h hdelimited he ht
  have hparen := (Parens.isPunctuator_of_mem_pairs hp).1
  by_contra hge
  rcases Nat.eq_or_lt_of_le (Nat.le_of_not_lt hge) with heq | hlt
  · obtain ⟨k, hk, hcallable⟩ := hdelimited.opening (heq ▸ hparen)
    have hbracket := isBracket_of_isCallable hs hn hc h hk hcallable
    rw [heq, hgroups.1] at hbracket
    cases hbracket
  · -- what opens between the elements closes before this one
    obtain ⟨j, d, hj, hd, hin⟩ := exists_earlier_of_lt hdelimited hsuccessive hs.toOrdered he hfirst hlt
      hencloses.1 (Parens.lt_of_mem_pairs hp).2.2 (isPunctuator_eq_false hparen (by decide))
    have hdt := Node.mem_preorder_of_reaches hc (h.adjoins (List.mem_of_getElem? hd)).1
    have hcloses := (hg.balanced d hdt (h.listed.named hended hc (List.mem_of_getElem? hd)) p hp).1 hin
    have := lt_of_stop_le_start hs.toOrdered hcloses (codeIn_of_firstOf? hs.toOrdered hfirst)
      (hsuccessive.stop_le_start hj hd he)
    have := hencloses.2
    omega

/-- In the graph of a tree an element is put in as its list says. -/
theorem exists_edge_graph_of_levels (hleads : s.leads t = true) :
    ∃ a n, PutIn s o.unit span elements levels i a n ∧ (graph o tree s).edge t = ⟨some a, n⟩ := by
  have hmem := List.mem_of_getElem? he
  have hfirst := firstOf?_of_levels hs hn hended hc h hdelimited he ht
  have hsize : t < (Graph.blank s.size).size := by
    simpa using (codeIn_of_firstOf? hs.toOrdered hfirst).lt_size
  obtain ⟨a, n, hput, hle, hlt, hedge⟩ :=
    exists_edge_writes_of_levels hs hn hg hended hc h hdelimited he ht hleads
  have hwritten := hedge _ hsize
  have hne : ∀ p ∈ Parens.pairs s, t ≠ p.2 := fun p hp =>
    ne_first_of_mem_pairs hs hg.balanced (Node.mem_preorder_of_reaches hc (h.adjoins hmem).1)
      (h.listed.named hended hc hmem) hfirst hp
  have hgraph : (graph o tree s).edge t = (((Graph.blank s.size).writeAll s o.unit
      (Construct.writes s o tree)).writeAll s o.unit (Parens.writes s)).edge t := by
    rw [graph, Graph.writeAll_append]
  refine ⟨a, n, hput, ?_⟩
  rcases Graph.edge_foldl_enclose (Parens.pairwise_around s) (by rwa [Graph.size_writeAll]) hne hgraph.symm
    with ⟨-, hkept⟩ | ⟨p, hp, hkept⟩
  · exact hkept.trans hwritten
  · have hgroups : Parens.Groups (graph o tree s) p := by
      simpa only [Parens.Groups, graph, Graph.writeAll_append, Parens.isBracket_writes] using hp.groups
    have hbefore := lt_first_of_encloses hs hn hg hended hc h hdelimited he ht hp.mem hgroups hp.encloses
    have hbehind := hp.encloses.2
    rw [hkept, if_pos (Edge.isIn_iff.2 ⟨a, congrArg Edge.anchor hwritten, ?_⟩), hwritten]
    exact ⟨by omega, by omega⟩

end

/-- The elements of a list that is handled by levels.  An element that leads its line and may not stand
where it is stands level with the one before it, if that is no hole and ends, without the parentheses around
it, on a later line than the opening delimiter.  Otherwise it stands in from the opening delimiter by
the levels of the list, as far as the limit of widths allows. -/
theorem exists_chained {source : Text} (h : tree.Fits source) (hsmall : Text.size source ≤ Offset.limit)
    (o : IndentOptions)
    (hg : ∀ d, Document.of source tree = .ok d → Grammatical d.stream tree)
    (hpunctuated : ∀ d, Document.of source tree = .ok d → ∀ c ∈ tree.preorder, Punctuated d.stream c)
    (hlists : ∀ d, Document.of source tree = .ok d → ∀ c ∈ tree.preorder, ∀ span elements levels,
      LevelList d.stream o c span elements levels → Delimited d.stream c span elements) :
    ∃ d widths, Document.of source tree = .ok d ∧
      (graph o tree d.stream).resolve d.stream o.indentChar = .ok widths ∧
      ∀ c ∈ tree.preorder, ∀ span elements levels, LevelList d.stream o c span elements levels →
        ∀ i e, elements[i]? = some (some e) → ∀ t, elementStart? d.stream span.first e = some t →
          d.stream.leads t = true → (graph o tree d.stream).isExempt t = false →
          (∀ previous, Chained d.stream span elements i previous →
            ∃ f, elementStart? d.stream span.first previous = some f ∧
              widths.getD t 0 = widths.getD f 0) ∧
          ((∀ previous, ¬Chained d.stream span elements i previous) →
            widths.getD t 0 = min (widths.getD span.first 0 + levels * o.unit) widthLimit) := by
  obtain ⟨s, hs, hcut, hl⟩ := h.exists_ofTree
  have hdoc : Document.of source tree = .ok ⟨source, .of source, tree, s⟩ := by
    rw [Document.of, hs]
    rfl
  have hg := hg _ hdoc
  have hpunctuated := hpunctuated _ hdoc
  obtain ⟨widths, hwidths, hprescribed, hle⟩ :=
    exists_widths_le hl h.toNested hg.inOrder hcut hsmall o
  refine ⟨_, widths, hdoc, hwidths, ?_⟩
  intro c hc span elements levels hlist i e he t ht hleads hexempt
  have hdelimited := hlists _ hdoc c hc span elements levels hlist
  have hended : ∀ c ∈ tree.preorder, Ended s c := fun c hc => (hpunctuated c hc).toEnded
  have hfirst := firstOf?_of_levels hl h.toNested hended hc hlist hdelimited he ht
  have hsize := (codeIn_of_firstOf? hl.toOrdered hfirst).lt_size
  obtain ⟨a, n, hput, hedge⟩ :=
    exists_edge_graph_of_levels hl h.toNested hg hended hc hlist hdelimited he ht hleads
  have hwidth : widths.getD t 0 = Width.add (widths.getD a 0) n := by
    rw [hprescribed t hsize, Graph.prescribed, hexempt, Graph.anchor?, hedge]
    rfl
  cases hput with
  | opened hnone =>
    refine ⟨fun previous hchained => absurd hchained (hnone previous), fun _ => ?_⟩
    rw [hwidth, Width.add, Width.ofLevels]
    omega
  | chained hchained ha =>
    refine ⟨fun previous hchained' => ?_, fun hnone => absurd hchained (hnone _)⟩
    obtain rfl := hchained.eq hchained'
    obtain ⟨-, -, hasize, -⟩ := elementStart?_some ha
    exact ⟨a, ha, hwidth.trans (Width.add_zero (hle a hasize))⟩

theorem punctuated_listTree : ∀ c ∈ listTree.preorder, Punctuated listStream c := by
  have hnames : ∀ c ∈ listTree.preorder, c.named = true →
      (∀ t ∈ listStream.firstOf? c, listStream.isCloser t = false) ∧
        ∀ t ∈ listStream.lastOf? c, listStream.isPunctuator t ['('] = false := by
    with_unfolding_all decide
  have hfields : ∀ c ∈ listTree.preorder,
      c.fieldChild? "parameter" = none ∧ c.fieldChild? "value" = none := by
    decide
  have helements : ∀ c ∈ listTree.preorder, ofPlace? c = some .array →
      ∀ e ∈ (arrayElements c).filterMap id, e.named = true := by
    decide
  intro c hc
  have hother {k : Construct} (hne : k ≠ .array) : ofPlace? c ≠ some k := fun hk =>
    hne (ofPlace?_listTree c hc _ hk)
  obtain ⟨hparameter, hvalue⟩ := hfields c hc
  exact {
    begins := fun hnamed => (hnames c hc hnamed).1
    ends := fun hnamed => (hnames c hc hnamed).2
    element := fun h => helements c hc (h.resolve_right (hother nofun))
    part := fun d hd => by simp [hparameter, hvalue] at hd
    operator := fun h => absurd h (hother nofun)
    assignment := fun h => absurd h (hother nofun)
    value := fun h => absurd h (hother nofun)
    access := fun h => absurd h (hother nofun) }

theorem delimited_listTree (hc : c ∈ listTree.preorder) (h : LevelList listStream o c span elements levels) :
    Delimited listStream c span elements := by
  have hlist : ∀ c ∈ listTree.preorder, ofPlace? c = some .array →
      listStream.spanOfNode? c = some ⟨0, 4⟩ ∧
        (∀ e ∈ (literalElements c).filterMap id, ∀ t ∈ listStream.firstOf? e, 0 < t ∧ t < 4) ∧
        ∀ i < 4, 0 < i → listStream.isPunctuator i [','] = true ∨
          ∃ d ∈ (literalElements c).filterMap id, listStream.CodeIn d.range i := by
    with_unfolding_all decide
  obtain ⟨k, hk, -⟩ := h.listed.exists_construct
  obtain rfl := ofPlace?_listTree c hc k hk
  obtain ⟨hspan, hbetween, hfilled⟩ := hlist c hc hk
  have hmem {e : Cursor} (he : some e ∈ literalElements c) : e ∈ (literalElements c).filterMap id :=
    List.mem_filterMap.2 ⟨_, he, rfl⟩
  cases h.listed with
  | literal _ _ hspan' =>
    obtain rfl := Option.some.inj (hspan.symm.trans hspan')
    refine ⟨fun e he t ht => hbetween e (hmem he) t ht, fun e he t ht i hi hit _ => ?_, fun h => ?_⟩
    · have := (hbetween e (hmem he) t ht).2
      refine (hfilled i (by omega) hi).imp_right ?_
      rintro ⟨d, hd, hin⟩
      obtain ⟨_, hd, rfl⟩ := List.mem_filterMap.1 hd
      exact ⟨d, hd, hin⟩
    · cases h
  | exports hother => cases hk.symm.trans hother
  | imports hother => cases hk.symm.trans hother
  | arguments hother => rcases hother with hother | hother <;> cases hk.symm.trans hother
  | parameters hother hconfigured =>
    obtain rfl := Option.some.inj (hk.symm.trans hother)
    cases hconfigured

/-- The second element stands a level in from the bracket, since the first one ends beside that. -/
theorem exists_chained_listTree : ∃ d widths, Document.of listText listTree = .ok d ∧
    (graph .standard listTree d.stream).resolve d.stream .space = .ok widths ∧
      widths.getD 3 0 = min (widths.getD 0 0 + 1 * 4) widthLimit := by
  have hdoc : Document.of listText listTree =
      .ok ⟨listText, .of listText, listTree, listStream⟩ := by
    rw [Document.of, ofTree_listTree]
    rfl
  have hstream : ∀ d, Document.of listText listTree = .ok d → d.stream = listStream := fun d hd => by
    rw [hdoc, Except.ok.injEq] at hd
    exact hd ▸ rfl
  obtain ⟨d, widths, hd, hwidths, hchained⟩ := exists_chained fits_listTree (by decide) .standard
    (fun d hd => hstream d hd ▸ grammatical_listTree)
    (fun d hd => hstream d hd ▸ punctuated_listTree)
    (fun d hd c hc span elements levels h => by
      rw [hstream d hd] at h ⊢
      exact delimited_listTree hc h)
  obtain rfl : _ = d := Except.ok.inj (hdoc.symm.trans hd)
  refine ⟨_, widths, hdoc, hwidths, ?_⟩
  obtain ⟨c, hc, harray, hspan, hbeside, e, he, ht⟩ : ∃ c ∈ listTree.preorder, ofPlace? c = some .array ∧
      listStream.spanOfNode? c = some ⟨0, 4⟩ ∧
      (∀ d ∈ ((literalElements c)[0]?).join, ∀ last ∈ listStream.lastOf? d.bare,
        (listStream.token last).endLine = 1) ∧
      ∃ e ∈ ((literalElements c)[1]?).join, elementStart? listStream 0 e = some 3 := by
    decide +kernel
  refine (hchained c hc _ _ 1 ⟨.literal harray rfl hspan, fun k hk hparameters => ?_⟩ 1 e
    (Option.join_eq_some_iff.1 he) 3 ht (by decide) (by decide +kernel)).2 fun previous h => ?_
  · obtain rfl := Option.some.inj (harray.symm.trans hk)
    cases hparameters
  · obtain ⟨last, hlast, hlt⟩ := h.below
    rw [hbeside previous (Option.join_eq_some_iff.2 h.precedes) last hlast] at hlt
    exact absurd hlt (by decide)

end IndentRule

end Indentation
