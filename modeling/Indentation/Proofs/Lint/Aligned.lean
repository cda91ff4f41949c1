import Indentation.Proofs.Construct.Listed
import Indentation.Proofs.Layout.Grouping
import Indentation.Proofs.Lint.Brackets

/-!
# Lists in the column of their first element

A list that is handled with `.first` puts its later elements into the column in which the first one
is.  Such an element has no anchor, so what moves its surroundings further in moves it as well:
parentheses that group, and the exit of a declarator that is followed by another one.  Nothing else
changes where it stands.
-/

namespace Indentation

open Cursor TokenStream Construct

/-- A list whose elements stand in the column of the first one, as its construct writes it. -/
inductive FirstList (s : TokenStream) (o : IndentOptions) :
    Cursor → Span → List (Option Cursor) → Prop
  | array {c : Cursor} {span : Span} (hc : ofPlace? c = some .array) (ho : o.array = .first)
    (hspan : s.spanOfNode? c = some span) : FirstList s o c span (Sequence.arrayElements c)
  | object {c : Cursor} {span : Span} (hc : ofPlace? c = some .object) (ho : o.object = .first)
    (hspan : s.spanOfNode? c = some span) : FirstList s o c span (c.properChildren.map some)
  | arguments {c arguments : Cursor} {first last : Nat}
    (hc : ofPlace? c = some .call ∨ ofPlace? c = some .new) (ho : o.callArguments = some .first)
    (hargs : c.fieldChild? "arguments" = some arguments) (hkind : arguments.kind = "arguments")
    (hfirst : s.firstOf? arguments = some first) (hlast : s.lastOf? c = some last) :
    FirstList s o c ⟨first, last⟩ (arguments.properChildren.map some)
  | declared {c : Cursor} {span : Span} (hc : ofPlace? c = some .functionDeclaration)
    (ho : o.functionDeclaration.parameters = some .first)
    (hspan : Callable.parameterSpan? s c = some span) :
    FirstList s o c span ((Callable.parameters c).map some)
  | expressed {c : Cursor} {span : Span}
    (hc : ofPlace? c = some .functionExpression ∨ ofPlace? c = some .arrow)
    (ho : o.functionExpression.parameters = some .first)
    (hspan : Callable.parameterSpan? s c = some span) :
    FirstList s o c span ((Callable.parameters c).map some)

/-- How the elements of a list stand apart. -/
structure FirstList.Separated (s : TokenStream) (c : Cursor) (span : Span)
    (elements : List (Option Cursor)) : Prop where
  /-- Nothing between the list and its elements is a construct. -/
  adjoins : ∀ e, some e ∈ elements → Adjoins c e
  named : ∀ e, some e ∈ elements → e.named = true
  commas : ∀ e, some e ∈ elements.drop 1 → ∀ t, s.firstOf? e = some t →
    ∃ comma, s.prevCode? t = some comma ∧ s.isPunctuator comma [','] = true
  closes : ∀ e, some e ∈ elements → ∀ t, s.firstOf? e = some t → t < span.last

namespace Sequence

variable {s : TokenStream}

/-- An element behind a comma starts with its first token. -/
theorem elementStart?_of_comma (hs : s.Ordered) {opening t comma first : Nat} {e : Cursor}
    (ht : elementStart? s opening e = some t) (hfirst : s.firstOf? e = some first)
    (hcomma : s.prevCode? first = some comma) (hpunctuator : s.isPunctuator comma [','] = true) :
    t = first := by
  obtain ⟨hlt, hcode, -⟩ := prevCode?_some hcomma
  have hle := elementStart?_le hs ht hfirst
  rcases Nat.eq_or_lt_of_le hle with heq | hlt'
  · exact heq
  · exfalso
    by_cases hct : comma < t
    · obtain ⟨-, -, -, hcodet, -⟩ := elementStart?_some ht
      have := le_prevCode? hcomma hlt' hcodet
      omega
    · rcases skips_of_elementStart? ht hfirst (Nat.le_of_not_lt hct) hlt with hcomment | ⟨-, hparen⟩
      · rw [hcode] at hcomment
        cases hcomment
      · rw [isPunctuator_eq_false hpunctuator (by decide)] at hparen
        cases hparen

/-- All that are placed stand in one column. -/
theorem edge_places {g : Graph} {unit column t : Nat} {ts : List Nat} (ht : t ∈ ts)
    (hsize : t < g.size) :
    (g.writeAll s unit (ts.map fun token => .place token column)).edge t = ⟨none, column⟩ := by
  refine Graph.edge_writeAll_of_mem (List.mem_map.2 ⟨t, ht, rfl⟩) (fun g' hg' => ?_)
    (fun w hw g' hg' => ?_) hsize
  · rw [Graph.write, Graph.edge_setEdge, if_pos ⟨rfl, hg'⟩]
  · obtain ⟨u, -, rfl⟩ := List.mem_map.1 hw
    rw [Graph.write, Graph.edge_setEdge]
    split
    · rfl
    · exact hg'

/-- A later element of a list is put into the column of the first one. -/
theorem edge_writes_first {g : Graph} {unit lead t : Nat} {span : Span}
    {elements : List (Option Cursor)} {e : Cursor}
    (hlead : elements.head?.join.bind (elementStart? s span.first) = some lead)
    (he : some e ∈ elements.drop 1) (ht : elementStart? s span.first e = some t)
    (hlt : t < span.last) (hsize : t < g.size) :
    (g.writeAll s unit (writes s span elements .first)).edge t = ⟨none, (s.token lead).column⟩ := by
  have hlater : t ∈ (elements.drop 1).filterMap fun element =>
      element.bind (elementStart? s span.first) := List.mem_filterMap.2 ⟨some e, he, ht⟩
  simp only [writes, alignWithFirst, hlead]
  rw [Graph.writeAll_append, Graph.edge_writeAll_of fun w hw htouch => ?_, Graph.writeAll,
    List.foldl_cons, ← Graph.writeAll, Graph.writeAll_append]
  · exact edge_places hlater (by simpa using hsize)
  · rw [List.mem_singleton.1 hw] at htouch
    have := htouch.1
    omega

end Sequence

namespace FirstList

variable {s : TokenStream} {o : IndentOptions} {c : Cursor} {span : Span}
  {elements : List (Option Cursor)}

theorem Separated.firstOf?_of_elementStart? (h : Separated s c span elements) (hs : s.Ordered)
    {e : Cursor} (he : some e ∈ elements.drop 1) {t : Nat}
    (ht : Sequence.elementStart? s span.first e = some t) : s.firstOf? e = some t := by
  obtain ⟨first, hfirst, -⟩ := Sequence.elementStart?_some ht
  obtain ⟨comma, hcomma, hpunctuator⟩ := h.commas e he first hfirst
  rw [Sequence.elementStart?_of_comma hs ht hfirst hcomma hpunctuator]
  exact hfirst

theorem kind_of_ofPlace?_literal (h : ofPlace? c = some .array ∨ ofPlace? c = some .object) :
    c.kind = if ofPlace? c = some .array then "array" else "object" := by
  unfold ofPlace? at h ⊢
  split at h
  · next hnamed =>
    simp only [hnamed, if_true]
    unfold ofKind? at h ⊢
    split at h <;> simp_all
  · rcases h with h | h <;> cases h

theorem listed (h : FirstList s o c span elements) : Listed s o c span elements .first := by
  cases h with
  | array hc ho hspan =>
    have hkind := kind_of_ofPlace?_literal (.inl hc)
    rw [if_pos hc] at hkind
    have helements : Sequence.literalElements c = Sequence.arrayElements c := by
      simp [Sequence.literalElements, hkind]
    exact helements ▸ .literal hc (congrArg some ho) hspan
  | object hc ho hspan =>
    have hkind := kind_of_ofPlace?_literal (.inr hc)
    rw [if_neg (by simp [hc])] at hkind
    have helements : Sequence.literalElements c = c.properChildren.map some := by
      simp [Sequence.literalElements, hkind]
    exact helements ▸ .literal hc (congrArg some ho) hspan
  | arguments hc ho hargs hkind hfirst hlast => exact .arguments hc (by rw [ho]; rfl) hargs hkind hfirst hlast
  | declared hc ho hspan => exact .parameters hc (congrArg some ho) rfl hspan
  | expressed hc ho hspan => rcases hc with hc | hc <;> exact .parameters hc (congrArg some ho) rfl hspan

theorem exists_construct (h : FirstList s o c span elements) :
    ∃ k, ofPlace? c = some k ∧ k ≠ .declarator := h.listed.exists_construct

end FirstList

namespace IndentRule

variable {s : TokenStream} {tree : Node} {o : IndentOptions} {c e : Cursor} {span : Span}
  {elements : List (Option Cursor)}

section

variable (hs : s.Lined) (hn : tree.Nested) (hg : Grammatical s tree) (hc : c ∈ tree.preorder)
  (h : FirstList s o c span elements) (hseparated : FirstList.Separated s c span elements)
  {lead t : Nat} (hlead : elements.head?.join.bind (Sequence.elementStart? s span.first) = some lead)
  (he : some e ∈ elements.drop 1) (ht : Sequence.elementStart? s span.first e = some t)
  (hleads : s.leads t = true)
include hs hn hg hc h hseparated hlead he ht hleads

/-- At the end of a walk an element stands in the column of the first one, unless it has been moved
with the initial value of a declarator. -/
theorem edge_writes_of_first (hshift : ∀ d ∈ tree.preorder, ofPlace? d = some .declarator →
      ∀ w ∈ Declaration.shiftWrites s o d, ¬w.Touches t) :
    ((Graph.blank s.size).writeAll s o.unit (Construct.writes s o tree)).edge t =
      ⟨none, (s.token lead).column⟩ := by
  have hfirst := hseparated.firstOf?_of_elementStart? hs.toOrdered he ht
  have hmem := List.mem_of_mem_drop he
  have hlt := hseparated.closes e hmem t hfirst
  have hsize := (codeIn_of_firstOf? hs.toOrdered hfirst).lt_size
  obtain ⟨k, hk, -⟩ := h.exists_construct
  obtain ⟨ahead, after, henter, -, hafter⟩ := h.listed.exists_enter hk
  refine edge_writes_of_enter hs hn hg hc hk (hseparated.adjoins e hmem) hfirst hleads
    (fun b hb _ v hv g hedge => ?_) fun g hsize' => ?_
  · obtain ⟨hdeclarator, -⟩ := exists_of_mem_leave hv
    have hshifts : v ∈ Declaration.shiftWrites s o b := by
      simpa [eventWrites, hdeclarator, leave] using hv
    rw [Graph.edge_write_of (hshift b hb hdeclarator v hshifts), hedge]
  · rw [henter, Graph.edge_append_of (hafter t hlt), Graph.writeAll_append]
    exact Sequence.edge_writes_first hlead he ht hlt (by simpa [hsize'] using hsize)

end

/-- The later elements of a list that is handled with `.first` stand in the column of the first one, if
neither parentheses that group nor the initial value of a declarator that is followed by others are
around them. -/
theorem exists_aligned {source : Text} (h : tree.Fits source) (o : IndentOptions)
    (hg : ∀ d, Document.of source tree = .ok d → Grammatical d.stream tree)
    (hlists : ∀ d, Document.of source tree = .ok d → ∀ c ∈ tree.preorder, ∀ span elements,
      FirstList d.stream o c span elements → FirstList.Separated d.stream c span elements) :
    ∃ d widths, Document.of source tree = .ok d ∧
      (graph o tree d.stream).resolve d.stream o.indentChar = .ok widths ∧
      ∀ c ∈ tree.preorder, ∀ span elements, FirstList d.stream o c span elements →
        ∀ lead, elements.head?.join.bind (Sequence.elementStart? d.stream span.first) = some lead →
        ∀ e, some e ∈ elements.drop 1 → ∀ t, Sequence.elementStart? d.stream span.first e = some t →
          d.stream.leads t = true → (graph o tree d.stream).isExempt t = false →
          (∀ p ∈ Parens.pairs d.stream, (graph o tree d.stream).isBracket p.1 = false →
            (graph o tree d.stream).isBracket p.2 = false → ¬(p.1 < t ∧ t < p.2)) →
          (∀ b ∈ tree.preorder, ofPlace? b = some .declarator →
            ∀ w ∈ Declaration.shiftWrites d.stream o b, ¬w.Touches t) →
          widths.getD t 0 = (d.stream.token lead).column := by
  obtain ⟨s, hs, hcut, hl⟩ := h.exists_ofTree
  have hdoc : Document.of source tree = .ok ⟨source, .of source, tree, s⟩ := by
    rw [Document.of, hs]
    rfl
  have hg := hg _ hdoc
  obtain ⟨widths, hwidths, hprescribed⟩ := exists_widths hl h.toNested hg.inOrder o
  refine ⟨_, widths, hdoc, hwidths, ?_⟩
  intro c hc span elements hlist lead hlead e he t ht hleads hexempt hgroup hshift
  have hseparated := hlists _ hdoc c hc span elements hlist
  have hmem := List.mem_of_mem_drop he
  have hfirst := hseparated.firstOf?_of_elementStart? hl.toOrdered he ht
  have hne : ∀ p ∈ Parens.pairs s, t ≠ p.2 := fun p hp =>
    ne_first_of_mem_pairs hl hg.balanced (Node.mem_preorder_of_reaches hc (hseparated.adjoins e hmem).1)
      (hseparated.named e hmem) hfirst hp
  have hedge : (graph o tree s).edge t = ⟨none, (s.token lead).column⟩ := by
    rw [graph, Graph.writeAll_append, Parens.edge_writes_of_ungrouped hne]
    · exact edge_writes_of_first hl h.toNested hg hc hlist hseparated hlead he ht hleads hshift
    · simpa only [graph, Graph.writeAll_append, Parens.isBracket_writes] using hgroup
  rw [hprescribed t (codeIn_of_firstOf? hl.toOrdered hfirst).lt_size, Graph.prescribed, hexempt,
    Graph.anchor?, hedge]
  rfl

/-! ## A list on two lines -/

/-- An array with its second element on a line of its own. -/
def listText : Text := ['[', 'a', ',', '\n', 'b', ']']

def listTree : Node :=
  plain "program" (bytes 0 6) true
    [plain "expression_statement" (bytes 0 6) true
      [plain "array" (bytes 0 6) true
        [plain "[" (bytes 0 1) false [], plain "identifier" (bytes 1 1) true [],
         plain "," (bytes 2 1) false [], plain "identifier" (bytes 4 1) true [],
         plain "]" (bytes 5 1) false []]]]

def listStream : TokenStream where
  source := listText
  tokens := #[
    ⟨.punctuator, bytes 0 1, ['['], [], 1, 1, 0⟩,
    ⟨.identifier, bytes 1 1, ['a'], ['['], 1, 1, 1⟩,
    ⟨.punctuator, bytes 2 1, [','], ['[', 'a'], 1, 1, 2⟩,
    ⟨.identifier, bytes 4 1, ['b'], [], 2, 2, 0⟩,
    ⟨.punctuator, bytes 5 1, [']'], ['b'], 2, 2, 1⟩]
  leaders := #[none, some 0, some 3, none]

theorem ofTree_listTree : TokenStream.ofTree listText listTree = .ok listStream := by
  rw [TokenStream.ofTree_of_pairwise (by decide)]
  decide +kernel

theorem fits_listTree : listTree.Fits listText where
  inside := by decide
  ordered := by decide
  substituted := by unfold Node.Substituted; decide
  cuts := by decide

theorem ofPlace?_listTree : ∀ c ∈ listTree.preorder, ∀ k, ofPlace? c = some k → k = .array := by
  have hkinds : ∀ c ∈ listTree.preorder, ofPlace? c = none ∨ ofPlace? c = some .array := by
    decide
  intro c hc k hk
  rcases hkinds c hc with hnone | harray
  · rw [hnone] at hk
    cases hk
  · exact Option.some.inj (hk.symm.trans harray)

theorem grammatical_listTree : Grammatical listStream listTree := by
  have hpairs : Parens.pairs listStream = [] := by decide
  have hother : ∀ c ∈ listTree.preorder, ∀ {k}, k ≠ .array → ofPlace? c ≠ some k := fun c hc _ hne hk =>
    hne (ofPlace?_listTree c hc _ hk)
  have hheld : ∀ c ∈ listTree.preorder, c.kind ≠ "program" → ∀ d ∈ c.properChildren, ¬IsHeld c d := by
    decide
  have hkinds : ∀ c ∈ listTree.preorder, c.kind ∉ ["statement_block", "class_body", "switch_body"] := by
    decide
  refine ⟨inOrder_of_unnamed (by decide), fun c hc => ?_, fun c hc => ?_, fun c _ _ p hp => ?_⟩
  · exact ⟨fun h => absurd h (hother c hc nofun), fun h => absurd h (hother c hc nofun),
      fun h => absurd h (hother c hc nofun)⟩
  · refine ⟨fun hkind d hd => absurd hd.2 (hheld c hc hkind d hd.1), fun hkind => absurd hkind (hkinds c hc),
      fun d _ p hp => ?_⟩
    rw [hpairs] at hp
    cases hp
  · rw [hpairs] at hp
    cases hp

theorem separated_listTree {c : Cursor} (hc : c ∈ listTree.preorder)
    (h : FirstList listStream o c span elements) :
    FirstList.Separated listStream c span elements := by
  obtain ⟨k, hk, -⟩ := h.exists_construct
  obtain rfl := ofPlace?_listTree c hc k hk
  have hmem : ∀ {e : Cursor}, some e ∈ Sequence.arrayElements c →
      e ∈ (Sequence.arrayElements c).filterMap id := fun he => List.mem_filterMap.2 ⟨_, he, rfl⟩
  have hnamed : ∀ c ∈ listTree.preorder, ofPlace? c = some .array →
      ∀ e ∈ (Sequence.arrayElements c).filterMap id, e.named = true ∧
        ∀ t ∈ listStream.firstOf? e, t < 4 := by
    with_unfolding_all decide
  have hcommas : ∀ c ∈ listTree.preorder, ofPlace? c = some .array →
      listStream.spanOfNode? c = some ⟨0, 4⟩ ∧
      ∀ e ∈ ((Sequence.arrayElements c).drop 1).filterMap id, ∀ t ∈ listStream.firstOf? e,
        listStream.prevCode? t = some 2 := by
    with_unfolding_all decide
  obtain ⟨hspan, hcommas⟩ := hcommas c hc hk
  cases h with
  | array _ _ hspan' =>
    obtain rfl := Option.some.inj (hspan.symm.trans hspan')
    exact {
      adjoins := fun e he => adjoins_child ((Sequence.filterMap_arrayElements c).subset (hmem he))
      named := fun e he => (hnamed c hc hk e (hmem he)).1
      commas := fun e he t ht =>
        ⟨2, hcommas e (List.mem_filterMap.2 ⟨_, he, rfl⟩) t ht, by decide⟩
      closes := fun e he t ht => (hnamed c hc hk e (hmem he)).2 t ht }
  | object hobject => cases hk.symm.trans hobject
  | declared hobject => cases hk.symm.trans hobject
  | arguments hother => rcases hother with hother | hother <;> cases hk.symm.trans hother
  | expressed hother => rcases hother with hother | hother <;> cases hk.symm.trans hother

/-- The second element stands in the column of the first one. -/
theorem exists_aligned_listTree : ∃ d widths, Document.of listText listTree = .ok d ∧
    (graph { IndentOptions.standard with array := .first } listTree d.stream).resolve d.stream .space =
      .ok widths ∧ widths.getD 3 0 = 1 := by
  have hdoc : Document.of listText listTree =
      .ok ⟨listText, .of listText, listTree, listStream⟩ := by
    rw [Document.of, ofTree_listTree]
    rfl
  have hstream : ∀ d, Document.of listText listTree = .ok d → d.stream = listStream := fun d hd => by
    rw [hdoc, Except.ok.injEq] at hd
    exact hd ▸ rfl
  obtain ⟨d, widths, hd, hwidths, haligned⟩ := exists_aligned fits_listTree
    { IndentOptions.standard with array := .first }
    (fun d hd => hstream d hd ▸ grammatical_listTree)
    (fun d hd c hc span elements h => by
      rw [hstream d hd] at h ⊢
      exact separated_listTree hc h)
  obtain rfl : _ = d := Except.ok.inj (hdoc.symm.trans hd)
  refine ⟨_, widths, hdoc, hwidths, ?_⟩
  obtain ⟨c, hc, harray, hspan, hlead, e, he, ht⟩ : ∃ c ∈ listTree.preorder, ofPlace? c = some .array ∧
      listStream.spanOfNode? c = some ⟨0, 4⟩ ∧
      (Sequence.arrayElements c).head?.join.bind (Sequence.elementStart? listStream 0) = some 1 ∧
      ∃ e ∈ ((Sequence.arrayElements c).drop 1).filterMap id,
        Sequence.elementStart? listStream 0 e = some 3 := by
    decide +kernel
  obtain ⟨_, he, rfl⟩ := List.mem_filterMap.1 he
  refine haligned c hc _ _ (.array harray rfl hspan) 1 hlead e he 3 ht (by decide) (by decide +kernel)
    (fun p hp => ?_) fun b hb hdeclarator => ?_
  · have hpairs : Parens.pairs listStream = [] := by decide
    rw [hpairs] at hp
    cases hp
  · cases ofPlace?_listTree b hb _ hdeclarator

end IndentRule

end Indentation
