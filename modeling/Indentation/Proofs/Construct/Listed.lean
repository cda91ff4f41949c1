import Indentation.Proofs.Construct.Brackets
import Indentation.Proofs.Construct.Containers
import Indentation.Proofs.Construct.Followed

/-!
# Lists and what they write about their elements

A construct that has a list writes the list as one piece, and nothing that it writes afterwards is about
the elements.  A list that is handled by levels puts its elements in from the opening delimiter.  An
element behind one that ends below the opening delimiter stands level with that one instead.
-/

namespace Indentation

open Cursor TokenStream Construct

/-! ## The lists of the language -/

namespace Construct

/-- How an array, an object or a pattern is handled. -/
def literalOffset? (o : IndentOptions) : Construct → Option ListOffset
  | .array => some o.array
  | .object => some o.object
  | .pattern => some (.levels 1)
  | _ => none

theorem isLiteral_of_offset {o : IndentOptions} {k : Construct} {offset : ListOffset}
    (h : literalOffset? o k = some offset) :
    some k = some .array ∨ some k = some .object ∨ some k = some .pattern := by
  unfold literalOffset? at h
  split at h
  · exact .inl rfl
  · exact .inr (.inl rfl)
  · exact .inr (.inr rfl)
  · cases h

/-- What is configured for the parameters of a function. -/
def parameterOffset? (o : IndentOptions) : Construct → Option (Option ListOffset)
  | .functionDeclaration => some o.functionDeclaration.parameters
  | .functionExpression | .arrow => some o.functionExpression.parameters
  | _ => none

/-- Only parameters and arguments stand between parentheses. -/
def isCallable : Construct → Bool
  | .call | .new | .functionDeclaration | .functionExpression | .arrow => true
  | _ => false

theorem ofPlace?_of_kind {c : Cursor} (h : ofKind? c.kind = none) : ofPlace? c = none := by
  rw [ofPlace?, h, ite_self]

end Construct

/-- A list between two tokens, as the construct of a place writes it. -/
inductive Listed (s : TokenStream) (o : IndentOptions) :
    Cursor → Span → List (Option Cursor) → ListOffset → Prop
  | literal {c : Cursor} {span : Span} {k : Construct} {offset : ListOffset}
    (hk : ofPlace? c = some k) (ho : literalOffset? o k = some offset)
    (hspan : s.spanOfNode? c = some span) : Listed s o c span (Sequence.literalElements c) offset
  | exports {c clause : Cursor} {span : Span} (hk : ofPlace? c = some .exports)
    (hclause : (Sequence.properOfKind c "export_clause").head? = some clause)
    (hspan : s.spanOfNode? clause = some span) :
    Listed s o c span ((Sequence.properOfKind clause "export_specifier").map some) (.levels 1)
  | imports {c clause named : Cursor} {span : Span} (hk : ofPlace? c = some .imports)
    (hclause : (Sequence.properOfKind c "import_clause").head? = some clause)
    (hnamed : (Sequence.properOfKind clause "named_imports").head? = some named)
    (hne : Sequence.properOfKind named "import_specifier" ≠ [])
    (hspan : s.spanOfNode? named = some span) :
    Listed s o c span ((Sequence.properOfKind named "import_specifier").map some) (.levels 1)
  | arguments {c arguments : Cursor} {first last : Nat} {offset : ListOffset}
    (hk : ofPlace? c = some .call ∨ ofPlace? c = some .new)
    (ho : o.callArguments.getD (.levels 1) = offset)
    (hargs : c.fieldChild? "arguments" = some arguments) (hkind : arguments.kind = "arguments")
    (hfirst : s.firstOf? arguments = some first) (hlast : s.lastOf? c = some last) :
    Listed s o c ⟨first, last⟩ (arguments.properChildren.map some) offset
  | parameters {c : Cursor} {span : Span} {k : Construct} {configured : Option ListOffset}
    {offset : ListOffset} (hk : ofPlace? c = some k) (hc : parameterOffset? o k = some configured)
    (ho : configured.getD (.levels 0) = offset) (hspan : Callable.parameterSpan? s c = some span) :
    Listed s o c span ((Callable.parameters c).map some) offset

namespace Callable

variable {s : TokenStream} {c : Cursor} {span : Span}

theorem parameterWrites_of_span (configured : Option ListOffset) (hspan : parameterSpan? s c = some span) :
    parameterWrites s configured c = ([.bracket span.first, .bracket span.last] ++
      Sequence.writes s span ((parameters c).map some) (configured.getD (.levels 0))) ++
        if configured.isNone then exemptStarts s (parameters c) else [] := by
  simp [parameterWrites, hspan]

/-- To be exempt is no edge. -/
theorem not_touches_exemptStarts {nodes : List Cursor} {t : Nat} {exempting : Bool} :
    ∀ w ∈ (if exempting then exemptStarts s nodes else []), ¬w.Touches t := by
  intro w hw
  split at hw
  · obtain ⟨node, -, hw⟩ := List.mem_filterMap.1 hw
    obtain ⟨first, -, rfl⟩ := Option.map_eq_some_iff.1 hw
    exact id
  · exact absurd hw List.not_mem_nil

/-- A body is behind the parameters. -/
theorem not_touches_expressionBody (hspan : parameterSpan? s c = some span) {t : Nat}
    (hlt : t < span.last) : ∀ w ∈ expressionBody s c, ¬w.Touches t := by
  obtain ⟨body, bodyStart, opening, closing, head, hbody, hstart, -, hclosing, -, -, rfl⟩ :=
    parameterSpan?_some hspan
  refine Write.forall_mem_getD fun ws h w hw htouch => ?_
  obtain ⟨body', hbody', h⟩ := Option.bind_eq_some_iff.1 h
  obtain rfl := Option.some.inj (hbody.symm.trans hbody')
  split at h
  · cases h
  · obtain ⟨bodySpan, hbodySpan, h⟩ := Option.bind_eq_some_iff.1 h
    obtain ⟨first, -, h⟩ := Option.bind_eq_some_iff.1 h
    obtain rfl : _ = ws := Option.some.inj h
    obtain ⟨token, htoken, rfl⟩ := List.mem_map.1 hw
    have htoken' : token = t := htouch.1
    have hfirst := (spanOf?_eq_some_iff.1 hbodySpan).1
    obtain rfl := Option.some.inj (hstart.symm.trans hfirst)
    have := (Span.mem_ids.1 htoken).1
    have := (prevCode?_some hclosing).1
    have hlt : t < closing := hlt
    omega

end Callable

namespace Listed

variable {s : TokenStream} {o : IndentOptions} {c : Cursor} {span : Span}
  {elements : List (Option Cursor)} {offset : ListOffset}

theorem exists_construct (h : Listed s o c span elements offset) :
    ∃ k, ofPlace? c = some k ∧ k ≠ .declarator := by
  cases h with
  | literal hk ho =>
    refine ⟨_, hk, ?_⟩
    rintro rfl
    cases ho
  | exports hk | imports hk => exact ⟨_, hk, nofun⟩
  | arguments hk => rcases hk with hk | hk <;> exact ⟨_, hk, nofun⟩
  | parameters hk hc =>
    refine ⟨_, hk, ?_⟩
    rintro rfl
    cases hc

/-- What a construct writes of its list, and what it writes before and after.  Brackets come before, and
what comes after is not about the elements. -/
theorem exists_enter (h : Listed s o c span elements offset) {k : Construct} (hk : ofPlace? c = some k) :
    ∃ before after, enter s o c k = (before ++ Sequence.writes s span elements offset) ++ after ∧
      (isCallable k = true → Write.bracket span.first ∈ before) ∧
      ∀ t < span.last, ∀ w ∈ after, ¬w.Touches t := by
  have hsome {k'} (hk' : ofPlace? c = some k') : k' = k := Option.some.inj (hk'.symm.trans hk)
  have hnil (t : Nat) : ∀ w ∈ ([] : List Write), ¬w.Touches t := List.forall_mem_nil _
  cases h with
  | literal hk' ho hspan =>
    obtain rfl := hsome hk'
    refine ⟨[], [], ?_, ?_, fun t _ => hnil t⟩
    · rw [List.append_nil, List.nil_append, ← Sequence.ofLiteral_of_span hspan]
      unfold literalOffset? at ho
      split at ho <;> cases ho <;> rfl
    · intro hcallable
      unfold literalOffset? at ho
      split at ho <;> cases ho <;> cases hcallable
  | exports hk' hclause hspan =>
    obtain rfl := hsome hk'
    refine ⟨[], [], ?_, fun h => absurd h Bool.false_ne_true, fun t _ => hnil t⟩
    simp [enter, Sequence.ofExport, hclause, hspan]
  | imports hk' hclause hnamed hne hspan =>
    obtain rfl := hsome hk'
    refine ⟨[], [], ?_, fun h => absurd h Bool.false_ne_true, fun t _ => hnil t⟩
    simp [enter, Sequence.ofImport, hclause, hnamed, hne, hspan]
  | arguments hk' ho hargs hkind hfirst hlast =>
    subst ho
    rcases hk' with hk' | hk'
    all_goals
      obtain rfl := hsome hk'
      rw [enter, Callable.argumentWrites_of_arguments o.callArguments hargs hkind hfirst hlast]
      exact ⟨_, _, rfl, fun _ => by simp, fun t _ => Callable.not_touches_exemptStarts⟩
  | parameters hk' hc ho hspan =>
    obtain rfl := hsome hk'
    subst ho
    have hbracket : Write.bracket span.first ∈ [Write.bracket span.first, .bracket span.last] :=
      List.mem_cons_self
    unfold parameterOffset? at hc
    split at hc <;> cases hc
    · rw [enter, Callable.parameterWrites_of_span _ hspan]
      exact ⟨_, _, rfl, fun _ => hbracket, fun t _ => Callable.not_touches_exemptStarts⟩
    · rw [enter, Callable.parameterWrites_of_span _ hspan]
      exact ⟨_, _, rfl, fun _ => hbracket, fun t _ => Callable.not_touches_exemptStarts⟩
    · rw [enter, Callable.arrowWrites, Callable.parameterWrites_of_span _ hspan, List.append_assoc]
      refine ⟨_, _, rfl, fun _ => hbracket, fun t ht w hw => ?_⟩
      rcases List.mem_append.1 hw with hw | hw
      · exact Callable.not_touches_exemptStarts w hw
      · exact Callable.not_touches_expressionBody hspan ht w hw

section

variable {tree : Node} (hn : tree.Nested) (hended : ∀ c ∈ tree.preorder, Ended s c)
  (hc : c ∈ tree.preorder)
include hn hended hc

omit hn in
/-- The elements of a list have names. -/
theorem named (h : Listed s o c span elements offset) {e : Cursor} (he : some e ∈ elements) :
    e.named = true := by
  have hproper {d : Cursor} {kind : String} (he : some e ∈ (Sequence.properOfKind d kind).map some) :
      e.named = true := by
    have hmem : e ∈ Sequence.properOfKind d kind := by simpa using he
    exact Sequence.named_of_mem_properChildren (List.mem_filter.1 hmem).1
  cases h with
  | literal hk ho =>
    exact Sequence.named_of_mem_literalElements (hended c hc) (hk ▸ isLiteral_of_offset ho) e
      (List.mem_filterMap.2 ⟨some e, he, rfl⟩)
  | exports | imports => exact hproper he
  | arguments => exact Sequence.named_of_mem_properChildren (by simpa using he)
  | parameters => exact Callable.named_of_mem_parameters (hended c hc) (by simpa using he)

/-- The elements of a list come one after the other. -/
theorem successive (h : Listed s o c span elements offset) : Sequence.Successive s elements := by
  have hproper {d : Cursor} (hd : Reaches c d) (kind : String) :
      Sequence.Successive s ((Sequence.properOfKind d kind).map some) := by
    refine Sequence.successive_of_sublist hn hended (Node.mem_preorder_of_reaches hc hd) ?_ ?_
    · rw [Sequence.filterMap_map_some]
      exact Sequence.properOfKind_sublist d kind
    · rw [Sequence.filterMap_map_some]
      exact fun e he => Sequence.named_of_mem_properChildren (List.mem_filter.1 he).1
  cases h with
  | literal hk ho => exact successive_literalElements hn hended hc (hk ▸ isLiteral_of_offset ho)
  | exports _ hclause => exact hproper (Sequence.reaches_of_head?_properOfKind hclause) _
  | imports _ hclause hnamed =>
    exact hproper ((Sequence.reaches_of_head?_properOfKind hclause).trans
      (Sequence.reaches_of_head?_properOfKind hnamed)) _
  | arguments _ _ hargs => exact successive_arguments hn hended hc hargs
  | parameters => exact successive_parameters hn hended hc

end

/-- The opening delimiter is a token of the place. -/
theorem codeIn_first (h : Listed s o c span elements offset) (hs : s.Lined) {tree : Node}
    (hn : tree.Nested) (hc : c ∈ tree.preorder) : s.CodeIn c.range span.first := by
  have hmono {d : Cursor} {t : Nat} (hd : Reaches c d) (ht : s.CodeIn d.range t) : s.CodeIn c.range t :=
    have hrange := hn.range_le hc hd
    ht.mono hrange.1 hrange.2
  cases h with
  | literal _ _ hspan => exact (spanOfNode?_spec hs.toOrdered hspan).1
  | exports _ hclause hspan =>
    exact hmono (Sequence.reaches_of_head?_properOfKind hclause) (spanOfNode?_spec hs.toOrdered hspan).1
  | imports _ hclause hnamed _ hspan =>
    exact hmono ((Sequence.reaches_of_head?_properOfKind hclause).trans
      (Sequence.reaches_of_head?_properOfKind hnamed)) (spanOfNode?_spec hs.toOrdered hspan).1
  | arguments _ _ hargs _ hfirst =>
    exact hmono (reaches_of_fieldChild? hargs) (codeIn_of_firstOf? hs.toOrdered hfirst)
  | parameters _ _ _ hspan => exact (Callable.parameterSpan?_spec hs hn hc hspan).1

end Listed

/-- A list whose elements are put in by so many levels.  Parameters are one if they are in
parentheses. -/
structure LevelList (s : TokenStream) (o : IndentOptions) (c : Cursor) (span : Span)
    (elements : List (Option Cursor)) (levels : Nat) : Prop where
  listed : Listed s o c span elements (.levels levels)
  parenthesised : ∀ k, ofPlace? c = some k → (parameterOffset? o k).isSome → ∃ list,
    c.fieldChild? "parameters" = some list ∧ list.kind = "formal_parameters"

/-- Nothing between a place and the elements of its list is a construct. -/
theorem LevelList.adjoins {s : TokenStream} {o : IndentOptions} {c e : Cursor} {span : Span}
    {elements : List (Option Cursor)} {levels : Nat} (h : LevelList s o c span elements levels)
    (he : some e ∈ elements) : Adjoins c e := by
  have hproper {d e : Cursor} {kind : String} (he : e ∈ Sequence.properOfKind d kind) :
      e ∈ d.children ∧ e.kind = kind :=
    ⟨(Sequence.properOfKind_sublist d kind).subset he, by simpa using (List.mem_filter.1 he).2⟩
  have hnone {d : Cursor} {kind : String} (hd : d.kind = kind) (hkind : ofKind? kind = none) :
      ofPlace? d = none := ofPlace?_of_kind (hd ▸ hkind)
  obtain ⟨hlisted, hparenthesised⟩ := h
  cases hlisted with
  | literal =>
    exact adjoins_child ((Sequence.sublist_literalElements c).subset (List.mem_filterMap.2 ⟨_, he, rfl⟩))
  | exports _ hclause =>
    obtain ⟨hclause, hkind⟩ := hproper (List.mem_of_head? hclause)
    exact (adjoins_child hclause).child (hnone hkind rfl) (hproper (by simpa using he)).1
  | imports _ hclause hnamed =>
    obtain ⟨hclause, hkind⟩ := hproper (List.mem_of_head? hclause)
    obtain ⟨hnamed, hkind'⟩ := hproper (List.mem_of_head? hnamed)
    exact ((adjoins_child hclause).child (hnone hkind rfl) hnamed).child (hnone hkind' rfl)
      (hproper (by simpa using he)).1
  | arguments _ _ hargs hkind =>
    exact (adjoins_child (mem_children_of_fieldChild hargs)).child (hnone hkind rfl)
      (mem_children_of_mem_properChildren (by simpa using he))
  | parameters hk hc =>
    obtain ⟨list, hlist, hkind⟩ := hparenthesised _ hk (hc ▸ rfl)
    have hmem : e ∈ list.properChildren := by simpa [Callable.parameters, hlist] using he
    exact (adjoins_child (mem_children_of_fieldChild hlist)).child (hnone hkind rfl)
      (mem_children_of_mem_properChildren hmem)

/-! ## Elements between delimiters -/

/-- How the elements of a list stand between its delimiters. -/
structure Delimited (s : TokenStream) (c : Cursor) (span : Span) (elements : List (Option Cursor)) :
    Prop where
  between : ∀ e, some e ∈ elements → ∀ t, s.firstOf? e = some t → span.first < t ∧ t < span.last
  /-- There are only commas between the elements. -/
  filled : ∀ e, some e ∈ elements → ∀ t, s.firstOf? e = some t → ∀ i, span.first < i → i < t →
    s.isComment i = false → s.isPunctuator i [','] = true ∨ ∃ d, some d ∈ elements ∧ s.CodeIn d.range i
  opening : s.isPunctuator span.first ['('] = true → ∃ k, ofPlace? c = some k ∧ isCallable k = true

namespace Sequence

variable {s : TokenStream} {c d e : Cursor} {span : Span} {elements : List (Option Cursor)} {i j t : Nat}

theorem Successive.stop_le_start (h : Successive s elements) (hij : i < j)
    (hi : elements[i]? = some (some d)) (hj : elements[j]? = some (some e)) :
    d.range.stop ≤ e.range.start := by
  obtain ⟨hilt, hi⟩ := List.getElem?_eq_some_iff.1 hi
  obtain ⟨hjlt, hj⟩ := List.getElem?_eq_some_iff.1 hj
  have hordered := List.pairwise_iff_getElem.1 (List.pairwise_filterMap.1 h.ordered) i j hilt hjlt hij
  exact hordered d (by rw [hi]; rfl) e (by rw [hj]; rfl)

/-- Elements that begin with the same token are the same element. -/
theorem Successive.index_eq (h : Successive s elements) (hs : s.Ordered)
    (hi : elements[i]? = some (some d)) (hj : elements[j]? = some (some e))
    (hd : s.firstOf? d = some t) (he : s.firstOf? e = some t) : i = j := by
  have hdin := codeIn_of_firstOf? hs hd
  have hein := codeIn_of_firstOf? hs he
  rcases Nat.lt_trichotomy i j with hlt | heq | hlt
  · have := lt_of_stop_le_start hs hdin hein (h.stop_le_start hlt hi hj)
    omega
  · exact heq
  · have := lt_of_stop_le_start hs hein hdin (h.stop_le_start hlt hj hi)
    omega

/-- A token of the list before an element is in an earlier one, unless it is a comma. -/
theorem exists_earlier_of_lt (h : Delimited s c span elements) (hsuccessive : Successive s elements)
    (hs : s.Ordered) (he : elements[i]? = some (some e)) (hfirst : s.firstOf? e = some t) {k : Nat}
    (hk : span.first < k) (hkt : k < t) (hcode : s.isComment k = false)
    (hcomma : s.isPunctuator k [','] = false) :
    ∃ j d, j < i ∧ elements[j]? = some (some d) ∧ s.CodeIn d.range k := by
  obtain ⟨hein, hmin⟩ := (firstCodeIn?_eq_some_iff hs).1 hfirst
  rcases h.filled e (List.mem_of_getElem? he) t hfirst k hk hkt hcode with hcomma' | ⟨d, hd, hin⟩
  · rw [hcomma] at hcomma'
    cases hcomma'
  · obtain ⟨j, hj⟩ := List.mem_iff_getElem?.1 hd
    refine ⟨j, d, ?_, hj, hin⟩
    by_contra hge
    rcases Nat.eq_or_lt_of_le (Nat.le_of_not_lt hge) with rfl | hlt
    · obtain rfl : e = d := by simpa [he] using hj
      have := hmin k hin
      omega
    · have := lt_of_stop_le_start hs hein hin (hsuccessive.stop_le_start hlt he hj)
      omega

/-- No parenthesis before an element belongs to it: it would be in an earlier one, and that does not end
with it. -/
theorem firstOf?_of_elementStart? (h : Delimited s c span elements)
    (hsuccessive : Successive s elements) (hs : s.Ordered) (hopening : s.isComment span.first = false)
    (he : elements[i]? = some (some e)) (ht : elementStart? s span.first e = some t) :
    s.firstOf? e = some t := by
  obtain ⟨first, hfirst, -, hcode, -⟩ := elementStart?_some ht
  rcases isPunctuator_elementStart? hs ht hfirst with rfl | ⟨hlt, hparen⟩
  · exact hfirst
  · have hbetween := h.between e (List.mem_of_getElem? he) first hfirst
    obtain ⟨j, d, hj, hd, hin⟩ := exists_earlier_of_lt h hsuccessive hs he hfirst
      (lt_elementStart? ht hfirst hbetween.1 hopening) hlt hcode (isPunctuator_eq_false hparen (by decide))
    obtain ⟨last, hlast, hle⟩ := lastCodeIn?_isSome hs hin
    have hends := hsuccessive.ends d (List.mem_filterMap.2 ⟨_, List.mem_of_getElem? hd, rfl⟩) last hlast
    have := lt_elementStart?_of_later hs hlast hends (hsuccessive.stop_le_start hj hd he) ht
    omega

/-- An element that has a token starts somewhere. -/
theorem exists_elementStart? (hs : s.Ordered) {opening first : Nat} (hfirst : s.firstOf? e = some first) :
    ∃ t, elementStart? s opening e = some t := by
  have hin := codeIn_of_firstOf? hs hfirst
  rw [elementStart?, hfirst, Option.bind_eq_bind, Option.bind_some]
  split
  · next before hbefore =>
    exact exists_nextCodeFrom? (beforeParens?_some hbefore).1 hin.lt_size hin.code
  · exact exists_nextCodeFrom? (Nat.zero_le first) hin.lt_size hin.code

/-! ## The writes of a list -/

/-- The element at an index is behind one that ends, without the parentheses around it, on a later line
than the opening delimiter. -/
structure Chained (s : TokenStream) (span : Span) (elements : List (Option Cursor)) (i : Nat)
    (previous : Cursor) : Prop where
  pos : 0 < i
  precedes : elements[i - 1]? = some (some previous)
  below : ∃ last, s.lastOf? previous.bare = some last ∧
    (s.token span.first).endLine < (s.token last).endLine

theorem Chained.eq {previous previous' : Cursor} (h : Chained s span elements i previous)
    (h' : Chained s span elements i previous') : previous = previous' := by
  simpa using h.precedes.symm.trans h'.precedes

/-- What an element stands level with is there. -/
theorem Chained.exists_elementStart? (hs : s.Ordered) {tree : Node} (hn : tree.Nested)
    (htree : ∀ d, some d ∈ elements → d ∈ tree.preorder) {previous : Cursor}
    (h : Chained s span elements i previous) {opening : Nat} :
    ∃ anchor, elementStart? s opening previous = some anchor := by
  obtain ⟨last, hlast, -⟩ := h.below
  have hrange := hn.range_le (htree previous (List.mem_of_getElem? h.precedes)) (reaches_bare previous)
  have hin := (codeIn_of_lastOf? hs hlast).mono hrange.1 hrange.2
  obtain ⟨first, hfirst, -⟩ := firstCodeIn?_isSome hs hin
  exact Sequence.exists_elementStart? hs hfirst

theorem mem_chains_iff {w : Write} : w ∈ chains s span elements ↔
    ∃ i previous e anchor t, Chained s span elements i previous ∧ elements[i]? = some (some e) ∧
      elementStart? s span.first previous = some anchor ∧ elementStart? s span.first e = some t ∧
        w = .align t anchor := by
  have hzip (x y : Option Cursor) : (x, y) ∈ elements.zip (elements.drop 1) ↔
      ∃ j, elements[j]? = some x ∧ elements[j + 1]? = some y := by
    simp only [List.mem_iff_getElem?, List.getElem?_zip_eq_some, List.getElem?_drop, Nat.add_comm 1]
  rw [chains, List.mem_filterMap]
  constructor
  · rintro ⟨⟨x, y⟩, hmem, hchain⟩
    obtain ⟨j, hj, hj'⟩ := (hzip x y).1 hmem
    obtain ⟨d, e, rfl, rfl, hbelow, anchor, t, ha, ht, rfl⟩ := chain?_eq_some_iff.1 hchain
    exact ⟨j + 1, d, e, anchor, t, ⟨Nat.succ_pos j, hj, hbelow⟩, hj', ha, ht, rfl⟩
  · rintro ⟨i, d, e, anchor, t, ⟨hpos, hd, hbelow⟩, he, ha, ht, rfl⟩
    refine ⟨(some d, some e), (hzip _ _).2 ⟨i - 1, hd, ?_⟩, ?_⟩
    · rwa [Nat.sub_add_cancel hpos]
    · exact chain?_eq_some_iff.2 ⟨d, e, rfl, rfl, hbelow, anchor, t, ha, ht, rfl⟩

/-- What the element at an index is put in from by a list, and how far. -/
inductive PutIn (s : TokenStream) (unit : Nat) (span : Span) (elements : List (Option Cursor))
    (levels i : Nat) : Nat → Nat → Prop
  | chained {previous : Cursor} {anchor : Nat} (h : Chained s span elements i previous)
    (ha : elementStart? s span.first previous = some anchor) : PutIn s unit span elements levels i anchor 0
  | opened (h : ∀ previous, ¬Chained s span elements i previous) :
    PutIn s unit span elements levels i span.first (Width.ofLevels unit levels)

section

variable {unit levels : Nat} (h : Delimited s c span elements) (hsuccessive : Successive s elements)
  (hs : s.Lined) (hopening : s.isComment span.first = false) (he : elements[i]? = some (some e))
  (ht : elementStart? s span.first e = some t)
include h hsuccessive hs hopening he ht

/-- The start of the element before another one is between the opening delimiter and the other one. -/
theorem Chained.between {previous : Cursor} {anchor : Nat} (hchained : Chained s span elements i previous)
    (ha : elementStart? s span.first previous = some anchor) :
    span.first < anchor ∧ anchor < t ∧ s.isComment anchor = false := by
  have hfirst := firstOf?_of_elementStart? h hsuccessive hs.toOrdered hopening he ht
  have hd := hchained.precedes
  have hfirst' := firstOf?_of_elementStart? h hsuccessive hs.toOrdered hopening hd ha
  have hin := codeIn_of_firstOf? hs.toOrdered hfirst'
  refine ⟨(h.between _ (List.mem_of_getElem? hd) anchor hfirst').1, ?_, hin.code⟩
  exact lt_of_stop_le_start hs.toOrdered hin (codeIn_of_firstOf? hs.toOrdered hfirst)
    (hsuccessive.stop_le_start (Nat.sub_lt hchained.pos Nat.one_pos) hd he)

/-- An element is put in from the opening delimiter or from a token between that and the element. -/
theorem PutIn.between {a n : Nat} (hput : PutIn s unit span elements levels i a n) :
    span.first ≤ a ∧ a < t ∧ s.isComment a = false := by
  cases hput with
  | opened =>
    have hfirst := firstOf?_of_elementStart? h hsuccessive hs.toOrdered hopening he ht
    exact ⟨Nat.le_refl _, (h.between e (List.mem_of_getElem? he) t hfirst).1, hopening⟩
  | chained hchained ha =>
    obtain ⟨hle, hlt, hcode⟩ := hchained.between h hsuccessive hs hopening he ht ha
    exact ⟨Nat.le_of_lt hle, hlt, hcode⟩

/-- What the chains of a list say about the start of an element is about that element. -/
theorem exists_of_mem_chains {w : Write} (hw : w ∈ chains s span elements) (htouch : w.Touches t) :
    ∃ previous anchor, Chained s span elements i previous ∧
      elementStart? s span.first previous = some anchor ∧ w = .align t anchor := by
  obtain ⟨j, d, e', anchor, t', hchained, he', ha, ht', rfl⟩ := mem_chains_iff.1 hw
  obtain rfl : t' = t := htouch.1
  have hfirst := firstOf?_of_elementStart? h hsuccessive hs.toOrdered hopening he ht
  have hfirst' := firstOf?_of_elementStart? h hsuccessive hs.toOrdered hopening he' ht'
  obtain rfl := hsuccessive.index_eq hs.toOrdered he' he hfirst' hfirst
  exact ⟨d, anchor, hchained, ha, rfl⟩

/-- An element behind one that ends below the opening delimiter is written level with that one. -/
theorem edge_chains {g : Graph} {previous : Cursor} {anchor : Nat}
    (hchained : Chained s span elements i previous)
    (ha : elementStart? s span.first previous = some anchor) (hsize : t < g.size) :
    (g.writeAll s unit (chains s span elements)).edge t = ⟨some anchor, 0⟩ := by
  have hlt := (hchained.between h hsuccessive hs hopening he ht ha).2.1
  apply Graph.edge_writeAll_of_mem (w := .align t anchor) _ _ _ hsize
  · exact mem_chains_iff.2 ⟨i, previous, e, anchor, t, hchained, he, ha, ht, rfl⟩
  · exact fun g' hg' => Graph.edge_align (Nat.ne_of_lt hlt) hg'
  · intro w hw
    by_cases htouch : w.Touches t
    · obtain ⟨previous', anchor', hchained', ha', rfl⟩ :=
        exists_of_mem_chains h hsuccessive hs hopening he ht hw htouch
      obtain rfl := hchained.eq hchained'
      obtain rfl := Option.some.inj (ha.symm.trans ha')
      exact Graph.keeps_align t anchor
    · intro g' hedge
      rw [Graph.edge_write_of htouch, hedge]

/-- A list that is handled by levels writes where its elements are put in. -/
theorem exists_edge_writes {tree : Node} (hn : tree.Nested)
    (htree : ∀ d, some d ∈ elements → d ∈ tree.preorder) (hleads : s.leads t = true) :
    ∃ a n, PutIn s unit span elements levels i a n ∧ ∀ g : Graph, t < g.size →
      (g.writeAll s unit (writes s span elements (.levels levels))).edge t = ⟨some a, n⟩ := by
  have hfirst := firstOf?_of_elementStart? h hsuccessive hs.toOrdered hopening he ht
  obtain ⟨hlt, hlast⟩ := h.between e (List.mem_of_getElem? he) t hfirst
  have hclosing (g : Graph) : (g.writeAll s unit [.align span.last span.first]).edge t = g.edge t := by
    refine Graph.edge_writeAll_of fun w hw htouch => ?_
    rw [List.mem_singleton.1 hw] at htouch
    have := htouch.1
    omega
  simp only [writes, Graph.writeAll_append, hclosing]
  by_cases hprevious : ∃ previous, Chained s span elements i previous
  · obtain ⟨previous, hchained⟩ := hprevious
    obtain ⟨anchor, ha⟩ := hchained.exists_elementStart? hs.toOrdered hn htree
    refine ⟨anchor, 0, .chained hchained ha, fun g hsize => ?_⟩
    exact edge_chains h hsuccessive hs hopening he ht hchained ha (by rwa [Graph.size_writeAll])
  · rw [not_exists] at hprevious
    refine ⟨_, _, .opened hprevious, fun g hsize => ?_⟩
    rw [Graph.edge_writeAll_of fun w hw htouch => ?_]
    · rw [Graph.edge_indentAll (Span.mem_interior.2 ⟨hlt, hlast⟩) (Nat.ne_of_lt hlt) hsize,
        Graph.inset_of_other_line
          (hs.sameStartLine_eq_false (codeIn_of_firstOf? hs.toOrdered hfirst).lt_size hleads hlt)]
    · obtain ⟨previous, -, hchained, -⟩ :=
        exists_of_mem_chains h hsuccessive hs hopening he ht hw htouch
      exact hprevious previous hchained

end

end Sequence

end Indentation
