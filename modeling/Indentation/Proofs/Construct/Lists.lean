import Indentation.Proofs.Construct.Places

/-!
# Lists name their tokens in order

Whatever stands between the delimiters of a list, its writes stay inside: each names a token behind
the opening with an anchor that is not behind the token.  The parentheses around an element may be
counted with it, but never back to the opening.
-/

namespace Indentation

namespace Sequence

open TokenStream

variable {s : TokenStream}

/-- A parenthesis that may belong to an element. -/
def Skips (s : TokenStream) (opening id : Nat) : Prop :=
  s.isComment id = true ∨ id ≠ opening ∧ s.isPunctuator id ['('] = true

theorem beforeParens?_some {opening id j : Nat} (hf : beforeParens? s opening id = some j) :
    j < id ∧ s.isComment j = false ∧ ¬Skips s opening j ∧ ∀ k, j < k → k < id → Skips s opening k := by
  induction id with
  | zero => cases hf
  | succ id ih =>
    have hstep : ∀ {k}, k < id + 1 → k < id ∨ k = id := fun hk => Nat.lt_succ_iff_lt_or_eq.1 hk
    rw [beforeParens?] at hf
    split at hf
    · next hc =>
      obtain ⟨h₁, h₂, h₃, h₄⟩ := ih hf
      refine ⟨by omega, h₂, h₃, fun k hjk hk => ?_⟩
      rcases hstep hk with hk | rfl
      · exact h₄ k hjk hk
      · exact .inl hc
    · next hc =>
      split at hf
      · next hp =>
        obtain ⟨h₁, h₂, h₃, h₄⟩ := ih hf
        refine ⟨by omega, h₂, h₃, fun k hjk hk => ?_⟩
        rcases hstep hk with hk | rfl
        · exact h₄ k hjk hk
        · simp only [Bool.and_eq_true, decide_eq_true_eq] at hp
          exact .inr hp
      · next hp =>
        obtain rfl : id = j := by simpa using hf
        simp only [Bool.and_eq_true, decide_eq_true_eq] at hp
        exact ⟨Nat.lt_succ_self _, by simpa using hc, fun hskip => hskip.elim hc hp,
          fun k hjk hk => by omega⟩

theorem beforeParens?_none {opening id k : Nat} (hf : beforeParens? s opening id = none)
    (hk : k < id) : Skips s opening k := by
  induction id with
  | zero => omega
  | succ id ih =>
    rw [beforeParens?] at hf
    split at hf
    · next hc =>
      rcases Nat.lt_succ_iff_lt_or_eq.1 hk with hk | rfl
      · exact ih hf hk
      · exact .inl hc
    · split at hf
      · next hp =>
        rcases Nat.lt_succ_iff_lt_or_eq.1 hk with hk | rfl
        · exact ih hf hk
        · simp only [Bool.and_eq_true, decide_eq_true_eq] at hp
          exact .inr hp
      · cases hf

/-- Where an element with its parentheses starts: behind something that is none of them. -/
theorem elementStart?_some {opening t : Nat} {e : Cursor} (hf : elementStart? s opening e = some t) :
    ∃ first, s.firstOf? e = some first ∧ t < s.size ∧ s.isComment t = false ∧
      ((∃ b, beforeParens? s opening first = some b ∧ s.nextCode? b = some t) ∨
        beforeParens? s opening first = none ∧ s.firstCode? = some t) := by
  rw [elementStart?] at hf
  obtain ⟨first, hfirst, hf⟩ := Option.bind_eq_some_iff.1 hf
  refine ⟨first, hfirst, ?_⟩
  split at hf
  · next b hb =>
    obtain ⟨-, hlt, hcode, -⟩ := nextCode?_some hf
    exact ⟨hlt, hcode, .inl ⟨b, hb, hf⟩⟩
  · next hb =>
    obtain ⟨-, hlt, hcode, -⟩ := nextCodeFrom?_some hf
    exact ⟨hlt, hcode, .inr ⟨hb, hf⟩⟩

theorem firstCode?_le {t k : Nat} (hf : s.firstCode? = some t) (hk : s.isComment k = false) :
    t ≤ k := by
  by_contra hlt
  have := (nextCodeFrom?_some hf).2.2.2 k (Nat.zero_le k) (by omega)
  rw [hk] at this
  cases this

/-- Later elements start later. -/
theorem elementStart?_mono {opening t t' first first' : Nat} {e e' : Cursor}
    (ht : elementStart? s opening e = some t) (ht' : elementStart? s opening e' = some t')
    (hfirst : s.firstOf? e = some first) (hfirst' : s.firstOf? e' = some first')
    (hle : first ≤ first') : t ≤ t' := by
  obtain ⟨f, hf, -, -, h⟩ := elementStart?_some ht
  obtain ⟨f', hf', -, hcode', h'⟩ := elementStart?_some ht'
  obtain rfl : first = f := by simpa [hfirst] using hf
  obtain rfl : first' = f' := by simpa [hfirst'] using hf'
  rcases h with ⟨b, hb, hbt⟩ | ⟨-, hfc⟩
  · obtain ⟨hlt, -, hnot, -⟩ := beforeParens?_some hb
    rcases h' with ⟨b', hb', hbt'⟩ | ⟨hnone, -⟩
    · have hbb : b ≤ b' := by
        by_contra hgt
        exact hnot ((beforeParens?_some hb').2.2.2 b (by omega) (by omega))
      have := (nextCode?_some hbt').1
      exact nextCode?_le hbt (by omega) hcode'
    · exact absurd (beforeParens?_none hnone (by omega)) hnot
  · exact firstCode?_le hfc hcode'

theorem elementStart?_le {opening t first : Nat} {e : Cursor} (hs : s.Ordered)
    (ht : elementStart? s opening e = some t) (hfirst : s.firstOf? e = some first) : t ≤ first := by
  obtain ⟨f, hf, -, -, h⟩ := elementStart?_some ht
  obtain rfl : first = f := by simpa [hfirst] using hf
  have hcode := ((firstCodeIn?_eq_some_iff hs).1 hfirst).1.code
  rcases h with ⟨b, hb, hbt⟩ | ⟨-, hfc⟩
  · exact nextCode?_le hbt (beforeParens?_some hb).1 hcode
  · exact firstCode?_le hfc hcode

/-- An element behind the opening starts behind it. -/
theorem lt_elementStart? {opening t first : Nat} {e : Cursor}
    (ht : elementStart? s opening e = some t) (hfirst : s.firstOf? e = some first)
    (hlt : opening < first) (hopening : s.isComment opening = false) : opening < t := by
  obtain ⟨f, hf, -, -, h⟩ := elementStart?_some ht
  obtain rfl : first = f := by simpa [hfirst] using hf
  have hnot : ¬Skips s opening opening := by
    rintro (hc | ⟨hne, -⟩)
    · rw [hopening] at hc
      cases hc
    · exact hne rfl
  rcases h with ⟨b, hb, hbt⟩ | ⟨hnone, -⟩
  · have hle : opening ≤ b := by
      by_contra hgt
      exact hnot ((beforeParens?_some hb).2.2.2 opening (by omega) hlt)
    have := (nextCode?_some hbt).1
    omega
  · exact absurd (beforeParens?_none hnone hlt) hnot

/-! ## The writes of a list -/

variable (hs : s.Lined) {P : Nat → Prop}
include hs

/-- Elements of a list in order, all of them behind its opening. -/
structure Elements (s : TokenStream) (r : Range) (first : Nat) (elements : List (Option Cursor)) :
    Prop where
  ordered : (elements.filterMap id).Pairwise fun d e => d.range.stop ≤ e.range.start
  codeIn : ∀ e ∈ elements.filterMap id, ∀ i, s.CodeIn e.range i → s.CodeIn r i ∧ first ≤ i

/-- An element that follows another one starts behind the opening, and not before the other. -/
theorem elementStart?_of_later {r : Range} {opening t : Nat} {d e : Cursor} {first : Nat}
    (hd : s.firstOf? d = some first) (hfirst : opening ≤ first)
    (hopening : s.isComment opening = false) (hde : d.range.stop ≤ e.range.start)
    (hin : ∀ i, s.CodeIn e.range i → s.CodeIn r i) (ht : elementStart? s opening e = some t) :
    opening < t ∧ (∃ j, s.CodeIn r j ∧ t ≤ j) ∧
      ∀ a, elementStart? s opening d = some a → a ≤ t := by
  obtain ⟨first', hfirst', -⟩ := elementStart?_some ht
  have h₁ := ((firstCodeIn?_eq_some_iff hs.toOrdered).1 hd).1
  have h₂ := ((firstCodeIn?_eq_some_iff hs.toOrdered).1 hfirst').1
  have hlt : first < first' := by
    refine hs.lt_of_start_lt h₁.lt_size ?_
    have := hs.start_lt_stop first h₁.lt_size
    have := h₁.le_stop
    have := h₂.start_le
    omega
  refine ⟨lt_elementStart? ht hfirst' (by omega) hopening, ⟨first', hin _ h₂, ?_⟩, fun a ha => ?_⟩
  · exact elementStart?_le hs.toOrdered ht hfirst'
  · exact elementStart?_mono ha ht hd hfirst' (Nat.le_of_lt hlt)

omit hs in
/-- What one element writes about the next one. -/
theorem chain?_eq_some_iff {span : Span} {previous current : Option Cursor} {w : Write} :
    chain? s span previous current = some w ↔ ∃ d e, previous = some d ∧ current = some e ∧
      (∃ last, s.lastOf? d.bare = some last ∧ (s.token span.first).endLine < (s.token last).endLine) ∧
      ∃ anchor t, elementStart? s span.first d = some anchor ∧ elementStart? s span.first e = some t ∧
        w = .align t anchor := by
  cases previous with
  | none => exact ⟨nofun, nofun⟩
  | some d =>
    cases current with
    | none => exact ⟨nofun, nofun⟩
    | some e =>
      simp only [chain?, Option.bind_eq_bind, Option.bind_some, Option.bind_eq_some_iff,
        Option.ite_none_left_eq_some, Nat.not_le, Option.pure_def, Option.some.injEq]
      constructor
      · rintro ⟨last, hlast, hlt, anchor, ha, t, ht, rfl⟩
        exact ⟨d, e, rfl, rfl, ⟨last, hlast, hlt⟩, anchor, t, ha, ht, rfl⟩
      · rintro ⟨_, _, rfl, rfl, ⟨last, hlast, hlt⟩, anchor, t, ha, ht, rfl⟩
        exact ⟨last, hlast, hlt, anchor, ha, t, ht, rfl⟩

omit hs in
theorem chain?_some {span : Span} {previous current : Option Cursor} {w : Write}
    (h : chain? s span previous current = some w) :
    ∃ d e, previous = some d ∧ current = some e ∧ ∃ anchor t,
      elementStart? s span.first d = some anchor ∧ elementStart? s span.first e = some t ∧
        w = .align t anchor := by
  obtain ⟨d, e, hd, he, -, hstarts⟩ := chain?_eq_some_iff.1 h
  exact ⟨d, e, hd, he, hstarts⟩

omit hs in
/-- Neighbours in a list. -/
theorem exists_split_of_mem_zip {α : Type} {xs : List α} {x y : α} (h : (x, y) ∈ xs.zip (xs.drop 1)) :
    ∃ before after, xs = before ++ x :: y :: after := by
  induction xs with
  | nil => cases h
  | cons a xs ih =>
    cases xs with
    | nil => cases h
    | cons b xs =>
      rcases List.mem_cons.1 h with h | h
      · obtain ⟨rfl, rfl⟩ : x = a ∧ y = b := by simpa using h
        exact ⟨[], xs, rfl⟩
      · obtain ⟨before, after, hsplit⟩ := ih h
        exact ⟨a :: before, after, by rw [hsplit]; rfl⟩

section

variable {r : Range} {span : Span} {elements : List (Option Cursor)} (hfirst : s.CodeIn r span.first)
  (hel : Elements s r span.first elements)
include hfirst hel

/-- Where an element of a list starts that follows another one of the list. -/
theorem elementStart?_of_split {d e : Cursor} {before after : List (Option Cursor)} {t : Nat}
    (hsplit : elements = before ++ some d :: after) (he : some e ∈ after)
    (ht : elementStart? s span.first e = some t) (hd : (s.firstOf? d).isSome) :
    span.first < t ∧ (∃ j, s.CodeIn r j ∧ t ≤ j) ∧
      ∀ a, elementStart? s span.first d = some a → a ≤ t := by
  obtain ⟨first, hd⟩ := Option.isSome_iff_exists.1 hd
  have hdm : d ∈ elements.filterMap id := List.mem_filterMap.2 ⟨some d, by simp [hsplit], rfl⟩
  have hem : e ∈ elements.filterMap id := List.mem_filterMap.2 ⟨some e, by simp [hsplit, he], rfl⟩
  have hde : d.range.stop ≤ e.range.start := by
    have hord := hel.ordered
    rw [hsplit, List.filterMap_append] at hord
    exact (List.pairwise_cons.1 (List.pairwise_append.1 hord).2.1).1 e
      (List.mem_filterMap.2 ⟨some e, he, rfl⟩)
  exact elementStart?_of_later hs hd
    (hel.codeIn d hdm first ((firstCodeIn?_eq_some_iff hs.toOrdered).1 hd).1).2 hfirst.code hde
    (fun i hi => (hel.codeIn e hem i hi).1) ht

variable (hP : s.Tail r P)
include hP

theorem within_chains : ∀ w ∈ chains s span elements, w.Within s P := by
  intro w hw
  obtain ⟨⟨previous, current⟩, hmem, hchain⟩ := List.mem_filterMap.1 hw
  obtain ⟨d, e, rfl, rfl, anchor, t, ha, ht, rfl⟩ := chain?_some hchain
  obtain ⟨before, after, hsplit⟩ := exists_split_of_mem_zip hmem
  obtain ⟨first, hd, -⟩ := elementStart?_some ha
  obtain ⟨hlt, ⟨j, hj, htj⟩, hle⟩ := elementStart?_of_split hs hfirst hel hsplit
    List.mem_cons_self ht (by rw [hd]; rfl)
  exact Write.within_align_of (Nat.lt_of_le_of_lt htj hj.lt_size) (hle anchor ha)
    (hP _ _ _ hfirst hj hlt htj)

theorem within_alignWithFirst
    (hinside : ∀ w ∈ Write.indentAll span.interior (some span.first) 1, w.Within s P) :
    ∀ w ∈ alignWithFirst s span elements, w.Within s P := by
  intro w hw
  simp only [alignWithFirst] at hw
  split at hw
  · exact hinside w hw
  · next lead hlead =>
    obtain ⟨d, hhead, hlead⟩ := Option.bind_eq_some_iff.1 hlead
    obtain ⟨rest, rfl⟩ : ∃ rest, elements = some d :: rest := by
      cases elements with
      | nil => cases hhead
      | cons e rest => exact ⟨rest, by simpa using hhead⟩
    obtain ⟨first, hd, hlt, -⟩ := elementStart?_some hlead
    rcases List.mem_cons.1 hw with rfl | hw
    · exact ⟨hlt, fun _ => False.elim⟩
    · rcases List.mem_append.1 hw with hw | hw
      · exact hinside w hw
      · obtain ⟨t, ht, rfl⟩ := List.mem_map.1 hw
        obtain ⟨element, he, ht⟩ := List.mem_filterMap.1 ht
        obtain ⟨e, rfl, ht⟩ := Option.bind_eq_some_iff.1 ht
        obtain ⟨hlt', ⟨j, hj, htj⟩, -⟩ := elementStart?_of_split hs hfirst hel
          (List.nil_append _).symm he ht (by rw [hd]; rfl)
        refine ⟨Nat.lt_of_le_of_lt htj hj.lt_size, ?_⟩
        rintro _ rfl
        exact hP _ _ _ hfirst hj hlt' htj

/-- The writes of a list between two tokens of a range. -/
theorem within_writes (hlast : s.CodeIn r span.last) (hle : span.first ≤ span.last)
    (offset : ListOffset) : ∀ w ∈ writes s span elements offset, w.Within s P := by
  have hinside := Write.within_interior hP hfirst hlast
  intro w hw
  unfold writes at hw
  rcases List.mem_append.1 hw with hw | hw
  · cases offset with
    | levels count =>
      rcases List.mem_append.1 hw with hw | hw
      · exact hinside count w hw
      · exact within_chains hs hfirst hel hP w hw
    | first => exact within_alignWithFirst hs hfirst hel hP (hinside 1) w hw
  · rw [List.mem_singleton.1 hw]
    exact Write.within_align hP hfirst hlast ⟨hle, Nat.le_refl _⟩

end

/-! ## Lists of the language -/

omit hs in
/-- What waits for its comma is read before what comes next. -/
theorem filterMap_foldl_read (slots : Slots) (children : List Cursor) :
    ((children.foldl Slots.read slots).closed.filterMap id).Sublist
      (slots.closed.filterMap id ++ (slots.waiting.toList ++ children)) := by
  induction children generalizing slots with
  | nil => exact List.sublist_append_left _ _
  | cons c children ih =>
    rw [List.foldl_cons]
    refine (ih (slots.read c)).trans ?_
    obtain ⟨closed, waiting⟩ := slots
    have hdrop : (closed.filterMap id ++ (waiting.toList ++ children)).Sublist
        (closed.filterMap id ++ (waiting.toList ++ c :: children)) :=
      (((List.Sublist.refl _).cons c).append_left _).append_left _
    unfold Slots.read
    split
    · exact hdrop
    · cases waiting <;> simp
    · cases waiting <;> simp
    · exact (List.sublist_append_right waiting.toList _).append_left _

omit hs in
theorem filterMap_arrayElements (c : Cursor) :
    ((arrayElements c).filterMap id).Sublist c.children :=
  (filterMap_foldl_read ⟨[], none⟩ _).trans List.filter_sublist

variable {tree : Node} {c : Cursor} (hn : tree.Nested) (hc : c ∈ tree.preorder)
include hn hc

omit hs in
theorem elements_of_sublist {d : Cursor} {first : Nat} {elements : List (Option Cursor)}
    (hd : Cursor.Reaches c d) (hsub : (elements.filterMap id).Sublist d.children)
    (hfirst : ∀ i, s.CodeIn d.range i → s.CodeIn c.range i → first ≤ i) :
    Elements s c.range first elements where
  ordered := (hn.ordered d (Node.mem_preorder_of_reaches hc hd)).sublist hsub
  codeIn e he i hi := by
    have hle := hn.range_le hc hd
    have hle' := hn.range_le (Node.mem_preorder_of_reaches hc hd) (.child (hsub.subset he))
    have hid := hi.mono hle'.1 hle'.2
    have hic := hid.mono hle.1 hle.2
    exact ⟨hic, hfirst i hid hic⟩

omit hs hn hc in
theorem filterMap_map_some (xs : List Cursor) : (xs.map some).filterMap id = xs := by
  simp

variable (hP : s.Tail c.range P)
include hP

/-- A list between the first and the last token of a place below. -/
theorem within_writes_of_span {d : Cursor} {span : Span} {elements : List (Option Cursor)}
    (hd : Cursor.Reaches c d) (hspan : s.spanOfNode? d = some span)
    (hsub : (elements.filterMap id).Sublist d.children) (offset : ListOffset) :
    ∀ w ∈ writes s span elements offset, w.Within s P := by
  obtain ⟨hfirst, hlast, hle, hall⟩ := spanOfNode?_spec hs.toOrdered hspan
  have hrange := hn.range_le hc hd
  refine within_writes hs (hfirst.mono hrange.1 hrange.2) ?_ hP (hlast.mono hrange.1 hrange.2) hle _
  exact elements_of_sublist hn hc hd hsub fun i hi _ => (hall i hi).1

theorem within_ofLiteral (offset : ListOffset) :
    ∀ w ∈ ofLiteral s offset c, w.Within s P := by
  unfold ofLiteral
  split
  · exact List.forall_mem_nil _
  · next span hspan =>
    refine within_writes_of_span hs hn hc hP (.refl c) hspan ?_ offset
    split
    · exact filterMap_arrayElements c
    · exact filterMap_arrayElements c
    · rw [filterMap_map_some]
      exact c.properChildren_sublist

omit hs hn hc hP in
theorem properOfKind_sublist (c : Cursor) (kind : String) :
    (properOfKind c kind).Sublist c.children :=
  List.filter_sublist.trans c.properChildren_sublist

omit hs hn hc hP in
theorem reaches_of_head?_properOfKind {c d : Cursor} {kind : String}
    (h : (properOfKind c kind).head? = some d) : Cursor.Reaches c d :=
  .child ((properOfKind_sublist c kind).subset (List.mem_of_head? h))

theorem within_ofExport : ∀ w ∈ ofExport s c, w.Within s P := by
  refine Write.forall_mem_getD fun ws h => ?_
  obtain ⟨clause, hclause, h⟩ := Option.bind_eq_some_iff.1 h
  obtain ⟨span, hspan, h⟩ := Option.bind_eq_some_iff.1 h
  obtain rfl : _ = ws := Option.some.inj h
  refine within_writes_of_span hs hn hc hP (reaches_of_head?_properOfKind hclause) hspan ?_ _
  rw [filterMap_map_some]
  exact properOfKind_sublist clause _

theorem within_ofImport : ∀ w ∈ ofImport s c, w.Within s P := by
  refine Write.forall_mem_getD fun ws h => ?_
  obtain ⟨clause, hclause, h⟩ := Option.bind_eq_some_iff.1 h
  obtain ⟨named, hnamed, h⟩ := Option.bind_eq_some_iff.1 h
  dsimp only at h
  split at h
  · cases h
  · obtain ⟨span, hspan, h⟩ := Option.bind_eq_some_iff.1 h
    obtain rfl : _ = ws := Option.some.inj h
    have hreach := (reaches_of_head?_properOfKind hclause).trans (reaches_of_head?_properOfKind hnamed)
    refine within_writes_of_span hs hn hc hP hreach hspan ?_ _
    rw [filterMap_map_some]
    exact properOfKind_sublist named _

end Sequence

end Indentation
