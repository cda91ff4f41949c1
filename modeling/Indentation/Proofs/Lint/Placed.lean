import Indentation.Proofs.Construct.Containers
import Indentation.Proofs.Lint.Acyclic

/-!
# Statements stand where their container puts them

After a walk has entered a container, nothing changes what it wrote about the first token of a
statement.  What is written at a place names tokens behind its first one, and only places above the
statement have its first token behind theirs.  They have been entered before, and what is written when
they are left moves the statement with its container.  So do parentheses, which are around all of the
container or none of the statement.
-/

namespace Indentation

open Cursor TokenStream Construct

namespace IndentRule

variable {s : TokenStream} {tree : Node} {o : IndentOptions}

section

variable (hs : s.Lined) (hn : tree.Nested) {d : Cursor} (hd : d ∈ tree.preorder) {t : Nat}
  (ht : s.firstOf? d = some t)
include hs hn hd ht

/-- Only places above a place have its first token behind their own first one. -/
theorem tail_ne {c : Cursor} (hc : c ∈ tree.preorder) (hcd : Reaches c d → c = d) :
    s.Tail c.range (· ≠ t) := by
  obtain ⟨hin, hmin⟩ := (firstCodeIn?_eq_some_iff hs.toOrdered).1 ht
  rintro i j _ hi hj hlt hle rfl
  have hout := hi.between hs.toOrdered hj (Nat.le_of_lt hlt) hle hin.code
  have hreach : Reaches d c := by
    rcases hn.reaches_or hc hd (hs.start_lt_stop _ hin.lt_size) ⟨hout.start_le, hout.le_stop⟩
      ⟨hin.start_le, hin.le_stop⟩ with hreach | hreach
    · exact hcd hreach ▸ .refl c
    · exact hreach
  have hrange := hn.range_le hd hreach
  have := hmin i (hi.mono hrange.1 hrange.2)
  omega

variable (hg : Grammatical s tree) (hlead : s.leads t = true)
include hg hlead

/-- A walk changes nothing about the first token of a place unless it is at a construct above. -/
theorem keeps_of_event {e : Event} (he : e.place ∈ tree.preorder)
    (hed : Reaches e.place d → e.place = d ∨ ofPlace? e.place = none) (edge : Edge) :
    ∀ w ∈ eventWrites s o e, w.Keeps s o.unit t edge := by
  intro w hw g hedge
  cases hnone : ofPlace? e.place with
  | none =>
    rw [eventWrites_eq_nil hnone] at hw
    cases hw
  | some k =>
    have hP : s.Tail e.place.range (· ≠ t) := tail_ne hs hn hd ht he fun hreach =>
      (hed hreach).resolve_right (by simp [hnone])
    have hwithin := within_eventWrites hs hn hg.inOrder he hP
      ((hg.whole e.place he).covers hs.toOrdered hn he hP fun _ i _ hi => by
        rintro rfl
        rw [hlead] at hi
        cases hi) rfl w hw
    rw [Graph.edge_write_of fun htouch => hwithin.2 t htouch rfl, hedge]

end

/-- Only a declarator writes something when it is left. -/
theorem exists_of_mem_leave {b : Cursor} {v : Write} (hv : v ∈ eventWrites s o (.leave b)) :
    ofPlace? b = some .declarator ∧ ∃ value span levels, b.fieldChild? "value" = some value ∧
      s.spanOfNode? value.bare = some span ∧ v = .shift span levels := by
  cases hk : ofPlace? b with
  | none =>
    simp only [eventWrites, hk] at hv
    cases hv
  | some k =>
    simp only [eventWrites, hk] at hv
    cases k with
    | declarator => exact ⟨rfl, Declaration.exists_of_mem_shiftWrites o v hv⟩
    | _ => cases hv

/-- What is moved when a declarator is left has all of a construct in it, if it has a token of it. -/
theorem mem_span_of_leave (hs : s.Lined) (hn : tree.Nested) {b w value : Cursor} {k : Construct}
    {span : Span} (hb : b ∈ tree.preorder) (hbw : Reaches b w) (hk : ofPlace? w = some k)
    (hne : k ≠ .declarator) (hdeclarator : ofPlace? b = some .declarator)
    (hvalue : b.fieldChild? "value" = some value) (hspan : s.spanOfNode? value.bare = some span)
    {a t : Nat} (ha : s.CodeIn w.range a) (ht : s.CodeIn w.range t)
    (hmem : span.first ≤ t ∧ t ≤ span.last) : span.first ≤ a ∧ a ≤ span.last := by
  obtain ⟨hfirst, hlast, -, hall⟩ := spanOfNode?_spec hs.toOrdered hspan
  have hchild := mem_children_of_fieldChild hvalue
  have hvaluet := Node.mem_preorder_of_child hb hchild
  have hbaret := Node.mem_preorder_of_reaches hvaluet (reaches_bare value)
  have hwt := Node.mem_preorder_of_reaches hb hbw
  have hin := hfirst.between hs.toOrdered hlast hmem.1 hmem.2 ht.code
  have hpos := hs.start_lt_stop t ht.lt_size
  have hbare : value.bare.Spans (s.token t).start (s.token t).stop := ⟨hin.start_le, hin.le_stop⟩
  have hw : w.Spans (s.token t).start (s.token t).stop := ⟨ht.start_le, ht.le_stop⟩
  have hbw' : b ≠ w := by
    rintro rfl
    exact hne (Option.some.inj (hk.symm.trans hdeclarator))
  -- the construct is in the value, since it is no parenthesis around it
  have hreach : Reaches value.bare w := by
    rcases hn.reaches_or hbaret hwt hpos hbare hw with hreach | hreach
    · exact hreach
    · have hvw := hn.reaches_child hb hchild hpos
        (hn.spans_of_reaches hvaluet (reaches_bare value) hbare) hbw hbw' hw
      rcases hn.kind_of_reaches_bare hvaluet hpos hbare hvw hreach with heq | hkind
      · exact heq ▸ .refl w
      · rw [ofPlace?, hkind] at hk
        split at hk <;> cases hk
  have hrange := hn.range_le hbaret hreach
  exact hall a (ha.mono hrange.1 hrange.2)

/-- Leaving a place above a construct moves what is anchored in the construct with its anchor. -/
theorem keeps_of_leave (hs : s.Lined) (hn : tree.Nested) {b w : Cursor} {k : Construct}
    (hb : b ∈ tree.preorder) (hbw : Reaches b w) (hk : ofPlace? w = some k) (hne : k ≠ .declarator)
    {a t n : Nat} (ha : s.CodeIn w.range a) (ht : s.CodeIn w.range t) :
    ∀ v ∈ eventWrites s o (.leave b), v.Keeps s o.unit t ⟨some a, n⟩ := by
  intro v hv g hedge
  obtain ⟨hdeclarator, value, span, levels, hvalue, hspan, rfl⟩ := exists_of_mem_leave hv
  rw [Graph.edge_shift_of ?_, hedge]
  by_cases hmem : span.first ≤ t ∧ t ≤ span.last
  · refine .inl ?_
    rw [Graph.anchor?, hedge]
    exact Span.contains_iff.2
      (mem_span_of_leave hs hn hb hbw hk hne hdeclarator hvalue hspan ha ht hmem)
  · exact .inr hmem

section

variable {w c d : Cursor} {n : Nat} (hs : s.Lined) (hn : tree.Nested) (hg : Grammatical s tree)
include hs hn hg

omit hg in
/-- After a walk has entered a construct, it leaves places above it or comes to others. -/
theorem exists_split_writes {k : Construct} (hw : w ∈ tree.preorder) (hk : ofPlace? w = some k) {t : Nat}
    (ht : s.CodeIn w.range t) :
    ∃ (before : List Write) (post : List Event), Construct.writes s o tree =
        (before ++ enter s o w k) ++ post.flatMap (eventWrites s o) ∧
      ∀ e ∈ post, e.place ∈ tree.preorder ∧
        ((∃ b, e = .leave b ∧ Reaches b w) ∨ ¬Reaches e.place w) := by
  obtain ⟨pre, post, hsplit, hpost⟩ := hn.exists_split_enter hw
    (hs.start_lt_stop t ht.lt_size) ⟨ht.start_le, ht.le_stop⟩
  refine ⟨pre.flatMap (eventWrites s o), post, ?_, fun e he => ⟨?_, hpost e he⟩⟩
  · rw [Construct.writes, hsplit, List.flatMap_append, List.flatMap_cons, List.append_assoc]
    simp only [eventWrites, hk, Option.map_some, Option.getD_some]
  · refine Node.mem_preorder_iff.2 (reaches_of_mem_events ?_)
    rw [← Node.events_eq, hsplit]
    exact List.mem_append_right _ (List.mem_cons_of_mem _ he)

/-- What is written about the first token of a place when a walk enters the construct above it is there
when the walk has ended, if it is kept when the places above are left. -/
theorem edge_writes_of_enter {k : Construct} (hw : w ∈ tree.preorder) (hk : ofPlace? w = some k)
    (hadjoins : Adjoins w d) {t : Nat} (ht : s.firstOf? d = some t) (hlead : s.leads t = true) {e : Edge}
    (hleave : ∀ b ∈ tree.preorder, Reaches b w → ∀ v ∈ eventWrites s o (.leave b), v.Keeps s o.unit t e)
    {g : Graph} (henter : ∀ g' : Graph, g'.size = g.size →
      (g'.writeAll s o.unit (enter s o w k)).edge t = e) :
    (g.writeAll s o.unit (Construct.writes s o tree)).edge t = e := by
  have hdt := Node.mem_preorder_of_reaches hw hadjoins.1
  have hrange := hn.range_le hw hadjoins.1
  have htin := (codeIn_of_firstOf? hs.toOrdered ht).mono hrange.1 hrange.2
  obtain ⟨before, post, hwrites, hpost⟩ := exists_split_writes (o := o) hs hn hw hk htin
  rw [hwrites, Graph.writeAll_append]
  refine Graph.edge_writeAll_of_keeps (fun v hv => ?_) ?_
  · obtain ⟨event, hevent, hv⟩ := List.mem_flatMap.1 hv
    obtain ⟨hplace, ⟨b, rfl, hbw⟩ | hnot⟩ := hpost event hevent
    · exact hleave b hplace hbw v hv
    · refine keeps_of_event hs hn hdt ht hg hlead hplace (fun hreach => ?_) _ v hv
      by_cases heq : event.place = d
      · exact .inl heq
      · exact .inr ((hadjoins.2 event.place hreach heq).resolve_left hnot)
  · rw [Graph.writeAll_append]
    exact henter _ (Graph.size_writeAll before)

/-- What a container puts in is put in from the container when the walk has ended. -/
theorem edge_writes_of_placed (h : Placed o w c d n) (hw : w ∈ tree.preorder) {a t : Nat}
    (ha : s.firstOf? c = some a) (ht : s.firstOf? d = some t) (hlead : s.leads t = true) {g : Graph}
    (hsize : t < g.size) :
    (g.writeAll s o.unit (Construct.writes s o tree)).edge t = ⟨some a, Width.ofLevels o.unit n⟩ := by
  obtain ⟨k, hk, hne⟩ := h.exists_construct
  have hreach := (h.behind hn hg hw).1
  have hrange := hn.range_le hw h.adjoins.1
  have hrange' := hn.range_le hw hreach
  have htin := (codeIn_of_firstOf? hs.toOrdered ht).mono hrange.1 hrange.2
  have hain := (codeIn_of_firstOf? hs.toOrdered ha).mono hrange'.1 hrange'.2
  refine edge_writes_of_enter hs hn hg hw hk h.adjoins ht hlead (fun b hb hbw v hv => ?_) fun g' hg' => ?_
  · exact keeps_of_leave hs hn hb hbw hk hne hain htin v hv
  · have htd := codeIn_of_firstOf? hs.toOrdered ht
    have hlt := (h.behind hn hg hw).2.begins a ha t htd
    rw [h.edge_enter hs hn hg hw ha htd (.inl ht) hk (hg' ▸ hsize),
      Graph.inset_of_other_line (hs.sameStartLine_eq_false htd.lt_size hlead hlt)]

/-- What stands in the program itself is not put in at all. -/
theorem edge_writes_of_program (hkind : tree.kind = "program") (hd : d ∈ (Cursor.root tree).children)
    {t : Nat} (ht : s.firstOf? d = some t) (hlead : s.leads t = true) (size : Nat) :
    ((Graph.blank size).writeAll s o.unit (Construct.writes s o tree)).edge t = .margin := by
  have hdt := Node.mem_preorder_of_child tree.mem_preorder_self hd
  refine Graph.edge_writeAll_of_keeps (fun v hv => ?_) (Graph.edge_blank size t)
  obtain ⟨e, he, hv⟩ := List.mem_flatMap.1 hv
  rw [Node.events_eq] at he
  have heplace := reaches_of_mem_events he
  refine keeps_of_event hs hn hdt ht hg hlead (Node.mem_preorder_iff.2 heplace) (fun hed => ?_) _ v hv
  by_cases heq : e.place = d
  · exact .inl heq
  · have hroot : Cursor.root tree = e.place := heplace.antisymm (hed.to_parent heq hd)
    refine .inr ?_
    rw [← hroot, ofPlace?, show (Cursor.root tree).kind = "program" from hkind]
    split <;> rfl

/-! ## Parentheses -/

omit hn in
/-- The first token of a place is outside all parentheses that open in the place. -/
theorem outside_of_first (hd : d ∈ tree.preorder) (hnamed : d.named = true) {t : Nat}
    (ht : s.firstOf? d = some t) : Parens.Outside s d t := by
  intro p hp hlt
  obtain ⟨hin, hmin⟩ := (firstCodeIn?_eq_some_iff hs.toOrdered).1 ht
  have hout : ¬s.CodeIn d.range p.1 := fun hout => by
    have := hmin p.1 hout
    omega
  refine ⟨fun heq => hout ?_, fun _ => hout⟩
  rw [hg.balanced d hd hnamed p hp, ← heq]
  exact hin

omit hg in
/-- Parentheses move what is put in from a place with the place. -/
theorem keeps_of_parens (hc : c ∈ tree.preorder) (hbehind : Behind s c d) {a t n unit : Nat}
    (ha : s.firstOf? c = some a) (ht : s.CodeIn d.range t) (houtside : Parens.Outside s d t) :
    ∀ w ∈ Parens.writes s, w.Keeps s unit t ⟨some a, n⟩ := by
  intro w hw g hedge
  obtain ⟨p, hp, rfl⟩ := List.mem_map.1 hw
  obtain ⟨hpair, -, hcode⟩ := Parens.lt_of_mem_pairs hp
  have hain := codeIn_of_firstOf? hs.toOrdered ha
  have hrange := hn.range_le hc hbehind.reaches
  by_cases hlt : p.1 < t
  · obtain ⟨hne, hout⟩ := houtside p hp hlt
    rw [Graph.edge_enclose_of hne ?_, hedge]
    by_cases hgt : t < p.2
    · -- the pair is around the whole of the place
      have hpa : p.1 < a := by
        by_contra hle
        have hpin := hain.between hs.toOrdered (ht.mono hrange.1 hrange.2) (Nat.le_of_not_lt hle)
          (Nat.le_of_lt hlt) hcode
        exact hout hgt (hbehind.sheltered p hp hpin t ht hlt hgt)
      have := hbehind.begins a ha t ht
      refine .inl ?_
      rw [Graph.anchor?, hedge]
      simp only [Option.any_some, Bool.and_eq_true, decide_eq_true_eq]
      omega
    · exact .inr fun h => hgt h.2
  · rw [Graph.edge_enclose_of (by omega) (.inr fun h => hlt h.1), hedge]

omit hs hn hg in
/-- No parentheses are around a place in which none of those around it open. -/
theorem keeps_of_sheltered (hin : ∀ p ∈ Parens.pairs s, s.CodeIn c.range p.1)
    (hsheltered : Parens.Sheltered s c d) {t unit : Nat} (ht : s.CodeIn d.range t)
    (houtside : Parens.Outside s d t) (e : Edge) : ∀ w ∈ Parens.writes s, w.Keeps s unit t e := by
  intro w hw g hedge
  obtain ⟨p, hp, rfl⟩ := List.mem_map.1 hw
  have hpair := (Parens.lt_of_mem_pairs hp).1
  by_cases hlt : p.1 < t
  · obtain ⟨hne, hout⟩ := houtside p hp hlt
    rw [Graph.edge_enclose_of hne (.inr fun h => ?_), hedge]
    exact hout h.2 (hsheltered p hp (hin p hp) t ht h.1 h.2)
  · rw [Graph.edge_enclose_of (by omega) (.inr fun h => hlt h.1), hedge]

end

/-- Every token of a text is in its tree. -/
theorem codeIn_root {source : Text} (h : tree.Fits source) (hcut : s.CutFrom source tree.pieces) {i : Nat}
    (hi : i < s.size) (hcode : s.isComment i = false) : s.CodeIn (Cursor.root tree).range i := by
  obtain ⟨x, hx, hc⟩ := hcut.getElem_cut hi
  obtain ⟨hlo, -, hhi⟩ := h.runs.mem (Node.mem_pieces_iff.1 hx).1
  exact ⟨hi, hcode, hc.start_eq ▸ hlo, hc.stop_eq ▸ hhi⟩

theorem pairs_in_root {source : Text} (h : tree.Fits source) (hcut : s.CutFrom source tree.pieces) :
    ∀ p ∈ Parens.pairs s, s.CodeIn (Cursor.root tree).range p.1 := by
  intro p hp
  obtain ⟨hlt, hsize, hcode⟩ := Parens.lt_of_mem_pairs hp
  exact codeIn_root h hcut (by omega) hcode

/-- Statements stand exactly where their container puts them, whatever is around them or in them.
Those of the program stand at the margin of the page.  All others stand in from the first token of
their block, their class, their switch, their case or their statement, by the levels that are asked
for. -/
theorem exists_placed {source : Text} (h : tree.Fits source)
    (hg : ∀ d, Document.of source tree = .ok d → Grammatical d.stream tree) (o : IndentOptions) :
    ∃ d widths, Document.of source tree = .ok d ∧
      (graph o tree d.stream).resolve d.stream o.indentChar = .ok widths ∧
      (tree.kind = "program" → tree.named = true →
        ∀ e ∈ (Cursor.root tree).properChildren, ∀ t, d.stream.firstOf? e = some t →
          d.stream.leads t = true → (graph o tree d.stream).isExempt t = false →
            widths.getD t 0 = 0) ∧
      ∀ w ∈ tree.preorder, ∀ c e levels, Placed o w c e levels →
        ∀ t, d.stream.firstOf? e = some t → d.stream.leads t = true →
          (graph o tree d.stream).isExempt t = false →
            ∃ a, d.stream.firstOf? c = some a ∧
              widths.getD t 0 = Width.add (widths.getD a 0) (Width.ofLevels o.unit levels) := by
  obtain ⟨s, hs, hcut, hl⟩ := h.exists_ofTree
  have hdoc : Document.of source tree = .ok ⟨source, .of source, tree, s⟩ := by
    rw [Document.of, hs]
    rfl
  have hg := hg _ hdoc
  obtain ⟨widths, hwidths, hprescribed⟩ := exists_widths hl h.toNested hg.inOrder o
  refine ⟨_, widths, hdoc, hwidths, fun hkind hnamed e he t ht hlead hexempt => ?_,
    fun w hw c e levels hplaced t ht hlead hexempt => ?_⟩
  · have hchild := mem_children_of_mem_properChildren he
    have hin := codeIn_of_firstOf? hl.toOrdered ht
    have hroot := tree.mem_preorder_self
    have hholds : (Cursor.root tree).Holds e :=
      ⟨he, .inl (by simp [show (Cursor.root tree).kind = "program" from hkind])⟩
    have hedge : (graph o tree s).edge t = .margin := by
      rw [graph, Graph.writeAll_append]
      refine Graph.edge_writeAll_of_keeps ?_
        (edge_writes_of_program hl h.toNested hg hkind hchild ht hlead s.size)
      exact keeps_of_sheltered (pairs_in_root h hcut)
        (hg.balanced.sheltered hroot hnamed (hg.framed _ hroot) hholds) hin
        (outside_of_first hl hg (Node.mem_preorder_of_child hroot hchild) hholds.named ht) _
    rw [hprescribed t hin.lt_size, Graph.prescribed, hexempt, Graph.anchor?, hedge]
    rfl
  · obtain ⟨hwc, hbehind⟩ := hplaced.behind h.toNested hg hw
    have hct := Node.mem_preorder_of_reaches hw hwc
    have hrange := h.range_le hct hbehind.reaches
    have hin := codeIn_of_firstOf? hl.toOrdered ht
    obtain ⟨span, -, ha, -⟩ := exists_spanOfNode? hl.toOrdered (hin.mono hrange.1 hrange.2)
    have hedge : (graph o tree s).edge t = ⟨some span.first, Width.ofLevels o.unit levels⟩ := by
      rw [graph, Graph.writeAll_append]
      refine Graph.edge_writeAll_of_keeps ?_ (edge_writes_of_placed hl h.toNested hg hplaced hw ha ht
        hlead (by simpa using hin.lt_size))
      exact keeps_of_parens hl h.toNested hct hbehind ha hin
        (outside_of_first hl hg (Node.mem_preorder_of_reaches hct hbehind.reaches) hbehind.named ht)
    refine ⟨span.first, ha, ?_⟩
    rw [hprescribed t hin.lt_size, Graph.prescribed, hexempt, Graph.anchor?, hedge]
    rfl

/-! ## Tokens of the small text -/

instance (r : Range) (i : Nat) : Decidable (s.CodeIn r i) :=
  decidable_of_iff (i < s.size ∧ s.isComment i = false ∧ r.start ≤ (s.token i).start ∧
    (s.token i).stop ≤ r.stop) ⟨fun ⟨h₁, h₂, h₃, h₄⟩ => ⟨h₁, h₂, h₃, h₄⟩,
      fun ⟨h₁, h₂, h₃, h₄⟩ => ⟨h₁, h₂, h₃, h₄⟩⟩

def sampleStream : TokenStream where
  source := sampleText
  tokens := #[
    ⟨.punctuator, bytes 0 1, ['{'], [], 1, 1, 0⟩,
    ⟨.identifier, bytes 2 1, ['a'], [], 2, 2, 0⟩,
    ⟨.punctuator, bytes 3 1, ['}'], ['a'], 2, 2, 1⟩]
  leaders := #[none, some 0, some 1, none]

theorem ofTree_sampleTree : TokenStream.ofTree sampleText sampleTree = .ok sampleStream := by
  rw [TokenStream.ofTree_of_pairwise (by decide)]
  decide +kernel

theorem grammatical_sampleTree : Grammatical sampleStream sampleTree := by
  have hpairs : Parens.pairs sampleStream = [] := by decide
  have hkinds : ∀ c ∈ sampleTree.preorder, ofPlace? c ≠ some .binary ∧ ofPlace? c ≠ some .template ∧
      ofPlace? c ≠ some .declarator := by decide
  have hbegins : ∀ c ∈ sampleTree.preorder, c.kind ≠ "program" → ∀ d ∈ c.properChildren,
      IsHeld c d → ∀ first ∈ sampleStream.firstOf? c, ∀ t < 3, sampleStream.CodeIn d.range t → first < t := by
    with_unfolding_all decide
  have hends : ∀ c ∈ sampleTree.preorder, c.kind ∈ ["statement_block", "class_body", "switch_body"] →
      ∀ d ∈ c.properChildren, IsHeld c d → ∀ last ∈ sampleStream.lastOf? c, ∀ t < 3,
        sampleStream.CodeIn d.range t → t < last := by with_unfolding_all decide
  refine ⟨inOrder_sampleTree _, fun c hc => ?_, fun c hc => ?_, fun c _ _ p hp => ?_⟩
  · obtain ⟨hbinary, htemplate, hdeclarator⟩ := hkinds c hc
    exact ⟨fun h => absurd h hbinary, fun h => absurd h htemplate, fun h => absurd h hdeclarator⟩
  · refine ⟨fun hkind d hd first hfirst t ht => ?_, fun hkind d hd last hlast t ht => ?_,
      fun d _ p hp => ?_⟩
    · exact hbegins c hc hkind d hd.1 hd.2 first hfirst t ht.lt_size ht
    · exact hends c hc hkind d hd.1 hd.2 last hlast t ht.lt_size ht
    · rw [hpairs] at hp
      cases hp
  · rw [hpairs] at hp
    cases hp

theorem exists_placed_sampleTree : ∃ d widths, Document.of sampleText sampleTree = .ok d ∧
    (graph .standard sampleTree d.stream).resolve d.stream .space = .ok widths ∧
      widths.getD 0 0 = 0 ∧ widths.getD 1 0 = 4 := by
  have hdoc : Document.of sampleText sampleTree =
      .ok ⟨sampleText, .of sampleText, sampleTree, sampleStream⟩ := by
    rw [Document.of, ofTree_sampleTree]
    rfl
  obtain ⟨d, widths, hd, hwidths, hprogram, hplaced⟩ := exists_placed fits_sampleTree
    (fun d hd => by
      rw [hdoc, Except.ok.injEq] at hd
      exact hd ▸ grammatical_sampleTree) .standard
  obtain rfl : _ = d := Except.ok.inj (hdoc.symm.trans hd)
  obtain ⟨b, hbroot, hblock, hbfirst, hblevels, e, he, hefirst⟩ :
      ∃ b ∈ (Cursor.root sampleTree).properChildren, ofPlace? b = some .block ∧
        sampleStream.firstOf? b = some 0 ∧ Body.levels .standard b.owner? = 1 ∧
          ∃ e ∈ b.properChildren, sampleStream.firstOf? e = some 1 := by
    decide +kernel
  have hb := Node.mem_preorder_of_child sampleTree.mem_preorder_self
    (mem_children_of_mem_properChildren hbroot)
  have hzero : widths.getD 0 0 = 0 :=
    hprogram rfl rfl b hbroot 0 hbfirst (by decide) (by decide +kernel)
  obtain ⟨a, ha, hwidth⟩ := hplaced b hb b e _ (.block hblock he) 1 hefirst (by decide)
    (by decide +kernel)
  obtain rfl : 0 = a := Option.some.inj (hbfirst.symm.trans ha)
  refine ⟨_, widths, hd, hwidths, hzero, ?_⟩
  rw [hwidth, hzero, hblevels]
  rfl

end IndentRule

end Indentation
