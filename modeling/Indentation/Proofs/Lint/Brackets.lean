import Indentation.Proofs.Construct.Brackets
import Indentation.Proofs.Layout.Carried
import Indentation.Proofs.Layout.Local
import Indentation.Proofs.Lint.Placed

/-!
# Closing brackets stand level with their openers

After a walk has entered the construct of a node, only places above it write to its brackets, when they
are left, and they move both brackets together.  Parentheses around one bracket are around the other
one and around what both stand level with.  The parentheses themselves are written last, each pair
after those that close behind it.
-/

namespace Indentation

open Cursor TokenStream Construct

namespace Graph

/-- Two tokens stand in alike from a token before them. -/
def Abreast (g : Graph) (first last anchor : Nat) : Prop :=
  g.edge first = g.edge last ∧ g.anchor? first = some anchor

/-- A later bracket stands level with the first one, or both with the same token. -/
def Level (g : Graph) (first last : Nat) (anchor? : Option Nat) : Prop :=
  g.edge last = ⟨some first, 0⟩ ∨ ∃ anchor, anchor? = some anchor ∧ g.Abreast first last anchor

end Graph

namespace IndentRule

variable {s : TokenStream} {tree : Node} {o : IndentOptions}

section

variable (hs : s.Lined) (hn : tree.Nested) (hg : Grammatical s tree)
include hs hn hg

/-- What a walk writes at a place is about tokens of the place. -/
theorem not_touches_of_event {e : Event} (he : e.place ∈ tree.preorder) {t : Nat}
    (hcode : s.isComment t = false) (hout : ¬s.CodeIn e.place.range t) :
    ∀ w ∈ eventWrites s o e, ¬w.Touches t := by
  intro w hw htouch
  have hP : s.Tail e.place.range (· ≠ t) := by
    rintro i j _ hi hj hlt hle rfl
    exact hout (hi.between hs.toOrdered hj (Nat.le_of_lt hlt) hle hcode)
  have hcovers := (hg.whole e.place he).covers hs.toOrdered hn he hP fun _ i hi _ heq =>
    hout (heq ▸ codeIn_of_firstOf? hs.toOrdered hi)
  exact (within_eventWrites hs hn hg.inOrder he hP hcovers rfl w hw).2 t htouch rfl

/-- Only places above a construct, and the construct itself, write about its brackets. -/
theorem not_touches_bracket {w c : Cursor} (hw : w ∈ tree.preorder)
    (hframed : Bracketed.Framed s tree w c) {t : Nat} (ht : s.CodeIn w.range t)
    (hbracket : s.firstOf? c = some t ∨ s.lastOf? c = some t) {e : Event}
    (he : e.place ∈ tree.preorder) (hnot : ¬Reaches e.place w) :
    ∀ v ∈ eventWrites s o e, ¬v.Touches t := by
  cases hk : ofPlace? e.place with
  | none =>
    intro v hv
    rw [eventWrites_eq_nil hk] at hv
    cases hv
  | some k =>
    refine not_touches_of_event hs hn hg he ht.code fun hin => ?_
    have hreach : Reaches w e.place := by
      rcases hn.reaches_or hw he (hs.start_lt_stop t ht.lt_size) ⟨ht.start_le, ht.le_stop⟩
        ⟨hin.start_le, hin.le_stop⟩ with hreach | hreach
      · exact hreach
      · exact absurd hreach hnot
    refine hframed.within e.place he hreach ?_ (by rw [hk]; rfl) t hbracket hin
    intro heq
    exact hnot (heq ▸ .refl w)

/-! ## Through a walk -/

variable {w c : Cursor} {first last : Nat} (hw : w ∈ tree.preorder)
  (hframed : Bracketed.Framed s tree w c) (hfirst : s.firstOf? c = some first)
  (hlast : s.lastOf? c = some last) (hfirstw : s.CodeIn w.range first)
  (hlastw : s.CodeIn w.range last)
include hw hframed hfirst hlast hfirstw hlastw

/-- What a walk does behind a construct leaves its brackets level. -/
theorem level_write_of_event {k : Construct} (hk : ofPlace? w = some k) (hne : k ≠ .declarator)
    {e : Event} (he : e.place ∈ tree.preorder)
    (hpost : (∃ b, e = .leave b ∧ Reaches b w) ∨ ¬Reaches e.place w) {head : Option Nat} :
    ∀ v ∈ eventWrites s o e, ∀ g : Graph, g.size = s.size → g.Level first last head →
      (g.write s o.unit v).Level first last head := by
  intro v hv g hsize hlevel
  rcases hpost with ⟨b, rfl, hbw⟩ | hnot
  · rcases hlevel with hedge | ⟨anchor, hhead, hedge, hanchor⟩
    · exact .inl (keeps_of_leave hs hn he hbw hk hne hfirstw hlastw v hv g hedge)
    · obtain ⟨hdeclarator, value, span, levels, hvalue, hspan, rfl⟩ := exists_of_mem_leave hv
      have hmem : ∀ {a t : Nat}, s.CodeIn w.range a → s.CodeIn w.range t →
          span.first ≤ t ∧ t ≤ span.last → span.first ≤ a ∧ a ≤ span.last := fun ha ht =>
        mem_span_of_leave hs hn he hbw hk hne hdeclarator hvalue hspan ha ht
      refine .inr ⟨anchor, hhead, ?_, ?_⟩
      · exact Graph.edge_shift_congr hedge ⟨hmem hlastw hfirstw, hmem hfirstw hlastw⟩
          (hsize ▸ hfirstw.lt_size) (hsize ▸ hlastw.lt_size)
      · rw [Graph.anchor?_shift, hanchor]
  · have hkeep : ∀ t, s.firstOf? c = some t ∨ s.lastOf? c = some t → s.CodeIn w.range t →
        (g.write s o.unit v).edge t = g.edge t := fun t hbracket ht =>
      Graph.edge_write_of (not_touches_bracket hs hn hg hw hframed ht hbracket he hnot v hv)
    have hkeep₁ := hkeep first (.inl hfirst) hfirstw
    have hkeep₂ := hkeep last (.inr hlast) hlastw
    refine hlevel.imp (fun hedge => by rw [hkeep₂, hedge]) fun ⟨anchor, hhead, hedge, hanchor⟩ => ?_
    exact ⟨anchor, hhead, by rw [hkeep₁, hkeep₂, hedge], by rw [Graph.anchor?, hkeep₁]; exact hanchor⟩

/-- At the end of a walk the brackets of a node are level. -/
theorem level_writes (h : Bracketed w c) (hlt : first < last) :
    ((Graph.blank s.size).writeAll s o.unit (Construct.writes s o tree)).Level first last
      (if ofPlace? c = some .block ∧ s.leads first = false then c.owner?.bind s.headOf? else none) := by
  obtain ⟨k, hk, hne⟩ := h.exists_construct
  obtain ⟨before, post, hwrites, hpost⟩ := exists_split_writes (o := o) hs hn hw hk hfirstw
  rw [hwrites, Graph.writeAll_append]
  -- the walk goes on from a graph in which the brackets are level
  generalize hhead : (if ofPlace? c = some .block ∧ s.leads first = false
    then c.owner?.bind s.headOf? else none) = head
  refine Graph.writeAll_of_write (Q := fun g => g.Level first last head) (n := s.size)
    (fun v hv g hsize hlevel => ?_) (by simp) ?_
  · obtain ⟨e, he, hv⟩ := List.mem_flatMap.1 hv
    obtain ⟨heplace, hevent⟩ := hpost e he
    exact level_write_of_event hs hn hg hw hframed hfirst hlast hfirstw hlastw hk hne heplace hevent
      v hv g hsize hlevel
  rw [Graph.writeAll_append]
  rcases h.edge_enter (o := o) (g := (Graph.blank s.size).writeAll s o.unit before) hframed hk hfirst
      hlast hlt (by simpa using hlastw.lt_size)
    with hedge | ⟨rfl, hblock, hlead, anchor, hne', howner, hedges⟩
  · exact .inl hedge
  · obtain ⟨owner, howner', hanchor⟩ := Option.bind_eq_some_iff.1 howner
    have hle := Body.headOf?_owner_le hs hn hw (fun o ho => (hg.inOrder o ho).method)
      (kind_of_ofPlace?_block hblock) howner' hanchor hfirstw
    obtain ⟨hedge₁, hedge₂⟩ := hedges (by omega)
    refine .inr ⟨anchor, ?_, hedge₁.trans hedge₂.symm, ?_⟩
    · rw [← hhead, if_pos ⟨hblock, hlead⟩, howner]
    · rw [Graph.anchor?, hedge₁]

end

/-! ## Through the parentheses -/

section

variable (hs : s.Lined) (hbalanced : Parens.Balanced s tree) {c : Cursor} (hc : c ∈ tree.preorder)
  (hnamed : c.named = true) {first last : Nat} (hfirst : s.firstOf? c = some first)
  (hlast : s.lastOf? c = some last) {p : Nat × Nat} (hp : p ∈ Parens.pairs s)
include hs hbalanced hc hnamed hfirst hlast hp

/-- A pair around the last token of a node opens before the first one. -/
theorem lt_first_of_around (hlt : p.1 < last) (hgt : last < p.2) : p.1 < first := by
  obtain ⟨hfirstin, -⟩ := (firstCodeIn?_eq_some_iff hs.toOrdered).1 hfirst
  obtain ⟨hlastin, hmax⟩ := (lastCodeIn?_eq_some_iff hs.toOrdered).1 hlast
  by_contra hge
  have hopens := hfirstin.between hs.toOrdered hlastin (Nat.le_of_not_lt hge) (Nat.le_of_lt hlt)
    (Parens.lt_of_mem_pairs hp).2.2
  have := hmax p.2 ((hbalanced c hc hnamed p hp).1 hopens)
  omega

/-- A pair around the first token of a node closes behind the last one. -/
theorem last_lt_of_around (hlt : p.1 < first) (hgt : first < p.2) : last < p.2 := by
  obtain ⟨hfirstin, hmin⟩ := (firstCodeIn?_eq_some_iff hs.toOrdered).1 hfirst
  have hlastin := codeIn_of_lastOf? hs.toOrdered hlast
  by_contra hge
  have hcloses := hfirstin.between hs.toOrdered hlastin (Nat.le_of_lt hgt) (Nat.le_of_not_lt hge)
    (Parens.isComment_of_isPunctuator (Parens.isPunctuator_of_mem_pairs hp).2)
  have := hmin p.1 ((hbalanced c hc hnamed p hp).2 hcloses)
  omega

omit hlast in
/-- No pair closes where a node begins. -/
theorem ne_first_of_mem_pairs : first ≠ p.2 := by
  rintro rfl
  obtain ⟨hfirstin, hmin⟩ := (firstCodeIn?_eq_some_iff hs.toOrdered).1 hfirst
  have := hmin p.1 ((hbalanced c hc hnamed p hp).2 hfirstin)
  have := (Parens.lt_of_mem_pairs hp).1
  omega

/-- A last token that is level with the first one stays so. -/
theorem edge_last_write_of_pair (hpair : last = p.2 → p = (first, last)) {g : Graph}
    (hsize : g.size = s.size) {unit : Nat} (hedge : g.edge last = ⟨some first, 0⟩) :
    (g.write s unit (.enclose p.1 p.2)).edge last = ⟨some first, 0⟩ := by
  obtain ⟨hlt, hsize', -⟩ := Parens.lt_of_mem_pairs hp
  by_cases hlast' : last = p.2
  · obtain ⟨rfl, rfl⟩ := Prod.ext_iff.1 (hpair hlast')
    simp only [Graph.write, Graph.enclose]
    exact Graph.edge_align (by omega) (by split <;> simp [Graph.size_foldl, hsize, hsize'])
  · rw [Graph.edge_enclose_of hlast' ?_, hedge]
    by_cases haround : p.1 < last ∧ last < p.2
    · -- the pair is around the node, so the anchor is inside it as well
      refine .inl ?_
      have := lt_first_of_around hs hbalanced hc hnamed hfirst hlast hp haround.1 haround.2
      have hle := ((lastCodeIn?_eq_some_iff hs.toOrdered).1 hlast).2 first
        (codeIn_of_firstOf? hs.toOrdered hfirst)
      rw [Graph.anchor?, hedge]
      simp only [Option.any_some, Bool.and_eq_true, decide_eq_true_eq]
      omega
    · exact .inr haround

/-- Brackets that are anchored together keep their edges where a pair around them is around their anchor,
too. -/
theorem edge_write_of_anchored {anchor : Nat} (hne : last ≠ p.2)
    (haround : p.1 < first → last < p.2 → p.1 < anchor ∧ anchor < p.2) {g : Graph} {unit t : Nat}
    (ht : t = first ∨ t = last) (hanchor : g.anchor? t = some anchor) :
    (g.write s unit (.enclose p.1 p.2)).edge t = g.edge t := by
  have hne' : first ≠ p.2 := ne_first_of_mem_pairs hs hbalanced hc hnamed hfirst hp
  refine Graph.edge_enclose_of (by rcases ht with rfl | rfl <;> assumption) ?_
  by_cases hin : p.1 < t ∧ t < p.2
  · refine .inl ?_
    have hbetween : p.1 < anchor ∧ anchor < p.2 := by
      rcases ht with rfl | rfl
      · exact haround hin.1 (last_lt_of_around hs hbalanced hc hnamed hfirst hlast hp hin.1 hin.2)
      · exact haround (lt_first_of_around hs hbalanced hc hnamed hfirst hlast hp hin.1 hin.2) hin.2
    rw [hanchor]
    simpa using hbetween
  · exact .inr hin

/-- A pair leaves the brackets of a node level, and keeps what both stand level with. -/
theorem level_write_of_pair {head : Option Nat} (hbehind : ∀ anchor, head = some anchor →
      last ≠ p.2 ∧ (p.1 < first → last < p.2 → p.1 < anchor ∧ anchor < p.2))
    (hpair : last = p.2 → p = (first, last)) {g : Graph} (hsize : g.size = s.size) {unit : Nat}
    (hlevel : g.Level first last head) :
    (g.write s unit (.enclose p.1 p.2)).Level first last head := by
  rcases hlevel with hedge | ⟨anchor, hhead, hedge, hanchor⟩
  · exact .inl (edge_last_write_of_pair hs hbalanced hc hnamed hfirst hlast hp hpair hsize hedge)
  · obtain ⟨hne, haround⟩ := hbehind anchor hhead
    have hfirst' : (g.write s unit (.enclose p.1 p.2)).edge first = g.edge first :=
      edge_write_of_anchored hs hbalanced hc hnamed hfirst hlast hp hne haround (.inl rfl) hanchor
    have hlast' : (g.write s unit (.enclose p.1 p.2)).edge last = g.edge last :=
      edge_write_of_anchored hs hbalanced hc hnamed hfirst hlast hp hne haround (.inr rfl)
        (by rw [Graph.anchor?, ← hedge]; exact hanchor)
    exact .inr ⟨anchor, hhead, by rw [hfirst', hlast', hedge], by rw [Graph.anchor?, hfirst']; exact hanchor⟩

end

section

variable (hs : s.Lined) (hn : tree.Nested) (hg : Grammatical s tree) {w c : Cursor}
  (hw : w ∈ tree.preorder) (h : Bracketed w c) (hframed : Bracketed.Framed s tree w c)
  {first last : Nat} (hfirst : s.firstOf? c = some first) (hlast : s.lastOf? c = some last)
include hs hn hg hw h hframed hfirst hlast

/-- The head of the owner of a block is in all parentheses around the block. -/
theorem between_of_owner {anchor : Nat} (hblock : ofPlace? c = some .block)
    (hanchor : c.owner?.bind s.headOf? = some anchor) {p : Nat × Nat} (hp : p ∈ Parens.pairs s)
    (hlt : p.1 < first) (hgt : last < p.2) : p.1 < anchor ∧ anchor < p.2 := by
  have hct := Node.mem_preorder_of_reaches hw h.reaches
  obtain ⟨hfirstin, hmin⟩ := (firstCodeIn?_eq_some_iff hs.toOrdered).1 hfirst
  have hfl := hmin last (codeIn_of_lastOf? hs.toOrdered hlast)
  obtain ⟨owner, howner, hhead⟩ := Option.bind_eq_some_iff.1 hanchor
  obtain ⟨hownert, d, hd, hdc, -⟩ := exists_child_of_owner? hct howner
  have hrange := hn.range_le hownert ((Reaches.child hd).trans hdc)
  have hle := Body.headOf?_owner_le hs hn hct (fun o ho => (hg.inOrder o ho).method)
    (kind_of_ofPlace?_block hblock) howner hhead hfirstin
  refine ⟨?_, by omega⟩
  by_contra hge
  have hopens := (Callable.codeIn_of_headOf? hs hn hownert hhead).between hs.toOrdered
    (hfirstin.mono hrange.1 hrange.2) (Nat.le_of_not_lt hge) (Nat.le_of_lt hlt)
    (Parens.lt_of_mem_pairs hp).2.2
  have := hmin p.1 (hframed.sheltered hblock owner howner p hp hopens first hfirstin hlt (by omega))
  omega

/-- In the graph of a tree the brackets of a node are level. -/
theorem level_graph (hlt : first < last)
    (hpair : ∀ p ∈ Parens.pairs s, last = p.2 → c.kind = "arguments" ∧ p = (first, last)) :
    (graph o tree s).Level first last
      (if ofPlace? c = some .block ∧ s.leads first = false then c.owner?.bind s.headOf? else none) := by
  have hct := Node.mem_preorder_of_reaches hw h.reaches
  have hrange := hn.range_le hw h.reaches
  have hfirstw := (codeIn_of_firstOf? hs.toOrdered hfirst).mono hrange.1 hrange.2
  have hlastw := (codeIn_of_lastOf? hs.toOrdered hlast).mono hrange.1 hrange.2
  rw [graph, Graph.writeAll_append]
  refine Graph.writeAll_of_write (Q := fun g => g.Level first last _) (n := s.size)
    (fun v hv g hsize hlevel => ?_) (by simp)
    (level_writes hs hn hg hw hframed hfirst hlast hfirstw hlastw h hlt)
  obtain ⟨p, hp, rfl⟩ := List.mem_map.1 hv
  refine level_write_of_pair hs hg.balanced hct h.named hfirst hlast hp (fun anchor hhead => ?_)
    (fun heq => (hpair p hp heq).2) hsize hlevel
  split at hhead
  · next hblock =>
    refine ⟨fun heq => ?_, between_of_owner hs hn hg hw h hframed hfirst hlast hblock.1 hhead hp⟩
    have hkind := kind_of_ofPlace?_block hblock.1
    rw [(hpair p hp heq).1] at hkind
    exact absurd hkind (by decide)
  · cases hhead

end

/-! ## The widths of brackets -/

/-- Whatever stands level in a graph gets one width, if the second bracket may not stand where it is
and the first one may only if it leads its line. -/
theorem width_eq_of_level {g : Graph} {first last : Nat} {head : Option Nat} {widths : Array Nat}
    {char : IndentChar} (hlevel : g.Level first last head) (hexempt : g.isExempt last = false)
    (hexempt' : head ≠ none → g.isExempt first = false)
    (hfirst : widths.getD first 0 = g.prescribed s char (fun a => widths.getD a 0) first)
    (hlast : widths.getD last 0 = g.prescribed s char (fun a => widths.getD a 0) last)
    (hle : widths.getD first 0 ≤ widthLimit) : widths.getD last 0 = widths.getD first 0 := by
  rcases hlevel with hedge | ⟨anchor, hhead, hedge, -⟩
  · rw [hlast, Graph.prescribed_of_edge hexempt hedge]
    exact Width.add_zero hle
  · have hopen := hexempt' (by simp [hhead])
    rw [hlast, hfirst]
    exact Graph.prescribed_congr hexempt hopen hedge.symm

/-- Only tokens that the places of a tree let stand where they are may stand there. -/
theorem of_isExempt_graph {P : Nat → Prop} (hs : s.Lined) (hn : tree.Nested)
    (hloose : ∀ t, s.isLoose t = true → P t) (hp : ∀ c ∈ tree.preorder, Spares s P c) {t : Nat}
    (ht : (graph o tree s).isExempt t = true) : P t := by
  rw [graph] at ht
  rcases Graph.isExempt_writeAll ht with hblank | ⟨hmem, -⟩
  · rw [Graph.not_isExempt_blank] at hblank
    cases hblank
  · rcases List.mem_append.1 hmem with hmem | hmem
    · obtain ⟨e, he, hmem⟩ := List.mem_flatMap.1 hmem
      have hplace : e.place ∈ tree.preorder :=
        Node.mem_preorder_iff.2 (reaches_of_mem_events he)
      exact marks_eventWrites hs hn hloose hp hplace rfl _ hmem
    · obtain ⟨p, -, hp⟩ := List.mem_map.1 hmem
      cases hp

/-- No closing bracket may stand where it is. -/
theorem not_isExempt_of_isCloser (hs : s.Lined) (hn : tree.Nested)
    (hp : ∀ c ∈ tree.preorder, Punctuated s c) {t : Nat} (ht : s.isCloser t = true) :
    (graph o tree s).isExempt t = false := by
  by_contra hexempt
  have hclear : s.isCloser t = false := of_isExempt_graph hs hn (fun t => isCloser_of_isLoose)
    (fun c hc => spares_of_punctuated hp hc) (by simpa using hexempt)
  rw [hclear] at ht
  cases ht

/-- Closing brackets stand level with their openers, whatever is around them or in them.  The last
token of an array, an object, a pattern, a block, a class, a list of names that a module hands out or
takes in, or of the arguments of a call is put where the first one is put, and so is every second
parenthesis. -/
theorem exists_closed {source : Text} (h : tree.Fits source) (hsmall : Text.size source ≤ Offset.limit)
    (hg : ∀ d, Document.of source tree = .ok d → Grammatical d.stream tree)
    (hclosed : ∀ d, Document.of source tree = .ok d → Construct.Closed d.stream tree)
    (o : IndentOptions) :
    ∃ d widths, Document.of source tree = .ok d ∧
      (graph o tree d.stream).resolve d.stream o.indentChar = .ok widths ∧
      (∀ w ∈ tree.preorder, ∀ c, Bracketed w c →
        ∃ first last, d.stream.firstOf? c = some first ∧ d.stream.lastOf? c = some last ∧
          first < last ∧ widths.getD last 0 = widths.getD first 0) ∧
      ∀ p ∈ Parens.pairs d.stream, widths.getD p.2 0 = widths.getD p.1 0 := by
  obtain ⟨s, hs, hcut, hl⟩ := h.exists_ofTree
  have hdoc : Document.of source tree = .ok ⟨source, .of source, tree, s⟩ := by
    rw [Document.of, hs]
    rfl
  have hg := hg _ hdoc
  have hclosed := hclosed _ hdoc
  obtain ⟨widths, hwidths, hprescribed, hle⟩ :=
    exists_widths_le hl h.toNested hg.inOrder hcut hsmall o
  have hexempt : ∀ t, s.isCloser t = true → (graph o tree s).isExempt t = false := fun t ht =>
    not_isExempt_of_isCloser hl h.toNested hclosed.punctuated ht
  refine ⟨_, widths, hdoc, hwidths, fun w hw c hwc => ?_, fun p hp => ?_⟩
  · have hframed := hclosed.framed w hw c hwc
    obtain ⟨first, last, hfirst, hlast, hlt, hbracket⟩ := hframed.brackets
    have hlastsize := (codeIn_of_lastOf? hl.toOrdered hlast).lt_size
    have hcloser : s.isCloser last = true := by
      rcases hbracket with hbracket | hbracket | ⟨-, hbracket⟩
      · simp [isCloser, hbracket]
      · simp [isCloser, hbracket]
      · simp [isCloser, (Parens.isPunctuator_of_mem_pairs hbracket).2]
    have hpair : ∀ p ∈ Parens.pairs s, last = p.2 → c.kind = "arguments" ∧ p = (first, last) := by
      intro p hp heq
      have hparen := (Parens.isPunctuator_of_mem_pairs hp).2
      rw [← heq] at hparen
      rcases hbracket with hbracket | hbracket | ⟨hkind, hbracket⟩
      · rw [isPunctuator_eq_false hparen (by decide)] at hbracket
        cases hbracket
      · rw [isPunctuator_eq_false hparen (by decide)] at hbracket
        cases hbracket
      · exact ⟨hkind, Parens.eq_of_mem_pairs hp hbracket heq.symm⟩
    refine ⟨first, last, hfirst, hlast, hlt, width_eq_of_level
      (level_graph hl h.toNested hg hw hwc hframed hfirst hlast hlt hpair) (hexempt last hcloser)
      (fun hhead => ?_) (hprescribed first (by omega)) (hprescribed last hlastsize)
      (hle first (by omega))⟩
    split at hhead
    · next hblock =>
      by_contra hfree
      have := exemptLeads_graph o tree s first (by simpa using hfree)
      rw [hblock.2] at this
      cases this
    · exact absurd rfl hhead
  · obtain ⟨hlt, hsize, -⟩ := Parens.lt_of_mem_pairs hp
    have hedge : (graph o tree s).edge p.2 = ⟨some p.1, 0⟩ := by
      rw [graph, Graph.writeAll_append]
      exact Parens.edge_writes_of_mem hp (by simp)
    have hcloser : s.isCloser p.2 = true := by
      simp [isCloser, (Parens.isPunctuator_of_mem_pairs hp).2]
    have hlevel : (graph o tree s).Level p.1 p.2 none := .inl hedge
    have hsize : p.2 < s.size := hsize
    exact width_eq_of_level hlevel (hexempt p.2 hcloser) (fun hne => absurd rfl hne)
      (hprescribed p.1 (by omega)) (hprescribed p.2 hsize) (hle p.1 (by omega))

/-- What alone in a list has a property is determined by it. -/
theorem eq_of_length_filter {α : Type} {xs : List α} {p : α → Bool} (h : (xs.filter p).length = 1)
    {a b : α} (ha : a ∈ xs) (hpa : p a = true) (hb : b ∈ xs) (hpb : p b = true) : a = b := by
  obtain ⟨x, hx⟩ := List.length_eq_one_iff.1 h
  have heq : ∀ y ∈ xs, p y = true → y = x := fun y hy hpy =>
    List.mem_singleton.1 (hx ▸ List.mem_filter.2 ⟨hy, hpy⟩)
  exact (heq a ha hpa).trans (heq b hb hpb).symm

theorem closed_sampleTree : Construct.Closed sampleStream sampleTree := by
  have hkinds : ∀ c ∈ sampleTree.preorder, ofPlace? c = none ∨ ofPlace? c = some .block := by
    decide
  have hkind : ∀ c ∈ sampleTree.preorder, ∀ k, ofPlace? c = some k → k = .block := by
    intro c hc k hk
    rcases hkinds c hc with hnone | hblock
    · rw [hnone] at hk
      cases hk
    · exact Option.some.inj (hk.symm.trans hblock)
  have hnames : ∀ c ∈ sampleTree.preorder, c.named = true →
      (∀ t ∈ sampleStream.firstOf? c, sampleStream.isCloser t = false) ∧
        ∀ t ∈ sampleStream.lastOf? c, sampleStream.isPunctuator t ['('] = false := by
    with_unfolding_all decide
  have hfields : ∀ c ∈ sampleTree.preorder,
      c.fieldChild? "parameter" = none ∧ c.fieldChild? "value" = none := by
    decide
  have hblocks : ∀ c ∈ sampleTree.preorder, ofPlace? c = some .block →
      sampleStream.firstOf? c = some 0 ∧ sampleStream.lastOf? c = some 2 ∧ c.kind ≠ "arguments" ∧
        c.properChildren.length ≤ 1 ∧ ∀ d ∈ c.properChildren, d.properChildren.length ≤ 1 := by
    with_unfolding_all decide
  have halone : (sampleTree.preorder.filter fun c => (ofPlace? c).isSome).length = 1 := by
    decide
  refine ⟨fun c hc => ?_, fun w hw c hwc => ?_⟩
  · have hother : ∀ {k}, k ≠ .block → ofPlace? c ≠ some k := fun hne hk => hne (hkind c hc _ hk)
    obtain ⟨hparameter, hvalue⟩ := hfields c hc
    exact {
      begins := fun hnamed => (hnames c hc hnamed).1
      ends := fun hnamed => (hnames c hc hnamed).2
      element := fun h => by rcases h with h | h <;> exact absurd h (hother nofun)
      part := fun d hd => by simp [hparameter, hvalue] at hd
      operator := fun h => absurd h (hother nofun)
      assignment := fun h => absurd h (hother nofun)
      value := fun h => absurd h (hother nofun)
      access := fun h => absurd h (hother nofun) }
  · obtain ⟨k, hk, -⟩ := hwc.exists_construct
    obtain rfl := hkind w hw k hk
    obtain ⟨hfirst, hlast, hnot, hlength, hlengths⟩ := hblocks w hw hk
    have hone : ∀ {d : Cursor} (kind : String), d.properChildren.length ≤ 1 →
        (Sequence.properOfKind d kind).length ≤ 1 := fun kind hle =>
      Nat.le_trans (List.length_filter_le _ _) hle
    cases hwc with
    | block hc =>
      exact {
        brackets := ⟨0, 2, hfirst, hlast, by decide, .inr (.inl (by decide))⟩
        within := fun d hd _ hne hsome =>
          absurd (eq_of_length_filter halone hd hsome hw (by rw [hk]; rfl)) hne
        arguments := fun h => absurd h hnot
        clauses := ⟨hone _ hlength, hone _ hlength, fun clause hclause =>
          hone _ (hlengths clause (Bracketed.mem_properChildren_of_mem_properOfKind hclause))⟩
        sheltered := fun _ o _ p hp => by
          have hpairs : Parens.pairs sampleStream = [] := by decide
          rw [hpairs] at hp
          cases hp }
    | literal hc => rcases hc with hc | hc | hc <;> cases hk.symm.trans hc
    | arguments hc => rcases hc with hc | hc <;> cases hk.symm.trans hc
    | classBody hc => cases hk.symm.trans hc
    | exports hc => cases hk.symm.trans hc
    | imports hc => cases hk.symm.trans hc

/-- The brace that closes a block stands where the one that opens it does. -/
theorem exists_closed_sampleTree : ∃ d widths, Document.of sampleText sampleTree = .ok d ∧
    (graph .standard sampleTree d.stream).resolve d.stream .space = .ok widths ∧
      widths.getD 2 0 = widths.getD 0 0 := by
  have hdoc : Document.of sampleText sampleTree =
      .ok ⟨sampleText, .of sampleText, sampleTree, sampleStream⟩ := by
    rw [Document.of, ofTree_sampleTree]
    rfl
  obtain ⟨d, widths, hd, hwidths, hbrackets, -⟩ := exists_closed fits_sampleTree (by decide)
    (fun d hd => by
      rw [hdoc, Except.ok.injEq] at hd
      exact hd ▸ grammatical_sampleTree)
    (fun d hd => by
      rw [hdoc, Except.ok.injEq] at hd
      exact hd ▸ closed_sampleTree) .standard
  obtain rfl : _ = d := Except.ok.inj (hdoc.symm.trans hd)
  obtain ⟨b, hb, hblock, hfirst, hlast⟩ : ∃ b ∈ sampleTree.preorder, ofPlace? b = some .block ∧
      sampleStream.firstOf? b = some 0 ∧ sampleStream.lastOf? b = some 2 := by
    decide +kernel
  obtain ⟨first, last, hfirst', hlast', -, hwidth⟩ := hbrackets b hb b (.block hblock)
  obtain rfl := Option.some.inj (hfirst.symm.trans hfirst')
  obtain rfl := Option.some.inj (hlast.symm.trans hlast')
  exact ⟨_, widths, hdoc, hwidths, hwidth⟩

end IndentRule

end Indentation
