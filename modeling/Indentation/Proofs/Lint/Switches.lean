import Indentation.Proofs.Lint.Aligned

/-!
# Where the braces of a switch stand

A switch writes about what is between its braces and about neither of them.  Both are put in by the
container of the switch, each from the token that the container begins with, and a token that stands on
the line of that one is not put in at all.  So the braces stand level, unless the first one is on the
line that its container is measured from: then the second one stands as far in as the container asks
for.
-/

namespace Indentation

open Cursor TokenStream Construct

namespace Cursor

/-- Labels and `with` headers before a statement. -/
inductive Wraps : Cursor → Cursor → Prop
  | refl (d : Cursor) : Wraps d d
  | step {c d e : Cursor} (hkind : c.kind = "labeled_statement" ∨ c.kind = "with_statement")
    (hd : c.Holds d) (h : Wraps d e) : Wraps c e

namespace Wraps

variable {s : TokenStream} {tree : Node} {b c d w : Cursor}

theorem reaches (h : Wraps d w) : Reaches d w := by
  induction h with
  | refl => exact .refl _
  | step _ hd _ ih => exact (Reaches.child hd.mem_children).trans ih

/-- No case is before a switch. -/
theorem kind_ne (h : Wraps d w) (hw : ofPlace? w = some .switch) :
    d.kind ≠ "switch_case" ∧ d.kind ≠ "switch_default" := by
  cases h with
  | refl =>
    constructor <;> intro hkind <;> rw [ofPlace?, hkind] at hw <;> split at hw <;> cases hw
  | step hkind => rcases hkind with hkind | hkind <;> rw [hkind] <;> decide

theorem adjoins (h : Wraps d w) (hb : Adjoins b d) : Adjoins b w := by
  induction h with
  | refl => exact hb
  | @step c d e hkind hd _ ih =>
    refine ih (hb.child ?_ hd.mem_children)
    rw [ofPlace?]
    split
    · rcases hkind with hkind | hkind <;> rw [hkind] <;> rfl
    · rfl

theorem behind (h : Wraps d w) (hn : tree.Nested) (hg : Grammatical s tree) (hd : d ∈ tree.preorder)
    (hc : Behind s c d) : Behind s c w := by
  induction h with
  | refl => exact hc
  | @step d e w hkind he _ ih =>
    refine ih (Node.mem_preorder_of_child hd he.mem_children)
      (hc.trans hn hd (behind_of_holds hg hd hc.named (fun hprogram => ?_) he))
    rw [hprogram] at hkind
    exact absurd hkind (by decide)

theorem sheltered (h : Wraps d w) (hn : tree.Nested) (hg : Grammatical s tree)
    (hd : d ∈ tree.preorder) (hnamed : d.named = true) (hc : Parens.Sheltered s c d) :
    w ∈ tree.preorder ∧ w.named = true ∧ Parens.Sheltered s c w := by
  induction h with
  | refl => exact ⟨hd, hnamed, hc⟩
  | @step d e w _ he _ ih =>
    have hrange := hn.range_le hd (.child he.mem_children)
    exact ih (Node.mem_preorder_of_child hd he.mem_children) he.named
      (hc.trans (hg.balanced.sheltered hd hnamed (hg.framed d hd) he) fun t ht =>
        ht.mono hrange.1 hrange.2)

end Wraps

end Cursor

namespace Body

/-- The body of a switch, which is between braces. -/
structure SwitchBody (s : TokenStream) (tree : Node) (w body : Cursor) : Prop where
  field : w.fieldChild? "body" = some body
  proper : body ∈ w.properChildren
  framed : Bracketed.Framed s tree w body
  opens : ∀ first, s.firstOf? body = some first → s.isPunctuator first ['{'] = true
  closes : ∀ last, s.lastOf? body = some last → s.isPunctuator last ['}'] = true

/-- A token that opens or closes the body of a switch. -/
def IsSwitchBrace (s : TokenStream) (tree : Node) (t : Nat) : Prop :=
  ∃ w ∈ tree.preorder, ofPlace? w = some .switch ∧ ∃ body, w.fieldChild? "body" = some body ∧
    (s.firstOf? body = some t ∨ s.lastOf? body = some t)

/-- A switch writes about neither of its braces. -/
theorem not_touches_switchWrites {s : TokenStream} {o : IndentOptions} {w body : Cursor}
    (hbody : w.fieldChild? "body" = some body) {t : Nat}
    (ht : s.firstOf? body = some t ∨ s.lastOf? body = some t) :
    ∀ v ∈ switchWrites s o w, ¬v.Touches t := by
  intro v hv htouch
  cases hspan : s.spanOfNode? body with
  | none =>
    simp only [switchWrites, hbody, hspan, Option.bind_eq_bind, Option.bind_some, Option.bind_none,
      Option.getD_none, List.not_mem_nil] at hv
  | some span =>
    obtain ⟨hfirst, hlast, -⟩ := spanOf?_eq_some_iff.1 hspan
    have hinterior : t ∈ span.interior := by
      rw [switchWrites_eq_append o hbody hspan] at hv
      rcases List.mem_append.1 hv with hv | hv
      · exact mem_of_touches_indentAll hv htouch
      · exact (mem_of_touches_caseWrites hv htouch).1
    obtain ⟨hlt, hgt⟩ := Span.mem_interior.1 hinterior
    rcases ht with ht | ht
    · have := Option.some.inj (hfirst.symm.trans ht)
      omega
    · have := Option.some.inj (hlast.symm.trans ht)
      omega

end Body

/-- A switch stands in the program itself or where a container puts it, maybe behind labels. -/
inductive Construct.Housed (o : IndentOptions) (tree : Node) (w : Cursor) : Prop
  | program {d : Cursor} (hkind : tree.kind = "program") (hnamed : tree.named = true)
    (hd : d ∈ (Cursor.root tree).properChildren) (hwraps : Wraps d w) : Housed o tree w
  | placed {b c d : Cursor} {n : Nat} (hb : b ∈ tree.preorder) (hplaced : Placed o b c d n)
    (hwraps : Wraps d w) : Housed o tree w

/-- A tree whose switches stand where the grammar puts them.  Nothing that a construct lets stand where
it is begins with a brace of a switch. -/
structure Construct.Switched (s : TokenStream) (o : IndentOptions) (tree : Node) : Prop where
  spares : ∀ c ∈ tree.preorder, Spares s (fun t => ¬Body.IsSwitchBrace s tree t) c
  body : ∀ w ∈ tree.preorder, ofPlace? w = some .switch → ∃ body, Body.SwitchBody s tree w body
  housed : ∀ w ∈ tree.preorder, ofPlace? w = some .switch → Housed o tree w

/-- A token of a switch is on the line of the token from which the container of the switch puts it in
by so many levels. -/
def Construct.Abuts (s : TokenStream) (o : IndentOptions) (tree : Node) (w : Cursor) (t n : Nat) : Prop :=
  ∃ b ∈ tree.preorder, ∃ c d a, Placed o b c d n ∧ Wraps d w ∧ s.firstOf? c = some a ∧
    s.sameStartLine t a = true

namespace IndentRule

open Body

variable {s : TokenStream} {tree : Node} {o : IndentOptions}

section

variable (hs : s.Lined) (hn : tree.Nested) (hg : Grammatical s tree) {w body : Cursor}
  (hw : w ∈ tree.preorder) (hk : ofPlace? w = some .switch) (hbody : SwitchBody s tree w body)
  {t : Nat} (ht : s.firstOf? body = some t ∨ s.lastOf? body = some t)
include hs hn hw hbody ht

omit hn hw hbody in
theorem codeIn_of_brace : s.CodeIn body.range t :=
  ht.elim (codeIn_of_firstOf? hs.toOrdered) (codeIn_of_lastOf? hs.toOrdered)

theorem codeIn_switch_of_brace : s.CodeIn w.range t :=
  have hrange := hn.range_le hw (.child (mem_children_of_mem_properChildren hbody.proper))
  (codeIn_of_brace hs ht).mono hrange.1 hrange.2

include hg hk

/-- Only a construct above a switch writes about a brace of it. -/
theorem not_touches_brace {e : Event} (he : e.place ∈ tree.preorder)
    (hnone : Reaches e.place w → e.place = w ∨ ofPlace? e.place = none) :
    ∀ v ∈ eventWrites s o e, ¬v.Touches t := by
  by_cases hreach : Reaches e.place w
  · rcases hnone hreach with heq | hnone
    · cases e with
      | enter c =>
        obtain rfl : c = w := heq
        simp only [eventWrites, hk, Option.map_some, Option.getD_some, enter]
        exact not_touches_switchWrites hbody.field ht
      | leave c =>
        obtain rfl : c = w := heq
        simp [eventWrites, hk, leave]
    · simp [eventWrites_eq_nil hnone]
  · exact not_touches_bracket hs hn hg hw hbody.framed (codeIn_switch_of_brace hs hn hw hbody ht) ht
      he hreach

omit hn hk in
/-- No parentheses that open in the body of a switch are around a brace of it. -/
theorem outside_of_brace : Parens.Outside s body t := by
  have hbodyt := Node.mem_preorder_of_child hw (mem_children_of_mem_properChildren hbody.proper)
  have hnamed := Sequence.named_of_mem_properChildren hbody.proper
  rcases ht with hfirst | hlast
  · exact outside_of_first hs hg hbodyt hnamed hfirst
  · intro p hp hlt
    refine ⟨fun heq => ?_, fun hgt hopens => ?_⟩
    · have hparen := (Parens.isPunctuator_of_mem_pairs hp).2
      rw [← heq, isPunctuator_eq_false (hbody.closes t hlast) (by decide)] at hparen
      cases hparen
    · obtain ⟨first, hfirst, hle⟩ := firstCodeIn?_isSome hs.toOrdered hopens
      have := lt_first_of_around hs hg.balanced hbodyt hnamed hfirst hlast hp hlt hgt
      omega

omit hs ht in
/-- The body of a switch is behind the token that the switch is put in from. -/
theorem behind_body {b c d : Cursor} {n : Nat} (h : Placed o b c d n) (hb : b ∈ tree.preorder)
    (hwraps : Wraps d w) : Reaches b c ∧ d ∈ tree.preorder ∧ Behind s c body := by
  obtain ⟨hbc, hbehind⟩ := h.behind hn hg hb
  have hdt := Node.mem_preorder_of_reaches (Node.mem_preorder_of_reaches hb hbc) hbehind.reaches
  obtain ⟨hnamed, hprogram⟩ := named_of_ofPlace? hk
  have hholds := holds_of_fieldChild? hbody.field hbody.proper (by simp)
  exact ⟨hbc, hdt, (hwraps.behind hn hg hdt hbehind).trans hn hw
    (behind_of_holds hg hw hnamed hprogram hholds)⟩

/-- At the end of a walk a brace of a switch stands where the container of the switch puts it. -/
theorem edge_writes_of_container {b c d : Cursor} {n a : Nat} (h : Placed o b c d n)
    (hb : b ∈ tree.preorder) (hwraps : Wraps d w) (ha : s.firstOf? c = some a) {g : Graph}
    (hsize : t < g.size) :
    (g.writeAll s o.unit (Construct.writes s o tree)).edge t = Graph.inset s o.unit t a n := by
  obtain ⟨k, hbk, hne⟩ := h.exists_construct
  obtain ⟨hbc, hdt, -⟩ := behind_body hn hg hw hk hbody h hb hwraps
  have hadjoins := hwraps.adjoins h.adjoins
  have hbw := hn.range_le hb hadjoins.1
  have hbrange := hn.range_le hb hbc
  have hdrange := hn.range_le hdt hwraps.reaches
  have hin := codeIn_switch_of_brace hs hn hw hbody ht
  have htin := hin.mono hbw.1 hbw.2
  have hain := (codeIn_of_firstOf? hs.toOrdered ha).mono hbrange.1 hbrange.2
  obtain ⟨before, post, hwrites, hpost⟩ := exists_split_writes (o := o) hs hn hb hbk htin
  rw [hwrites, Graph.writeAll_append]
  refine Graph.edge_writeAll_of_keeps (fun v hv => ?_) ?_
  · obtain ⟨e, he, hv⟩ := List.mem_flatMap.1 hv
    obtain ⟨heplace, ⟨l, rfl, hlb⟩ | hnot⟩ := hpost e he
    · exact keeps_of_leave hs hn heplace hlb hbk hne hain htin v hv
    · refine fun g hedge => (Graph.edge_write_of ?_).trans hedge
      refine not_touches_brace hs hn hg hw hk hbody ht heplace (fun hreach => ?_) v hv
      by_cases heq : e.place = w
      · exact .inl heq
      · exact .inr ((hadjoins.2 e.place hreach heq).resolve_left hnot)
  · rw [Graph.writeAll_append]
    exact h.edge_enter hs hn hg hb ha (hin.mono hdrange.1 hdrange.2) (.inr (hwraps.kind_ne hk)) hbk
      (by simpa using hsize)

/-- In the graph of a tree a brace of a switch stands where the container of the switch puts it. -/
theorem edge_graph_of_container {b c d : Cursor} {n a : Nat} (h : Placed o b c d n)
    (hb : b ∈ tree.preorder) (hwraps : Wraps d w) (ha : s.firstOf? c = some a) :
    (graph o tree s).edge t = Graph.inset s o.unit t a n := by
  obtain ⟨hbc, -, hbehind⟩ := behind_body hn hg hw hk hbody h hb hwraps
  have hin := codeIn_of_brace hs ht
  rw [graph, Graph.writeAll_append]
  refine Graph.edge_writeAll_of_keeps ?_ (edge_writes_of_container hs hn hg hw hk hbody ht h hb hwraps
    ha (by simpa using hin.lt_size))
  exact keeps_of_parens hs hn (Node.mem_preorder_of_reaches hb hbc) hbehind ha hin
    (outside_of_brace hs hg hw hbody ht)

/-- The braces of a switch that is a statement of the program are not put in at all. -/
theorem edge_graph_of_program {source : Text} (h : tree.Fits source)
    (hcut : s.CutFrom source tree.pieces) (hkind : tree.kind = "program") (hnamed : tree.named = true)
    {d : Cursor} (hd : d ∈ (Cursor.root tree).properChildren) (hwraps : Wraps d w) :
    (graph o tree s).edge t = .margin := by
  have hroot := tree.mem_preorder_self
  have hholds : (Cursor.root tree).Holds d :=
    ⟨hd, .inl (by simp [show (Cursor.root tree).kind = "program" from hkind])⟩
  have hbodyHolds : w.Holds body := holds_of_fieldChild? hbody.field hbody.proper (by simp)
  obtain ⟨-, hwnamed, hsheltered⟩ := hwraps.sheltered hn hg
    (Node.mem_preorder_of_child hroot hholds.mem_children) hholds.named
    (hg.balanced.sheltered hroot hnamed (hg.framed _ hroot) hholds)
  have hrange := hn.range_le hw (.child hbodyHolds.mem_children)
  have hadjoins := hwraps.adjoins (adjoins_child hholds.mem_children)
  rw [graph, Graph.writeAll_append]
  refine Graph.edge_writeAll_of_keeps (keeps_of_sheltered (d := body) (pairs_in_root h hcut)
    (hsheltered.trans (hg.balanced.sheltered hw hwnamed (hg.framed w hw) hbodyHolds)
      fun t ht => ht.mono hrange.1 hrange.2)
    (codeIn_of_brace hs ht) (outside_of_brace hs hg hw hbody ht) _) ?_
  rw [Graph.edge_writeAll_of fun v hv => ?_, Graph.edge_blank]
  obtain ⟨e, he, hv⟩ := List.mem_flatMap.1 hv
  rw [Node.events_eq] at he
  have heplace := reaches_of_mem_events he
  refine not_touches_brace hs hn hg hw hk hbody ht (Node.mem_preorder_iff.2 heplace)
    (fun hreach => ?_) v hv
  by_cases heq : e.place = w
  · exact .inl heq
  · refine .inr ((hadjoins.2 e.place hreach heq).elim (fun hup => ?_) id)
    rw [← heplace.antisymm hup, ofPlace?, show (Cursor.root tree).kind = "program" from hkind]
    split <;> rfl

end

/-- No brace of a switch may stand where it is. -/
theorem not_isExempt_of_isSwitchBrace (hs : s.Lined) (hn : tree.Nested) (h : Switched s o tree) {t : Nat}
    (ht : IsSwitchBrace s tree t) : (graph o tree s).isExempt t = false := by
  by_contra hexempt
  refine of_isExempt_graph hs hn (fun i hi => ?_) h.spares (by simpa using hexempt) ht
  rintro ⟨w, hw, hk, body, hbody, hbrace⟩
  obtain ⟨body', hbody'⟩ := h.body w hw hk
  obtain rfl := Option.some.inj (hbody.symm.trans hbody'.field)
  rcases hbrace with hfirst | hlast
  · have hopens := hbody'.opens i hfirst
    rw [isPunctuator_of_isLoose hi (by decide)] at hopens
    cases hopens
  · have hcloses := hbody'.closes i hlast
    rw [isPunctuator_of_isLoose hi (by decide)] at hcloses
    cases hcloses

section

variable (hs : s.Lined) (hn : tree.Nested) (hg : Grammatical s tree) {w body : Cursor}
  (hw : w ∈ tree.preorder) (hk : ofPlace? w = some .switch) (hbody : SwitchBody s tree w body)
  {first last : Nat} (hfirst : s.firstOf? body = some first) (hlast : s.lastOf? body = some last)
  (hlead : s.leads last = true)
include hs hn hg hw hk hbody hfirst hlast hlead

omit hfirst in
/-- A closing brace that comes first on its line is put in by all levels of the container. -/
theorem edge_last_of_container {b c d : Cursor} {n a : Nat} (h : Placed o b c d n)
    (hb : b ∈ tree.preorder) (hwraps : Wraps d w) (ha : s.firstOf? c = some a) :
    (graph o tree s).edge last = ⟨some a, Width.ofLevels o.unit n⟩ := by
  obtain ⟨-, -, hbehind⟩ := behind_body hn hg hw hk hbody h hb hwraps
  have hin := codeIn_of_lastOf? hs.toOrdered hlast
  rw [edge_graph_of_container hs hn hg hw hk hbody (.inr hlast) h hb hwraps ha,
    Graph.inset_of_other_line (hs.sameStartLine_eq_false hin.lt_size hlead (hbehind.begins a ha last hin))]

/-- The braces of a switch stand alike unless the first one is on the line that it is put in from. -/
theorem edge_first_eq {source : Text} (h : tree.Fits source) (hcut : s.CutFrom source tree.pieces)
    (hhoused : Housed o tree w) (habuts : ∀ n, ¬Abuts s o tree w first n) :
    (graph o tree s).edge first = (graph o tree s).edge last := by
  cases hhoused with
  | program hkind hnamed hd hwraps =>
    rw [edge_graph_of_program hs hn hg hw hk hbody (.inl hfirst) h hcut hkind hnamed hd hwraps,
      edge_graph_of_program hs hn hg hw hk hbody (.inr hlast) h hcut hkind hnamed hd hwraps]
  | @placed b c d n hb hplaced hwraps =>
    obtain ⟨hbc, -, hbehind⟩ := behind_body hn hg hw hk hbody hplaced hb hwraps
    have hrange := hn.range_le (Node.mem_preorder_of_reaches hb hbc) hbehind.reaches
    obtain ⟨span, -, ha, -⟩ := exists_spanOfNode? hs.toOrdered
      ((codeIn_of_firstOf? hs.toOrdered hfirst).mono hrange.1 hrange.2)
    have hline : s.sameStartLine first span.first = false := by
      by_contra hsame
      exact habuts n ⟨b, hb, c, d, span.first, hplaced, hwraps, ha, by simpa using hsame⟩
    rw [edge_graph_of_container hs hn hg hw hk hbody (.inl hfirst) hplaced hb hwraps ha,
      edge_last_of_container hs hn hg hw hk hbody hlast hlead hplaced hb hwraps ha,
      Graph.inset_of_other_line hline]

/-- An opening brace on the line that it is put in from stands level with that line. -/
theorem edges_of_abuts {n : Nat} (habuts : Abuts s o tree w first n) :
    ∃ a, (graph o tree s).edge first = ⟨some a, 0⟩ ∧
      (graph o tree s).edge last = ⟨some a, Width.ofLevels o.unit n⟩ := by
  obtain ⟨b, hb, c, d, a, hplaced, hwraps, ha, hline⟩ := habuts
  refine ⟨a, ?_, edge_last_of_container hs hn hg hw hk hbody hlast hlead hplaced hb hwraps ha⟩
  rw [edge_graph_of_container hs hn hg hw hk hbody (.inl hfirst) hplaced hb hwraps ha, Graph.inset,
    if_pos hline]

end

/-- The braces of a switch are level, unless the first one is on the line that the container of the
switch is measured from.  Then the second one, if it comes first on its line, stands in from the first
one by the levels that the container asks for. -/
theorem exists_switched {source : Text} (h : tree.Fits source)
    (hg : ∀ d, Document.of source tree = .ok d → Grammatical d.stream tree) (o : IndentOptions)
    (hswitched : ∀ d, Document.of source tree = .ok d → Switched d.stream o tree) :
    ∃ d widths, Document.of source tree = .ok d ∧
      (graph o tree d.stream).resolve d.stream o.indentChar = .ok widths ∧
      ∀ w ∈ tree.preorder, ofPlace? w = some .switch → ∃ body first last,
        w.fieldChild? "body" = some body ∧ d.stream.firstOf? body = some first ∧
          d.stream.lastOf? body = some last ∧ (d.stream.leads last = true →
            ((∀ n, ¬Abuts d.stream o tree w first n) → widths.getD last 0 = widths.getD first 0) ∧
              ∀ n, Abuts d.stream o tree w first n → widths.getD last 0 =
                Width.add (widths.getD first 0) (Width.ofLevels o.unit n)) := by
  obtain ⟨s, hs, hcut, hl⟩ := h.exists_ofTree
  have hdoc := document_of hs
  have hg := hg _ hdoc
  have hswitched := hswitched _ hdoc
  obtain ⟨widths, hwidths, hprescribed⟩ := exists_widths hl h.toNested hg.inOrder o
  refine ⟨_, widths, hdoc, hwidths, fun w hw hk => ?_⟩
  obtain ⟨body, hbody⟩ := hswitched.body w hw hk
  obtain ⟨first, last, hfirst, hlast, -⟩ := hbody.framed.brackets
  refine ⟨body, first, last, hbody.field, hfirst, hlast, fun hlead => ?_⟩
  have hopen := not_isExempt_of_isSwitchBrace hl h.toNested hswitched
    ⟨w, hw, hk, body, hbody.field, .inl hfirst⟩
  have hclosed := not_isExempt_of_isSwitchBrace hl h.toNested hswitched
    ⟨w, hw, hk, body, hbody.field, .inr hlast⟩
  rw [hprescribed first (codeIn_of_firstOf? hl.toOrdered hfirst).lt_size,
    hprescribed last (codeIn_of_lastOf? hl.toOrdered hlast).lt_size]
  refine ⟨fun hno => ?_, fun n habuts => ?_⟩
  · have hedge := edge_first_eq hl h.toNested hg hw hk hbody hfirst hlast hlead h hcut
      (hswitched.housed w hw hk) hno
    exact (Graph.prescribed_congr hopen hclosed hedge).symm
  · obtain ⟨a, hedge, hedge'⟩ :=
      edges_of_abuts hl h.toNested hg hw hk hbody hfirst hlast hlead habuts
    rw [Graph.prescribed_of_edge hopen hedge, Graph.prescribed_of_edge hclosed hedge',
      Width.add_zero_add]

/-! ## A switch of the program and one in a block on one line -/

def switchText : Text :=
  ['s', 'w', 'i', 't', 'c', 'h', '(', 'a', ')', '{', '\n', '}', '\n',
    '{', 's', 'w', 'i', 't', 'c', 'h', '(', 'a', ')', '{', '\n', '}', '}']

/-- A node that fills a part of another one. -/
def fielded (field kind : String) (r : Range) (children : List Node) : Node :=
  .mk ⟨kind, r, true, false, false, false, false, some field⟩ children

/-- A switch without cases from an offset on, its braces on two lines. -/
def switchNode (start : Nat) : Node :=
  plain "switch_statement" (bytes start 12) true
    [plain "switch" (bytes start 6) false [],
     fielded "value" "parenthesized_expression" (bytes (start + 6) 3)
       [plain "(" (bytes (start + 6) 1) false [], plain "identifier" (bytes (start + 7) 1) true [],
        plain ")" (bytes (start + 8) 1) false []],
     fielded "body" "switch_body" (bytes (start + 9) 3)
       [plain "\x7b" (bytes (start + 9) 1) false [], plain "\x7d" (bytes (start + 11) 1) false []]]

def switchTree : Node :=
  plain "program" (bytes 0 27) true
    [switchNode 0,
     plain "statement_block" (bytes 13 14) true
       [plain "\x7b" (bytes 13 1) false [], switchNode 14, plain "\x7d" (bytes 26 1) false []]]

def switchStream : TokenStream where
  source := switchText
  tokens := #[
    ⟨.keyword, bytes 0 6, switchText.take 6, [], 1, 1, 0⟩,
    ⟨.punctuator, bytes 6 1, ['('], switchText.take 6, 1, 1, 6⟩,
    ⟨.identifier, bytes 7 1, ['a'], switchText.take 7, 1, 1, 7⟩,
    ⟨.punctuator, bytes 8 1, [')'], switchText.take 8, 1, 1, 8⟩,
    ⟨.punctuator, bytes 9 1, ['{'], switchText.take 9, 1, 1, 9⟩,
    ⟨.punctuator, bytes 11 1, ['}'], [], 2, 2, 0⟩,
    ⟨.punctuator, bytes 13 1, ['{'], [], 3, 3, 0⟩,
    ⟨.keyword, bytes 14 6, switchText.take 6, ['{'], 3, 3, 1⟩,
    ⟨.punctuator, bytes 20 1, ['('], '{' :: switchText.take 6, 3, 3, 7⟩,
    ⟨.identifier, bytes 21 1, ['a'], '{' :: switchText.take 7, 3, 3, 8⟩,
    ⟨.punctuator, bytes 22 1, [')'], '{' :: switchText.take 8, 3, 3, 9⟩,
    ⟨.punctuator, bytes 23 1, ['{'], '{' :: switchText.take 9, 3, 3, 10⟩,
    ⟨.punctuator, bytes 25 1, ['}'], [], 4, 4, 0⟩,
    ⟨.punctuator, bytes 26 1, ['}'], ['}'], 4, 4, 1⟩]
  leaders := #[none, some 0, some 5, some 6, some 12, none]

theorem ofTree_switchTree : TokenStream.ofTree switchText switchTree = .ok switchStream := by
  rw [TokenStream.ofTree_of_pairwise (by decide)]
  decide +kernel

theorem fits_switchTree : switchTree.Fits switchText where
  inside := by decide
  ordered := by decide
  substituted := by unfold Node.Substituted; decide
  cuts := by decide

theorem ofPlace?_switchTree : ∀ c ∈ switchTree.preorder, ∀ k, ofPlace? c = some k →
    k = .block ∨ k = .switch := by
  have hkinds : ∀ c ∈ switchTree.preorder,
      ofPlace? c = none ∨ ofPlace? c = some .block ∨ ofPlace? c = some .switch := by
    decide
  intro c hc k hk
  rcases hkinds c hc with hnone | hblock | hswitch
  · rw [hnone] at hk
    cases hk
  · exact .inl (Option.some.inj (hk.symm.trans hblock))
  · exact .inr (Option.some.inj (hk.symm.trans hswitch))

theorem ofPlace?_switchTree_ne {c : Cursor} (hc : c ∈ switchTree.preorder) {k : Construct}
    (hblock : k ≠ .block) (hswitch : k ≠ .switch) : ofPlace? c ≠ some k :=
  fun hk => (ofPlace?_switchTree c hc k hk).elim hblock hswitch

theorem pairs_switchStream : Parens.pairs switchStream = [(8, 10), (1, 3)] := by decide

theorem grammatical_switchTree : Grammatical switchStream switchTree := by
  have hparameters : ∀ c ∈ switchTree.preorder, c.fieldChild? "parameters" = none := by
    decide
  have hbegins : ∀ c ∈ switchTree.preorder, c.kind ≠ "program" → ∀ d ∈ c.properChildren,
      IsHeld c d → ∀ first ∈ switchStream.firstOf? c, ∀ t < 14, switchStream.CodeIn d.range t →
        first < t := by
    with_unfolding_all decide
  have hends : ∀ c ∈ switchTree.preorder, c.kind ∈ ["statement_block", "class_body", "switch_body"] →
      ∀ d ∈ c.properChildren, IsHeld c d → ∀ last ∈ switchStream.lastOf? c, ∀ t < 14,
        switchStream.CodeIn d.range t → t < last := by
    with_unfolding_all decide
  have hheader : ∀ c ∈ switchTree.preorder, ∀ d ∈ c.properChildren, IsHeld c d →
      ∀ p ∈ Parens.pairs switchStream, ¬switchStream.CodeIn d.range p.1 → ∀ t < 14,
        switchStream.CodeIn d.range t → ¬(p.1 < t ∧ t < p.2) := by
    rw [pairs_switchStream]
    decide
  have hbalanced : ∀ c ∈ switchTree.preorder, c.named = true → ∀ p ∈ Parens.pairs switchStream,
      (switchStream.CodeIn c.range p.1 ↔ switchStream.CodeIn c.range p.2) := by
    rw [pairs_switchStream]
    decide
  refine ⟨fun c hc => ?_, fun c hc => ?_, fun c hc => ?_, hbalanced⟩
  · have hother : ∀ {k}, k ≠ .block → k ≠ .switch → ofPlace? c ≠ some k := ofPlace?_switchTree_ne hc
    exact ⟨fun h => absurd h (hother nofun nofun), fun h => absurd h (hother nofun nofun),
      fun h => absurd h (hother nofun nofun), fun _ p hp => by simp [hparameters c hc] at hp,
      fun h => absurd h (hother nofun nofun)⟩
  · have hother : ∀ {k}, k ≠ .block → k ≠ .switch → ofPlace? c ≠ some k := ofPlace?_switchTree_ne hc
    exact ⟨fun h => absurd h (hother nofun nofun), fun h => absurd h (hother nofun nofun),
      fun h => absurd h (hother nofun nofun)⟩
  · exact {
      begins := fun hkind d hd first hfirst t ht =>
        hbegins c hc hkind d hd.1 hd.2 first hfirst t ht.lt_size ht
      ends := fun hkind d hd last hlast t ht =>
        hends c hc hkind d hd.1 hd.2 last hlast t ht.lt_size ht
      header := fun d hd p hp _ _ hout _ t ht =>
        hheader c hc d hd.1 hd.2 p hp hout t ht.lt_size ht }

/-- The braces of the two switches. -/
theorem braces_switchTree {w : Cursor} (hw : w ∈ switchTree.preorder) (hk : ofPlace? w = some .switch) :
    ∃ body first last, w.fieldChild? "body" = some body ∧ body.named = true ∧ body.extra = false ∧
      body.kind = "switch_body" ∧ switchStream.firstOf? body = some first ∧
        switchStream.lastOf? body = some last ∧ (first = 4 ∧ last = 5 ∨ first = 11 ∧ last = 12) := by
  have hbraces : ∀ w ∈ switchTree.preorder, ofPlace? w = some .switch → ∃ body ∈ w.fieldChild? "body",
      body.named = true ∧ body.extra = false ∧ body.kind = "switch_body" ∧
        ∃ first ∈ switchStream.firstOf? body, ∃ last ∈ switchStream.lastOf? body,
          (first = 4 ∧ last = 5 ∨ first = 11 ∧ last = 12) := by
    with_unfolding_all decide
  obtain ⟨body, hbody, hnamed, hextra, hkind, first, hfirst, last, hlast, h⟩ := hbraces w hw hk
  exact ⟨body, first, last, hbody, hnamed, hextra, hkind, hfirst, hlast, h⟩

theorem isSwitchBrace_switchTree {t : Nat} (h : IsSwitchBrace switchStream switchTree t) :
    t ∈ [4, 5, 11, 12] := by
  obtain ⟨w, hw, hk, body, hbody, hbrace⟩ := h
  obtain ⟨body', first, last, hbody', -, -, -, hfirst, hlast, h⟩ := braces_switchTree hw hk
  obtain rfl := Option.some.inj (hbody.symm.trans hbody')
  have ht : t = first ∨ t = last := hbrace.imp (fun ht => Option.some.inj (ht.symm.trans hfirst))
    fun ht => Option.some.inj (ht.symm.trans hlast)
  simp only [List.mem_cons, List.not_mem_nil, or_false]
  omega

/-- What the switches list are only their values, which begin with parentheses. -/
theorem spares_switchTree : ∀ c ∈ switchTree.preorder,
    Spares switchStream (fun t => ¬IsSwitchBrace switchStream switchTree t) c := by
  have hfields : ∀ c ∈ switchTree.preorder, c.fieldChild? "parameters" = none ∧
      c.fieldChild? "parameter" = none ∧ c.fieldChild? "arguments" = none ∧
        Sequence.properOfKind c "export_specifier" = [] ∧
          Sequence.properOfKind c "import_specifier" = [] := by
    decide
  have hvalues : ∀ c ∈ switchTree.preorder, ∀ e ∈ c.fieldChild? "value", e.named = true ∧
      (∀ t ∈ switchStream.firstOf? e, t ∉ [4, 5, 11, 12]) ∧
        ∀ t ∈ switchStream.firstOf? e.bare, t ∉ [4, 5, 11, 12] := by
    with_unfolding_all decide
  have hends : ∀ c ∈ switchTree.preorder, c.named = true → ∀ t ∈ switchStream.lastOf? c,
      switchStream.isPunctuator t ['('] = false := by
    with_unfolding_all decide
  intro c hc
  obtain ⟨hparameters, hparameter, harguments, -, -⟩ := hfields c hc
  have hother : ∀ {k}, k ≠ .block → k ≠ .switch → ofPlace? c ≠ some k := ofPlace?_switchTree_ne hc
  exact {
    ends := hends c hc
    element := fun h => by rcases h with h | h <;> exact absurd h (hother nofun nofun)
    part := fun d hd => by
      rcases hd with hd | hd
      · simp [hparameter] at hd
      · exact (hvalues c hc d hd).1
    begins := fun e he t ht hbrace => by
      cases he with
      | element hk => rcases hk with hk | hk | hk <;> exact absurd hk (hother nofun nofun)
      | parameter he => simp [Callable.parameters, hparameters, hparameter] at he
      | argument hlist => simp [harguments] at hlist
      | name hlist hkind he =>
        obtain ⟨-, -, -, hexport, himport⟩ := hfields _ (Node.mem_preorder_of_reaches hc hlist)
        rcases hkind with rfl | rfl
        · simp [hexport] at he
        · simp [himport] at he
      | value he =>
        obtain ⟨-, hfirst, hbare⟩ := hvalues c hc e he
        rcases ht with ht | ht
        · exact hfirst t ht (isSwitchBrace_switchTree hbrace)
        · exact hbare t ht (isSwitchBrace_switchTree hbrace)
    operator := fun h => absurd h (hother nofun nofun)
    assignment := fun h => absurd h (hother nofun nofun)
    value := fun h => absurd h (hother nofun nofun)
    access := fun h => absurd h (hother nofun nofun) }

/-- One switch stands in the program and one in the block. -/
theorem housed_switchTree {w : Cursor} (hw : w ∈ switchTree.preorder) (hk : ofPlace? w = some .switch) :
    Housed .standard switchTree w := by
  have hparents : ∀ b ∈ switchTree.preorder, ∀ d ∈ b.children, d.kind ≠ "program" ∧
      (ofPlace? d = some .switch → d.named = true ∧ d.extra = false ∧
        (b.kind = "program" ∨ ofPlace? b = some .block)) := by
    decide
  have hparent : ∀ {d}, d ∈ switchTree.preorder → Cursor.root switchTree = d ∨
      ∃ b ∈ switchTree.preorder, d ∈ b.children := fun hd =>
    (Relation.ReflTransGen.cases_tail (Node.mem_preorder_iff.1 hd)).imp Eq.symm
      fun ⟨b, hb, hd⟩ => ⟨b, Node.mem_preorder_iff.2 hb, hd⟩
  rcases hparent hw with rfl | ⟨b, hb, hd⟩
  · exact absurd hk (by decide)
  · obtain ⟨hnamed, hextra, hkind⟩ := (hparents b hb w hd).2 hk
    have hproper : w ∈ b.properChildren := by
      simp [properChildren, namedChildren, hd, hnamed, hextra]
    rcases hkind with hprogram | hblock
    · rcases hparent hb with rfl | ⟨e, he, hb'⟩
      · exact .program rfl rfl hproper (.refl w)
      · exact absurd hprogram (hparents e he b hb').1
    · exact .placed hb (.block hblock hproper) (.refl w)

theorem switchBody_switchTree {w : Cursor} (hw : w ∈ switchTree.preorder)
    (hk : ofPlace? w = some .switch) : ∃ body, SwitchBody switchStream switchTree w body := by
  have hparts : ∀ w ∈ switchTree.preorder, ofPlace? w = some .switch → ∀ e ∈ w.children,
      ofPlace? e = none ∧ ∀ f ∈ e.children, ofPlace? f = none ∧ f.children = [] := by
    decide
  have hlists : ∀ c ∈ switchTree.preorder, Sequence.properOfKind c "export_clause" = [] ∧
      Sequence.properOfKind c "import_clause" = [] := by
    decide
  obtain ⟨body, first, last, hbody, hnamed, hextra, hkind, hfirst, hlast, h⟩ := braces_switchTree hw hk
  obtain ⟨hlt, hopens, hcloses⟩ : first < last ∧ switchStream.isPunctuator first ['{'] = true ∧
      switchStream.isPunctuator last ['}'] = true := by
    rcases h with ⟨rfl, rfl⟩ | ⟨rfl, rfl⟩ <;> decide
  obtain ⟨hexport, himport⟩ := hlists w hw
  have hchild : body ∈ w.children := mem_children_of_fieldChild hbody
  refine ⟨body, hbody, ?_, ⟨⟨first, last, hfirst, hlast, hlt, .inr (.inl hcloses)⟩, ?_, ?_, ?_, ?_⟩,
    fun t ht => ?_, fun t ht => ?_⟩
  · simp [properChildren, namedChildren, hchild, hnamed, hextra]
  · -- no construct is in a switch
    intro d _ hreach hne hsome
    rcases hreach.cases_child with rfl | ⟨e, he, hreach⟩
    · exact absurd rfl hne
    · obtain ⟨hnone, hparts⟩ := hparts w hw hk e he
      rcases hreach.cases_child with rfl | ⟨f, hf, hreach⟩
      · simp [hnone] at hsome
      · obtain ⟨hnone, hempty⟩ := hparts f hf
        rcases hreach.cases_child with rfl | ⟨g, hg, -⟩
        · simp [hnone] at hsome
        · simp [hempty] at hg
  · rw [hkind]
    exact fun h => absurd h (by decide)
  · simp [hexport, himport]
  · rw [(hparts w hw hk body hchild).1]
    exact fun h => absurd h (by simp)
  · exact (Option.some.inj (ht.symm.trans hfirst)) ▸ hopens
  · exact (Option.some.inj (ht.symm.trans hlast)) ▸ hcloses

/-- Only a switch in the block is put in. -/
theorem start_of_abuts_switchTree {w : Cursor} {t n : Nat}
    (h : Abuts switchStream .standard switchTree w t n) : w.range.start = 14 := by
  have hblocks : ∀ b ∈ switchTree.preorder, ofPlace? b = some .block → ∀ d ∈ b.properChildren,
      d.kind = "switch_statement" ∧ d.range.start = 14 := by
    decide
  have hempty : ∀ c ∈ switchTree.preorder, ∀ body ∈ c.fieldChild? "body",
      body.properChildren = [] := by
    decide
  obtain ⟨b, hb, c, d, a, hplaced, hwraps, -, -⟩ := h
  have hother : ∀ {k}, k ≠ .block → k ≠ .switch → ofPlace? b ≠ some k := ofPlace?_switchTree_ne hb
  cases hplaced with
  | block hblock hd =>
    obtain ⟨hkind, hstart⟩ := hblocks b hb hblock d hd
    cases hwraps with
    | refl => exact hstart
    | step hkind' => simp [hkind] at hkind'
  | member hc => exact absurd hc (hother nofun nofun)
  | label _ hbody _ _ hd => simp [hempty b hb _ hbody] at hd
  | statement _ hbody _ _ he => simp [hempty b hb _ hbody] at he
  | loop hc => rcases hc with hc | hc <;> exact absurd hc (hother nofun nofun)
  | consequence hc => exact absurd hc (hother nofun nofun)
  | alternative hc => exact absurd hc (hother nofun nofun)

/-- The braces of the first switch are level.  The second one of the other switch stands in from the
first one, since that is on the line on which the block begins. -/
theorem exists_switched_switchTree : ∃ d widths, Document.of switchText switchTree = .ok d ∧
    (graph .standard switchTree d.stream).resolve d.stream .space = .ok widths ∧
      widths.getD 5 0 = widths.getD 4 0 ∧ widths.getD 12 0 = Width.add (widths.getD 11 0) 4 := by
  have hdoc := document_of ofTree_switchTree
  obtain ⟨d, widths, hd, hwidths, hswitches⟩ := exists_switched fits_switchTree
    (forall_document ofTree_switchTree grammatical_switchTree) .standard
    (forall_document ofTree_switchTree
      ⟨spares_switchTree, fun w => switchBody_switchTree, fun w => housed_switchTree⟩)
  obtain rfl : _ = d := Except.ok.inj (hdoc.symm.trans hd)
  have hroot := switchTree.mem_preorder_self
  have hproper := @mem_children_of_mem_properChildren
  obtain ⟨v, hv, hvk, hvstart, vbody, hvbody, hvfirst, hvlast⟩ :
      ∃ v ∈ (Cursor.root switchTree).properChildren, ofPlace? v = some .switch ∧ v.range.start = 0 ∧
        ∃ body ∈ v.fieldChild? "body", switchStream.firstOf? body = some 4 ∧
          switchStream.lastOf? body = some 5 := by
    with_unfolding_all decide
  obtain ⟨b, hb, hblock, hlevels, hbfirst, w, hw, hwk, wbody, hwbody, hwfirst, hwlast⟩ :
      ∃ b ∈ (Cursor.root switchTree).properChildren, ofPlace? b = some .block ∧
        Body.levels .standard b.owner? = 1 ∧ switchStream.firstOf? b = some 6 ∧
          ∃ w ∈ b.properChildren, ofPlace? w = some .switch ∧
            ∃ body ∈ w.fieldChild? "body", switchStream.firstOf? body = some 11 ∧
              switchStream.lastOf? body = some 12 := by
    with_unfolding_all decide
  have hbt := Node.mem_preorder_of_child hroot (hproper hb)
  refine ⟨_, widths, hdoc, hwidths, ?_, ?_⟩
  · obtain ⟨body, first, last, hbody, hfirst, hlast, hlevel⟩ :=
      hswitches v (Node.mem_preorder_of_child hroot (hproper hv)) hvk
    obtain rfl := Option.some.inj (hbody.symm.trans hvbody)
    obtain rfl := Option.some.inj (hfirst.symm.trans hvfirst)
    obtain rfl := Option.some.inj (hlast.symm.trans hvlast)
    refine (hlevel (by decide)).1 fun n habuts => ?_
    have := start_of_abuts_switchTree habuts
    omega
  · obtain ⟨body, first, last, hbody, hfirst, hlast, hlevel⟩ :=
      hswitches w (Node.mem_preorder_of_child hbt (hproper hw)) hwk
    obtain rfl := Option.some.inj (hbody.symm.trans hwbody)
    obtain rfl := Option.some.inj (hfirst.symm.trans hwfirst)
    obtain rfl := Option.some.inj (hlast.symm.trans hwlast)
    have habuts : Abuts switchStream .standard switchTree w 11 1 :=
      ⟨b, hbt, b, w, 6, hlevels ▸ .block hblock hw, .refl w, hbfirst, by decide⟩
    exact (hlevel (by decide)).2 1 habuts

end IndentRule

end Indentation
