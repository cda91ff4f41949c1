import Indentation.Proofs.Construct.Placed

/-!
# What a container writes last

A container writes several things about the tokens that it holds.  What it writes last about a token of
a statement puts that token in from the one that the container begins with.
-/

namespace Indentation

open Cursor TokenStream

namespace Graph

variable {g : Graph} {s : TokenStream} {unit : Nat} {t : Nat}

theorem edge_append_of {ws vs : List Write} (h : ∀ w ∈ vs, ¬w.Touches t) :
    (g.writeAll s unit (ws ++ vs)).edge t = (g.writeAll s unit ws).edge t := by
  rw [writeAll_append, edge_writeAll_of h]

/-- A token among those that are indented stands in from a token before them. -/
theorem edge_indentAll {a levels : Nat} {tokens : List Nat} (ht : t ∈ tokens) (hne : a ≠ t)
    (hsize : t < g.size) :
    (g.writeAll s unit (Write.indentAll tokens (some a) levels)).edge t = inset s unit t a levels := by
  induction tokens generalizing g with
  | nil => exact absurd ht List.not_mem_nil
  | cons i tokens ih =>
    by_cases hmem : t ∈ tokens
    · exact ih hmem (by rwa [size_write])
    · obtain rfl : t = i := (List.mem_cons.1 ht).resolve_right hmem
      rw [Write.indentAll, List.map_cons, writeAll, List.foldl_cons, ← writeAll,
        edge_writeAll_of fun w hw htouch => ?_]
      · exact edge_indent hne hsize
      · obtain ⟨j, hj, rfl⟩ := List.mem_map.1 hw
        exact hmem (htouch.1 ▸ hj)

end Graph

namespace Body

variable {s : TokenStream} {c : Cursor} {t : Nat}

theorem mem_of_touches_indentAll {tokens : List Nat} {anchor : Option Nat} {levels : Nat} {w : Write}
    (hw : w ∈ Write.indentAll tokens anchor levels) (ht : w.Touches t) : t ∈ tokens := by
  obtain ⟨i, hi, rfl⟩ := List.mem_map.1 hw
  exact ht.1 ▸ hi

/-- A body without braces names the tokens of the body. -/
theorem codeIn_of_touches_unbracedWrites (hs : s.Ordered) {d : Cursor} {w : Write}
    (hw : w ∈ unbracedWrites s c (some d)) (ht : w.Touches t) (hcode : s.isComment t = false) :
    s.CodeIn d.range t := by
  refine Write.forall_mem_getD (Q := fun w => w.Touches t → s.CodeIn d.range t) (fun ws h w hw ht => ?_)
    w hw ht
  obtain ⟨b, hb, h⟩ := Option.bind_eq_some_iff.1 h
  obtain rfl : d = b := Option.some.inj hb
  split at h
  · cases h
  · obtain ⟨span, hspan, h⟩ := Option.bind_eq_some_iff.1 h
    obtain ⟨anchor, -, h⟩ := Option.bind_eq_some_iff.1 h
    obtain rfl : _ = ws := Option.some.inj h
    obtain ⟨hfirst, hlast, -, -⟩ := spanOfNode?_spec hs hspan
    have hmem := Span.mem_ids.1 (mem_of_touches_indentAll hw ht)
    exact hfirst.between hs hlast hmem.1 hmem.2 hcode

/-- The writes of a switch are about tokens that are no labels. -/
theorem mem_of_touches_caseWrites {labels blocks tokens : List Nat} {label : Nat} {w : Write}
    (hw : w ∈ caseWrites s labels blocks label tokens) (ht : w.Touches t) :
    t ∈ tokens ∧ t ∉ labels := by
  induction tokens generalizing label with
  | nil => exact absurd hw List.not_mem_nil
  | cons token tokens ih =>
    have hlater : ∀ {label}, w ∈ caseWrites s labels blocks label tokens →
        t ∈ token :: tokens ∧ t ∉ labels :=
      fun hw => ⟨List.mem_cons_of_mem _ (ih hw).1, (ih hw).2⟩
    rw [caseWrites] at hw
    split at hw
    · exact hlater hw
    · next hlabel =>
      dsimp only at hw
      split at hw
      · rcases List.mem_cons.1 hw with rfl | hw
        · exact ht.elim
        · exact hlater hw
      · split at hw
        · exact hlater hw
        · rcases List.mem_cons.1 hw with rfl | hw
          · exact ht.1 ▸ ⟨List.mem_cons_self, by simpa using hlabel⟩
          · exact hlater hw

/-- Where a walk over the tokens of a switch, which remembers the label that it has passed last, stands
to a label. -/
inductive Passing (label last : Nat) (tokens : List Nat) : Prop
  | passed (heq : last = label) (hbehind : ∀ i ∈ tokens, label < i)
  | ahead (hin : label ∈ tokens)

namespace Passing

variable {label last token : Nat} {tokens : List Nat}

theorem last_eq (h : Passing label last (token :: tokens)) (hlater : ∀ i ∈ tokens, token < i)
    (hlt : label < token) : last = label := by
  cases h with
  | passed heq => exact heq
  | ahead hin =>
    rcases List.mem_cons.1 hin with rfl | hin
    · exact absurd hlt (Nat.lt_irrefl _)
    · exact absurd (hlater label hin) (Nat.not_lt_of_lt hlt)

/-- The walk passes a label that is not behind the one in question. -/
theorem of_le (h : Passing label last (token :: tokens)) (hlater : ∀ i ∈ tokens, token < i)
    (hle : token ≤ label) : Passing label token tokens := by
  cases h with
  | passed _ hbehind => exact absurd (hbehind token List.mem_cons_self) (Nat.not_lt_of_le hle)
  | ahead hin =>
    rcases List.mem_cons.1 hin with rfl | hin
    · exact .passed rfl hlater
    · exact .ahead hin

/-- The walk passes a token that is not the label. -/
theorem of_ne (h : Passing label last (token :: tokens)) (hne : label ≠ token) :
    Passing label last tokens := by
  cases h with
  | passed heq hbehind => exact .passed heq fun i hi => hbehind i (List.mem_cons_of_mem _ hi)
  | ahead hin => exact .ahead ((List.mem_cons.1 hin).resolve_left hne)

end Passing

/-- A token of a case is put in from the label of the case. -/
theorem edge_caseWrites {g : Graph} {unit : Nat} {labels blocks tokens : List Nat} {label last : Nat}
    (hsorted : tokens.Pairwise (· < ·)) (ht : t ∈ tokens) (hcode : s.isComment t = false)
    (hsize : t < g.size) (hlabel : label ∈ labels)
    (hlt : label < t) (hbetween : ∀ l ∈ labels, l ≤ t → l ≤ label) (hopen : label ∉ blocks)
    (hpassing : Passing label last tokens) :
    (g.writeAll s unit (caseWrites s labels blocks last tokens)).edge t =
      Graph.inset s unit t label 1 := by
  induction tokens generalizing g last with
  | nil => exact absurd ht List.not_mem_nil
  | cons token tokens ih =>
    obtain ⟨hlater, hsorted⟩ := List.pairwise_cons.1 hsorted
    have htoken_le : token ≤ t := by
      rcases List.mem_cons.1 ht with rfl | ht
      · exact Nat.le_refl _
      · exact Nat.le_of_lt (hlater t ht)
    rw [caseWrites]
    split
    · next htoken =>
      have hle := hbetween token (by simpa using htoken) htoken_le
      have ht : t ∈ tokens := (List.mem_cons.1 ht).resolve_left fun heq => by omega
      exact ih hsorted ht hsize (hpassing.of_le hlater hle)
    · next htoken =>
      rcases List.mem_cons.1 ht with rfl | ht
      · obtain rfl := hpassing.last_eq hlater hlt
        simp only [hcode, Bool.and_false, Bool.false_eq_true, if_false, List.contains_iff_mem, hopen]
        rw [Graph.writeAll, List.foldl_cons, ← Graph.writeAll,
          Graph.edge_writeAll_of fun w hw htouch => ?_]
        · exact Graph.edge_indent (Nat.ne_of_lt hlt) hsize
        · exact absurd (hlater t (mem_of_touches_caseWrites hw htouch).1) (Nat.lt_irrefl t)
      · have hpassing : Passing label last tokens := hpassing.of_ne fun heq => htoken (by simpa [← heq])
        dsimp only
        split
        · exact ih hsorted ht (by simpa using hsize) hpassing
        · split
          · exact ih hsorted ht hsize hpassing
          · exact ih hsorted ht (by simpa using hsize) hpassing

section

variable {g : Graph} {unit a : Nat} (hs : s.Ordered) (hsize : t < g.size)
include hs hsize

theorem edge_blockWrites (o : IndentOptions) (ht : s.CodeIn c.range t) (ha : s.firstOf? c = some a)
    (hlt : a < t) (hlast : ∀ l, s.lastOf? c = some l → t < l) :
    (g.writeAll s unit (blockWrites s o c)).edge t =
      Graph.inset s unit t a (levels o c.owner?) := by
  obtain ⟨span, hspan, hfirst, hl⟩ := exists_spanOfNode? hs ht
  obtain rfl : span.first = a := Option.some.inj (hfirst.symm.trans ha)
  have hbefore := hlast _ hl
  simp only [blockWrites, hspan]
  rw [Graph.writeAll, List.foldl_cons, ← Graph.writeAll, Graph.edge_append_of fun w hw htouch => ?_]
  · exact Graph.edge_indentAll (Span.mem_interior.2 ⟨hlt, hbefore⟩) (Nat.ne_of_lt hlt)
      (by simpa using hsize)
  · rw [List.mem_singleton.1 hw] at htouch
    have := htouch.1
    omega

theorem edge_classWrites (ht : s.CodeIn c.range t) (ha : s.firstOf? c = some a) (hlt : a < t)
    (hlast : ∀ l, s.lastOf? c = some l → t < l) :
    (g.writeAll s unit (classWrites s c)).edge t = Graph.inset s unit t a 1 := by
  obtain ⟨span, hspan, hfirst, hl⟩ := exists_spanOfNode? hs ht
  obtain rfl : span.first = a := Option.some.inj (hfirst.symm.trans ha)
  have hbefore := hlast _ hl
  simp only [classWrites, hspan]
  rw [Graph.edge_append_of fun w hw htouch => ?_]
  · exact Graph.edge_indentAll (Span.mem_interior.2 ⟨hlt, hbefore⟩) (Nat.ne_of_lt hlt) hsize
  · rw [List.mem_singleton.1 hw] at htouch
    have := htouch.1
    omega

theorem edge_unbracedWrites {d : Cursor} (ht : s.CodeIn d.range t) (hkind : d.kind ≠ "statement_block")
    (ha : s.firstOf? c = some a) (hlt : a < t) :
    (g.writeAll s unit (unbracedWrites s c (some d))).edge t = Graph.inset s unit t a 1 := by
  obtain ⟨span, hspan, -, -⟩ := exists_spanOfNode? hs ht
  obtain ⟨-, -, -, hall⟩ := spanOfNode?_spec hs hspan
  have hwrites : unbracedWrites s c (some d) = Write.indentAll span.ids (some a) 1 := by
    simp only [unbracedWrites, Option.bind_eq_bind, Option.bind_some, if_neg hkind, hspan, ha]
    rfl
  rw [hwrites]
  exact Graph.edge_indentAll (Span.mem_ids.2 (hall t ht)) (Nat.ne_of_lt hlt) hsize

/-! ## Switches -/

omit hs hsize

def cases (body : Cursor) : List Cursor :=
  body.properChildren.filter fun d => d.kind == "switch_case" || d.kind == "switch_default"

def labels (s : TokenStream) (body : Cursor) : List Nat := (cases body).filterMap s.firstOf?

def blockLabels (s : TokenStream) (body : Cursor) : List Nat :=
  ((cases body).filter holdsOneBlock).filterMap s.firstOf?

theorem switchWrites_eq_append {body : Cursor} {span : Span} (o : IndentOptions)
    (hbody : c.fieldChild? "body" = some body) (hspan : s.spanOfNode? body = some span) :
    switchWrites s o c = Write.indentAll span.interior (some span.first) o.switchCase ++
      caseWrites s (labels s body) (blockLabels s body) span.first span.interior := by
  simp only [switchWrites, hbody, hspan, Option.bind_eq_bind, Option.bind_some]
  rfl

/-- A label that is found in two cases tells that they are the same. -/
theorem case_eq {tree : Node} {body e f : Cursor} {l : Nat} (hs : s.Ordered) (hn : tree.Nested)
    (hbody : body ∈ tree.preorder) (he : e ∈ cases body) (hf : f ∈ cases body)
    (hl : s.CodeIn e.range l) (hl' : s.CodeIn f.range l) : e = f := by
  have hchild : ∀ {e}, e ∈ cases body → e ∈ body.children := fun he =>
    mem_children_of_mem_properChildren (List.mem_filter.1 he).1
  exact hn.child_eq hbody (hchild he) (hchild hf) (hs.start_lt_stop l hl.lt_size)
    ⟨hl.start_le, hl.le_stop⟩ ⟨hl'.start_le, hl'.le_stop⟩

include hs hsize

theorem edge_switchWrites_label {body : Cursor} (o : IndentOptions)
    (hbody : c.fieldChild? "body" = some body) (ht : s.CodeIn body.range t)
    (ha : s.firstOf? body = some a) (hlt : a < t) (hlast : ∀ l, s.lastOf? body = some l → t < l)
    (hlabel : t ∈ labels s body) :
    (g.writeAll s unit (switchWrites s o c)).edge t = Graph.inset s unit t a o.switchCase := by
  obtain ⟨span, hspan, hfirst, hl⟩ := exists_spanOfNode? hs ht
  obtain rfl : span.first = a := Option.some.inj (hfirst.symm.trans ha)
  rw [switchWrites_eq_append o hbody hspan, Graph.edge_append_of fun w hw htouch =>
    (mem_of_touches_caseWrites hw htouch).2 hlabel]
  exact Graph.edge_indentAll (Span.mem_interior.2 ⟨hlt, hlast _ hl⟩) (Nat.ne_of_lt hlt) hsize

theorem edge_switchWrites_case {tree : Node} {body e : Cursor} (o : IndentOptions) (hn : tree.Nested)
    (hbodyt : body ∈ tree.preorder) (hbody : c.fieldChild? "body" = some body) (he : e ∈ cases body)
    (hone : holdsOneBlock e = false) (ht : s.CodeIn e.range t) (ha : s.firstOf? e = some a)
    (hlt : a < t) (hfirst : ∀ b, s.firstOf? body = some b → b < a)
    (hlast : ∀ l, s.lastOf? body = some l → t < l) :
    (g.writeAll s unit (switchWrites s o c)).edge t = Graph.inset s unit t a 1 := by
  have hchild := mem_children_of_mem_properChildren (List.mem_filter.1 he).1
  have hrange := hn.range_le hbodyt (.child hchild)
  obtain ⟨span, hspan, hf, hl⟩ := exists_spanOfNode? hs (ht.mono hrange.1 hrange.2)
  have hain := codeIn_of_firstOf? hs ha
  have hbefore := hfirst _ hf
  have hbehind := hlast _ hl
  -- only the label of its own case is before a token of a case in that case
  have hown : ∀ f ∈ cases body, ∀ l, s.firstOf? f = some l → a ≤ l → l ≤ t → f = e := by
    intro f hf l hl hle hlt
    have hlin := codeIn_of_firstOf? hs hl
    exact (case_eq hs hn hbodyt he hf (hain.between hs ht hle hlt hlin.code) hlin).symm
  rw [switchWrites_eq_append o hbody hspan, Graph.writeAll_append]
  refine edge_caseWrites ((List.pairwise_lt_range' _).filter _) (Span.mem_interior.2 ⟨by omega, hbehind⟩)
    ht.code (by simpa using hsize) (List.mem_filterMap.2 ⟨e, he, ha⟩) hlt (fun l hl hle => ?_)
    (fun hblock => ?_)
    (.ahead (Span.mem_interior.2 ⟨hbefore, by omega⟩))
  · obtain ⟨f, hf, hl⟩ := List.mem_filterMap.1 hl
    by_contra hal
    obtain rfl := hown f hf l hl (by omega) hle
    have := Option.some.inj (hl.symm.trans ha)
    omega
  · obtain ⟨f, hf, hl⟩ := List.mem_filterMap.1 hblock
    obtain ⟨hf, hfone⟩ := List.mem_filter.1 hf
    obtain rfl := hown f hf a hl (Nat.le_refl _) (Nat.le_of_lt hlt)
    rw [hone] at hfone
    cases hfone

end

/-! ## Branches -/

theorem branchWrites_eq_append {d : Cursor} (hd : alternative? c = some d) :
    branchWrites s c = unbracedWrites s c (c.fieldChild? "consequence") ++
      if d.kind = "if_statement" then branchWrites s d else unbracedWrites s c (some d) := by
  rw [branchWrites]
  split
  · next hnone => rw [hd] at hnone; cases hnone
  · next e he =>
    obtain rfl : d = e := Option.some.inj (hd.symm.trans he)
    rfl

section

variable {g : Graph} {unit a : Nat} {tree : Node} (hs : s.Lined) (hsize : t < g.size)
include hs hsize

theorem edge_branchWrites_consequence {d : Cursor} (hn : tree.Nested) (hc : c ∈ tree.preorder)
    (hd : c.fieldChild? "consequence" = some d) (hin : s.CodeIn d.range t)
    (hkind : d.kind ≠ "statement_block") (ha : s.firstOf? c = some a) (hlt : a < t) :
    (g.writeAll s unit (branchWrites s c)).edge t = Graph.inset s unit t a 1 := by
  have hown : (g.writeAll s unit (unbracedWrites s c (some d))).edge t =
      Graph.inset s unit t a 1 := edge_unbracedWrites hs.toOrdered hsize hin hkind ha hlt
  cases halt : alternative? c with
  | none =>
    have hwrites : branchWrites s c = unbracedWrites s c (some d) := by
      rw [branchWrites, hd]
      split
      · exact List.append_nil _
      · next e he => rw [halt] at he; cases he
    rw [hwrites, hown]
  | some e =>
    obtain ⟨clause, hclause, he⟩ := Option.bind_eq_some_iff.1 halt
    have hclauset := Node.mem_preorder_of_child hc (mem_children_of_fieldChild hclause)
    have hechild := mem_children_of_mem_properChildren (List.mem_of_head? he)
    have hrange := hn.range_le hclauset (.child hechild)
    -- the other branch has no token of this one
    have hout : ¬s.CodeIn e.range t := by
      intro hout
      have hout' := hout.mono hrange.1 hrange.2
      obtain rfl : d = clause := hn.child_eq hc (mem_children_of_fieldChild hd)
        (mem_children_of_fieldChild hclause) (hs.start_lt_stop t hin.lt_size)
        ⟨hin.start_le, hin.le_stop⟩ ⟨hout'.start_le, hout'.le_stop⟩
      have h₁ : d.node.label.field = some "consequence" := by simpa using List.find?_some hd
      have h₂ : d.node.label.field = some "alternative" := by simpa using List.find?_some hclause
      rw [h₁] at h₂
      exact absurd h₂ (by decide)
    rw [branchWrites_eq_append halt, hd, Graph.edge_append_of fun w hw htouch => ?_, hown]
    split at hw
    · have hP : s.Tail e.range (· ≠ t) := fun i j u hi hj hiu huj heq =>
        hout (heq ▸ hi.between hs.toOrdered hj (Nat.le_of_lt hiu) huj (heq ▸ hin.code))
      exact (within_branchWrites hs hn (Node.mem_preorder_of_child hclauset hechild) hP w hw).2 t
        htouch rfl
    · exact hout (codeIn_of_touches_unbracedWrites hs.toOrdered hw htouch hin.code)

theorem edge_branchWrites_alternative {d : Cursor} (hd : alternative? c = some d)
    (ht : s.CodeIn d.range t) (hkind : d.kind ≠ "statement_block") (hif : d.kind ≠ "if_statement")
    (ha : s.firstOf? c = some a) (hlt : a < t) :
    (g.writeAll s unit (branchWrites s c)).edge t = Graph.inset s unit t a 1 := by
  rw [branchWrites_eq_append hd, if_neg hif, Graph.writeAll_append]
  exact edge_unbracedWrites hs.toOrdered (by simpa using hsize) ht hkind ha hlt

end

end Body

namespace Placed

open Construct

variable {s : TokenStream} {tree : Node} {o : IndentOptions} {w c d : Cursor} {n : Nat}

/-- When a walk has entered a container, what it puts in stands where it puts it.  Behind a label the
tokens of a case are put in from the label. -/
theorem edge_enter (h : Placed o w c d n) (hs : s.Lined) (hn : tree.Nested) (hg : Grammatical s tree)
    (hw : w ∈ tree.preorder) {a t : Nat} (ha : s.firstOf? c = some a) (htin : s.CodeIn d.range t)
    (hlabel : s.firstOf? d = some t ∨ d.kind ≠ "switch_case" ∧ d.kind ≠ "switch_default")
    {k : Construct} (hk : ofPlace? w = some k) {g : Graph} (hsize : t < g.size) :
    (g.writeAll s o.unit (enter s o w k)).edge t = Graph.inset s o.unit t a n := by
  obtain ⟨hwc, hbehind⟩ := h.behind hn hg hw
  have hlt := hbehind.begins a ha t htin
  have hct := Node.mem_preorder_of_reaches hw hwc
  have hcin : s.CodeIn c.range t :=
    htin.mono (hn.range_le hct hbehind.reaches).1 (hn.range_le hct hbehind.reaches).2
  have hsome : ∀ {k'}, ofPlace? w = some k' → k = k' := fun hk' => Option.some.inj (hk.symm.trans hk')
  -- what stands between braces comes before the second one
  have hends : ∀ {e f : Cursor}, e ∈ tree.preorder → f ∈ e.properChildren →
      e.kind ∈ ["statement_block", "class_body", "switch_body"] → s.CodeIn f.range t →
        ∀ l, s.lastOf? e = some l → t < l := by
    intro e f he hf hmem hin l hl
    refine (hg.framed e he).ends hmem f ⟨hf, .inl ?_⟩ l hl t hin
    simp only [List.mem_cons, List.not_mem_nil, or_false] at hmem ⊢
    tauto
  have hproper := @mem_children_of_mem_properChildren
  cases h with
  | block hb hd =>
    obtain rfl := hsome hb
    exact Body.edge_blockWrites hs.toOrdered hsize o hcin ha hlt
      (hends hw hd (by simp [kind_of_ofPlace?_block hb]) htin)
  | member hc hbody hbodyproper hkind hd =>
    obtain rfl := hsome hc
    refine Body.edge_classWrites hs.toOrdered hsize hcin ha hlt fun l hl => ?_
    have hbodyt := Node.mem_preorder_of_child hw (hproper hbodyproper)
    have hrange := hn.range_le hbodyt (.child (hproper hd))
    have hrange' := hn.range_le hw (.child (hproper hbodyproper))
    obtain ⟨span, -, -, hlast⟩ := exists_spanOfNode? hs.toOrdered (htin.mono hrange.1 hrange.2)
    have hlt := hends hbodyt hd (by simp [hkind]) htin _ hlast
    have hle := ((lastCodeIn?_eq_some_iff hs.toOrdered).1 hl).2 _
      ((codeIn_of_lastOf? hs.toOrdered hlast).mono hrange'.1 hrange'.2)
    omega
  | label hc hbody hbodyproper hkind hd hcase =>
    obtain rfl := hsome hc
    have ht : s.firstOf? d = some t := hlabel.resolve_right fun hne => hcase.elim hne.1 hne.2
    refine Body.edge_switchWrites_label hs.toOrdered hsize o hbody hcin ha hlt
      (hends hct hd (by simp [hkind]) htin) (List.mem_filterMap.2 ⟨d, List.mem_filter.2 ⟨hd, ?_⟩, ht⟩)
    simpa using hcase
  | @statement body _ _ hc hbody hbodyproper hkind he hcase hone hd =>
    obtain rfl := hsome hc
    have hbodyt := Node.mem_preorder_of_child hw (hproper hbodyproper)
    have hain := codeIn_of_firstOf? hs.toOrdered ha
    refine Body.edge_switchWrites_case hs.toOrdered hsize o hn hbodyt hbody
      (List.mem_filter.2 ⟨he, by simpa using hcase⟩) hone hcin ha hlt (fun b hb => ?_)
      (hends hbodyt he (by simp [hkind]) hcin)
    exact (hg.framed body hbodyt).begins (by simp [hkind]) c ⟨he, .inl (by simp [hkind])⟩ b hb a hain
  | loop hc hbody hd hunbraced =>
    rcases hc with hc | hc
    · obtain rfl := hsome hc
      simp only [enter, Body.loopWrites, hbody]
      exact Body.edge_unbracedWrites hs.toOrdered hsize htin hunbraced ha hlt
    · obtain rfl := hsome hc
      simp only [enter, Body.forWrites, Body.loopWrites, hbody, Graph.writeAll_append]
      exact Body.edge_unbracedWrites hs.toOrdered (by simpa using hsize) htin hunbraced ha hlt
  | consequence hc hbody hd hunbraced =>
    obtain rfl := hsome hc
    exact Body.edge_branchWrites_consequence hs hsize hn hw hbody htin hunbraced ha hlt
  | alternative hc hclause hclauseproper hkind hd hunbraced hif =>
    obtain rfl := hsome hc
    refine Body.edge_branchWrites_alternative hs hsize ?_ htin hunbraced hif ha hlt
    exact Option.bind_eq_some_iff.2 ⟨_, hclause, hd⟩

end Placed

end Indentation
