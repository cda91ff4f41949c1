import Indentation.Construct.Callable
import Indentation.Construct.Declaration
import Indentation.Construct.Operation
import Indentation.Proofs.Construct.Lists

/-!
# Expressions are written behind what they begin with

An assignment is anchored to its target, a call to its opening parenthesis, an access to its object
and a substitution to the part of the template before it.
-/

namespace Indentation

open Cursor TokenStream

namespace TokenStream

variable {s : TokenStream}

theorem mem_codeBetween {after before t : Nat} :
    t ∈ s.codeBetween after before ↔ (after < t ∧ t < before) ∧ s.isComment t = false := by
  simp only [codeBetween, List.mem_filter, List.mem_range'_1, Bool.not_eq_true']
  exact and_congr_left fun _ => by omega

end TokenStream

variable {s : TokenStream} {tree : Node} {c : Cursor} {P : Nat → Prop}

namespace Callable

/-- What is called comes before its arguments. -/
def CalleeFirst (field : String) (c : Cursor) : Prop :=
  ∀ callee, c.fieldChild? field = some callee → ∀ arguments, c.fieldChild? "arguments" = some arguments →
    callee.range.stop ≤ arguments.range.start

theorem within_exemptStarts (hs : s.Ordered) (nodes : List Cursor) :
    ∀ w ∈ exemptStarts s nodes, w.Within s P := by
  intro w hw
  obtain ⟨node, -, hw⟩ := List.mem_filterMap.1 hw
  obtain ⟨t, ht, rfl⟩ := Option.map_eq_some_iff.1 hw
  exact Write.within_exempt (codeIn_of_firstOf? hs ht).lt_size

variable (hs : s.Lined) (hn : tree.Nested) (hc : c ∈ tree.preorder)
include hs hn hc

omit hs hn hc in
/-- Parameters are children of one place below the function. -/
theorem parameters_sublist :
    ∃ d, Reaches c d ∧ (parameters c).Sublist d.children ∧
      ∀ l, c.fieldChild? "parameters" = some l → d = l := by
  unfold parameters
  split
  · next l hl =>
    exact ⟨l, reaches_of_fieldChild? hl, properChildren_sublist l, fun l' hl' => by simpa [hl] using hl'⟩
  · next hnone =>
    refine ⟨c, .refl c, ?_, fun l hl => by simp [hnone] at hl⟩
    cases h : c.fieldChild? "parameter" with
    | none => exact List.nil_sublist _
    | some p => exact List.singleton_sublist.2 (mem_children_of_fieldChild h)

/-- The head of a function is before its parameters. -/
theorem headOf?_le {e : Cursor} {head i : Nat} (hhead : s.headOf? c = some head)
    (he : e ∈ parameters c) (hi : s.CodeIn e.range i) : head ≤ i := by
  obtain ⟨d, hd, hsub, hlist⟩ := parameters_sublist (c := c)
  have hrange := hn.range_le hc hd
  have hrange' := hn.range_le (Node.mem_preorder_of_reaches hc hd) (.child (hsub.subset he))
  have hid := hi.mono hrange'.1 hrange'.2
  have hfirst : ∀ k, s.firstOf? c = some k → k ≤ i := fun k hk =>
    ((firstCodeIn?_eq_some_iff hs.toOrdered).1 hk).2 i (hid.mono hrange.1 hrange.2)
  rw [headOf?] at hhead
  split at hhead
  · split at hhead
    · next l hl =>
      rw [hlist l hl] at hid
      exact ((firstCodeIn?_eq_some_iff hs.toOrdered).1 hhead).2 i hid
    · exact hfirst head hhead
  · exact hfirst head hhead

theorem codeIn_of_headOf? {head : Nat} (hhead : s.headOf? c = some head) :
    s.CodeIn c.range head := by
  rw [headOf?] at hhead
  split at hhead
  · split at hhead
    · next l hl =>
      have hrange := hn.range_le hc (reaches_of_fieldChild? hl)
      exact (codeIn_of_firstOf? hs.toOrdered hhead).mono hrange.1 hrange.2
    · exact codeIn_of_firstOf? hs.toOrdered hhead
  · exact codeIn_of_firstOf? hs.toOrdered hhead

omit hs hn hc in
/-- What the span of the parameters is read off. -/
theorem parameterSpan?_some {span : Span} (h : parameterSpan? s c = some span) :
    ∃ body bodyStart opening closing head, c.fieldChild? "body" = some body ∧
      s.firstOf? body.bare = some bodyStart ∧
      (match (parameters c).head? with
        | some p => (s.firstOf? p).bind s.prevCode?
        | none => (s.prevCode? bodyStart).bind s.prevCode?) = some opening ∧
      s.prevCode? bodyStart = some closing ∧ s.headOf? c = some head ∧
      max opening head ≤ closing ∧ span = ⟨max opening head, closing⟩ := by
  obtain ⟨body, hbody, h⟩ := Option.bind_eq_some_iff.1 h
  obtain ⟨bodyStart, hstart, h⟩ := Option.bind_eq_some_iff.1 h
  refine ⟨body, bodyStart, ?_⟩
  cases hhead? : (parameters c).head? <;> rw [hhead?] at h
  all_goals
    obtain ⟨f, hf, h⟩ := Option.bind_eq_some_iff.1 h
    obtain ⟨opening, hopening, h⟩ := Option.bind_eq_some_iff.1 h
    obtain ⟨closing, hclosing, h⟩ := Option.bind_eq_some_iff.1 h
    obtain ⟨head, hhead, h⟩ := Option.bind_eq_some_iff.1 h
    split at h
    · next hle =>
      exact ⟨opening, closing, head, hbody, hstart, Option.bind_eq_some_iff.2 ⟨f, hf, hopening⟩, hclosing, hhead, hle,
        (Option.some.inj h).symm⟩
    · cases h

/-- The parameters of a function stand between two of its tokens before the body. -/
theorem parameterSpan?_spec {span : Span} (h : parameterSpan? s c = some span) :
    s.CodeIn c.range span.first ∧ s.CodeIn c.range span.last ∧ span.first ≤ span.last ∧
      ∀ e ∈ parameters c, ∀ i, s.CodeIn e.range i → span.first ≤ i := by
  obtain ⟨body, bodyStart, opening, closing, head, hbody, hstart, hopening, hclosing, hhead, hle, rfl⟩ :=
    parameterSpan?_some h
  have hrange := hn.range_le hc (reaches_bare_of_fieldChild? hbody)
  have hstartc := (codeIn_of_firstOf? hs.toOrdered hstart).mono hrange.1 hrange.2
  have hheadc := codeIn_of_headOf? hs hn hc hhead
  obtain ⟨hclt, hccode, -⟩ := prevCode?_some hclosing
  have hlast : s.CodeIn c.range closing :=
    hheadc.between hs.toOrdered hstartc (by omega) (by omega) hccode
  have hocode : s.isComment opening = false := by
    split at hopening
    all_goals
      obtain ⟨f, -, hprev⟩ := Option.bind_eq_some_iff.1 hopening
      exact (prevCode?_some hprev).2.1
  refine ⟨?_, hlast, hle, fun e he i hi => Nat.max_le.2 ⟨?_, headOf?_le hs hn hc hhead he hi⟩⟩
  · rcases Nat.le_total opening head with hoh | hoh
    · rwa [Nat.max_eq_right hoh]
    · rw [Nat.max_eq_left hoh]
      exact hheadc.between hs.toOrdered hlast hoh (Nat.le_trans (Nat.le_max_left _ _) hle) hocode
  · obtain ⟨d, hd, hsub, -⟩ := parameters_sublist (c := c)
    have hpair := (hn.ordered d (Node.mem_preorder_of_reaches hc hd)).sublist hsub
    cases hps : parameters c with
    | nil => simp [hps] at he
    | cons p rest =>
      rw [hps] at he hpair hopening
      obtain ⟨f, hf, hprev⟩ := Option.bind_eq_some_iff.1 hopening
      have hlt := (prevCode?_some hprev).1
      obtain ⟨hfin, hfmin⟩ := (firstCodeIn?_eq_some_iff hs.toOrdered).1 hf
      rcases List.mem_cons.1 he with rfl | he
      · have := hfmin i hi
        omega
      · have := lt_of_stop_le_start hs.toOrdered hfin hi ((List.pairwise_cons.1 hpair).1 e he)
        omega

theorem within_parameterWrites (offset : Option ListOffset) (hP : s.Tail c.range P) :
    ∀ w ∈ parameterWrites s offset c, w.Within s P := by
  unfold parameterWrites
  split
  · exact List.forall_mem_nil _
  · next span hspan =>
    obtain ⟨hfirst, hlast, hle, hbehind⟩ := parameterSpan?_spec hs hn hc hspan
    obtain ⟨d, hd, hsub, -⟩ := parameters_sublist (c := c)
    have hrange := hn.range_le hc hd
    intro w hw
    rcases List.mem_cons.1 hw with rfl | hw
    · exact Write.within_bracket hfirst.lt_size
    rcases List.mem_cons.1 hw with rfl | hw
    · exact Write.within_bracket hlast.lt_size
    rcases List.mem_append.1 hw with hw | hw
    · refine Sequence.within_writes hs hfirst ⟨?_, ?_⟩ hP hlast hle _ w hw
      · rw [Sequence.filterMap_map_some]
        exact (hn.ordered d (Node.mem_preorder_of_reaches hc hd)).sublist hsub
      · rw [Sequence.filterMap_map_some]
        intro e he i hi
        have hrange' := hn.range_le (Node.mem_preorder_of_reaches hc hd) (.child (hsub.subset he))
        exact ⟨(hi.mono hrange'.1 hrange'.2).mono hrange.1 hrange.2, hbehind e he i hi⟩
    · split at hw
      · exact within_exemptStarts hs.toOrdered _ w hw
      · exact absurd hw List.not_mem_nil

theorem within_expressionBody (hP : s.Tail c.range P) : ∀ w ∈ expressionBody s c, w.Within s P := by
  refine Write.forall_mem_getD fun ws h => ?_
  obtain ⟨body, hbody, h⟩ := Option.bind_eq_some_iff.1 h
  split at h
  · cases h
  · obtain ⟨span, hspan, h⟩ := Option.bind_eq_some_iff.1 h
    obtain ⟨first, hfirst, h⟩ := Option.bind_eq_some_iff.1 h
    obtain rfl : _ = ws := Option.some.inj h
    have hrange := hn.range_le hc (reaches_bare_of_fieldChild? hbody)
    obtain ⟨hsf, hsl, -, -⟩ := spanOfNode?_spec hs.toOrdered hspan
    obtain ⟨hin, hmin⟩ := (firstCodeIn?_eq_some_iff hs.toOrdered).1 hfirst
    have hle := hmin _ (hsf.mono hrange.1 hrange.2)
    refine Write.within_indentAll hP hin (hsl.mono hrange.1 hrange.2) fun t ht => ?_
    rw [Span.mem_ids] at ht
    omega

theorem within_arrowWrites (offset : Option ListOffset) (hP : s.Tail c.range P) :
    ∀ w ∈ arrowWrites s offset c, w.Within s P := by
  intro w hw
  rcases List.mem_append.1 hw with hw | hw
  · exact within_parameterWrites hs hn hc offset hP w hw
  · exact within_expressionBody hs hn hc hP w hw

theorem within_openingWrite {field : String} {arguments : Cursor} {opening : Nat}
    (horder : CalleeFirst field c) (hargs : c.fieldChild? "arguments" = some arguments)
    (hopening : s.CodeIn arguments.range opening) (hP : s.Tail c.range P) :
    ∀ w ∈ openingWrite s field opening c, w.Within s P := by
  intro w hw
  obtain ⟨last, hlast, rfl⟩ := Option.map_eq_some_iff.1 (Option.mem_toList.1 hw)
  obtain ⟨callee, hcallee, hlast⟩ := Option.bind_eq_some_iff.1 hlast
  have hcr := hn.range_le hc (reaches_bare_of_fieldChild? hcallee)
  have har := hn.range_le hc (reaches_of_fieldChild? hargs)
  have hlastin := codeIn_of_lastOf? hs.toOrdered hlast
  have hbare := hn.range_le (Node.mem_preorder_of_child hc (mem_children_of_fieldChild hcallee))
    (reaches_bare callee)
  have hlt := lt_of_stop_le_start hs.toOrdered (hlastin.mono hbare.1 hbare.2) hopening
    (horder callee hcallee arguments hargs)
  exact Write.within_align hP (hlastin.mono hcr.1 hcr.2) (hopening.mono har.1 har.2)
    ⟨Nat.le_of_lt hlt, Nat.le_refl _⟩

theorem within_argumentWrites (offset : Option ListOffset) {field : String}
    (horder : CalleeFirst field c) (hP : s.Tail c.range P) :
    ∀ w ∈ argumentWrites s offset field c, w.Within s P := by
  refine Write.forall_mem_getD fun ws h => ?_
  obtain ⟨arguments, hargs, h⟩ := Option.bind_eq_some_iff.1 h
  split at h
  · cases h
  · obtain ⟨opening, hopening, h⟩ := Option.bind_eq_some_iff.1 h
    obtain ⟨last, hlast, h⟩ := Option.bind_eq_some_iff.1 h
    obtain rfl : _ = ws := Option.some.inj h
    have hreach := reaches_of_fieldChild? hargs
    have hrange := hn.range_le hc hreach
    obtain ⟨hoin, homin⟩ := (firstCodeIn?_eq_some_iff hs.toOrdered).1 hopening
    obtain ⟨hlin, hlmax⟩ := (lastCodeIn?_eq_some_iff hs.toOrdered).1 hlast
    have hoc := hoin.mono hrange.1 hrange.2
    intro w hw
    rcases List.mem_cons.1 hw with rfl | hw
    · exact Write.within_bracket hoin.lt_size
    rcases List.mem_cons.1 hw with rfl | hw
    · exact Write.within_bracket hlin.lt_size
    rcases List.mem_append.1 hw with hw | hw
    · rcases List.mem_append.1 hw with hw | hw
      · exact within_openingWrite hs hn hc horder hargs hoin hP w hw
      · refine Sequence.within_writes hs hoc ?_ hP hlin (hlmax _ hoc) _ w hw
        refine Sequence.elements_of_sublist hn hc hreach ?_ fun i hi _ => homin i hi
        rw [Sequence.filterMap_map_some]
        exact properChildren_sublist arguments
    · split at hw
      · exact within_exemptStarts hs.toOrdered _ w hw
      · exact absurd hw List.not_mem_nil

end Callable

namespace Operation

/-- What is assigned to comes before the operator. -/
def TargetFirst (c : Cursor) : Prop :=
  ∀ left, c.fieldChild? "left" = some left →
    ∀ operator, (c.fieldChild? "operator").or (c.tokenChild? "=") = some operator →
      left.range.stop ≤ operator.range.start

variable (hs : s.Lined) (hn : tree.Nested) (hc : c ∈ tree.preorder)
include hs hn hc

omit hs in
theorem startOf?_le {d : Cursor} {i : Nat} (hs : s.Ordered) (hd : Reaches c d)
    (h : s.startOf? d = some i) :
    i < s.size ∧ (s.token i).start = d.range.start ∧ c.range.start ≤ (s.token i).start := by
  obtain ⟨hlt, heq⟩ := (startingAt?_eq_some_iff hs).1 h
  exact ⟨hlt, heq, heq ▸ (hn.range_le hc hd).1⟩

/-- What follows the operator is behind the first operand. -/
theorem firstOf?_le_after {operator after first : Nat} (hoperator : operatorStart? s c = some operator)
    (hafter : s.nextCode? operator = some after) (hfirst : s.firstOf? c = some first) :
    first ≤ after := by
  obtain ⟨d, hd, hstart⟩ := Option.bind_eq_some_iff.1 hoperator
  obtain ⟨hlt, -, hle⟩ := startOf?_le hn hc hs.toOrdered (reaches_of_fieldChild? hd) hstart
  obtain ⟨hoa, hsize, hcode, -⟩ := nextCode?_some hafter
  refine firstCodeIn?_le hs.toOrdered hfirst hsize hcode ?_
  exact Nat.le_trans hle (Nat.le_of_lt (hs.start_lt_start hoa hsize))

theorem within_binaryWrites (hP : s.Tail c.range P)
    (hright : ∀ after, (operatorStart? s c).bind s.nextCode? = some after → P after) : ∀ w ∈ binaryWrites s c, w.Within s P := by
  refine Write.forall_mem_getD fun ws h => ?_
  obtain ⟨operator, hoperator, h⟩ := Option.bind_eq_some_iff.1 h
  obtain ⟨after, hafter, h⟩ := Option.bind_eq_some_iff.1 h
  obtain ⟨first, hfirst, h⟩ := Option.bind_eq_some_iff.1 h
  obtain ⟨last, hlast, h⟩ := Option.bind_eq_some_iff.1 h
  obtain rfl : _ = ws := Option.some.inj h
  obtain ⟨hlt, hsize, hcode, -⟩ := nextCode?_some hafter
  have hle := firstOf?_le_after hs hn hc hoperator hafter hfirst
  intro w hw
  rcases List.mem_cons.1 hw with rfl | hw
  · exact Write.within_exempt (Nat.lt_trans hlt hsize)
  rcases List.mem_cons.1 hw with rfl | hw
  · exact Write.within_exempt hsize
  rcases List.mem_cons.1 hw with rfl | hw
  · refine ⟨⟨hsize, fun a ha => ?_⟩, ?_⟩
    · obtain rfl : first = a := by simpa using ha
      exact hle
    · rintro _ ⟨rfl, -⟩
      exact hright _ (Option.bind_eq_some_iff.2 ⟨operator, hoperator, hafter⟩)
  · split at hw
    · next hal =>
      have hin := codeIn_of_firstOf? hs.toOrdered hfirst
      have hlin := codeIn_of_lastOf? hs.toOrdered hlast
      have hain := hin.between hs.toOrdered hlin hle (Nat.le_of_lt hal) hcode
      exact Write.within_tail hP hain hlin 1 w hw
    · exact absurd hw List.not_mem_nil

theorem within_assignmentWrites (horder : TargetFirst c) (hP : s.Tail c.range P) :
    ∀ w ∈ assignmentWrites s c, w.Within s P := by
  refine Write.forall_mem_getD fun ws h => ?_
  obtain ⟨left, hleft, h⟩ := Option.bind_eq_some_iff.1 h
  obtain ⟨operator, hoperator, h⟩ := Option.bind_eq_some_iff.1 h
  obtain ⟨target, htarget, h⟩ := Option.bind_eq_some_iff.1 h
  obtain ⟨last, hlast, h⟩ := Option.bind_eq_some_iff.1 h
  split at h
  · cases h
  · next hle =>
    obtain rfl : _ = ws := Option.some.inj h
    obtain ⟨d, hd, hstart⟩ := Option.bind_eq_some_iff.1 hoperator
    obtain ⟨hsize, heq⟩ := (startingAt?_eq_some_iff hs.toOrdered).1 hstart
    have hbr := hn.range_le (Node.mem_preorder_of_child hc (mem_children_of_fieldChild hleft))
      (reaches_bare left)
    have hcr := hn.range_le hc (reaches_bare_of_fieldChild? hleft)
    have htin := codeIn_of_firstOf? hs.toOrdered htarget
    have hlin := codeIn_of_lastOf? hs.toOrdered hlast
    have hlt : target < operator := by
      refine hs.lt_of_start_lt htin.lt_size ?_
      have := horder left hleft d hd
      have := hs.start_lt_stop target htin.lt_size
      have := htin.le_stop
      omega
    have hsizel := hlin.lt_size
    intro w hw
    rcases List.mem_append.1 hw with hw | hw
    · refine Write.within_indentAll hP (htin.mono hcr.1 hcr.2) hlin (fun t ht => ?_) w hw
      simp only [Span.mem_ids] at ht
      omega
    · rcases List.mem_cons.1 hw with rfl | hw
      · exact Write.within_exempt hsize
      · obtain ⟨t, ht, rfl⟩ := Option.map_eq_some_iff.1 (Option.mem_toList.1 hw)
        simp only [Span.nth?_eq_some_iff] at ht
        exact Write.within_exempt (by omega)

omit hn hc in
theorem within_conditionalWrites (hP : s.Tail c.range P) :
    ∀ w ∈ conditionalWrites s c, w.Within s P := by
  unfold conditionalWrites
  split
  · exact List.forall_mem_nil _
  · next span hspan =>
    obtain ⟨hfirst, hlast, -, -⟩ := spanOfNode?_spec hs.toOrdered hspan
    exact Write.within_tail hP hfirst hlast 1

omit hs hn hc in
theorem accessStart?_some {object property : Cursor} {access : Nat}
    (h : accessStart? s object property = some access) :
    ∃ last first, s.lastOf? object = some last ∧ s.firstOf? property = some first ∧ last < access ∧
      access < first ∧ s.isComment access = false := by
  obtain ⟨last, hlast, h⟩ := Option.bind_eq_some_iff.1 h
  obtain ⟨first, hfirst, h⟩ := Option.bind_eq_some_iff.1 h
  have hmem := mem_codeBetween.1 (List.mem_of_find?_eq_some h)
  exact ⟨last, first, hlast, hfirst, hmem.1.1, hmem.1.2, hmem.2⟩

theorem within_memberWrites (levels : Option Nat) (hP : s.Tail c.range P) :
    ∀ w ∈ memberWrites s levels c, w.Within s P := by
  refine Write.forall_mem_getD fun ws h => ?_
  obtain ⟨object, hobject, h⟩ := Option.bind_eq_some_iff.1 h
  obtain ⟨property, hproperty, h⟩ := Option.bind_eq_some_iff.1 h
  obtain ⟨objectFirst, hof, h⟩ := Option.bind_eq_some_iff.1 h
  obtain ⟨last, hlast, h⟩ := Option.bind_eq_some_iff.1 h
  obtain ⟨access, haccess, h⟩ := Option.bind_eq_some_iff.1 h
  obtain rfl : _ = ws := Option.some.inj h
  obtain ⟨objectLast, propertyFirst, hol, hpf, hoa, hap, hcode⟩ := accessStart?_some haccess
  have hpreach : Reaches c property := by
    rcases Option.or_eq_some_iff.1 hproperty with h | ⟨-, h⟩
    · exact reaches_of_fieldChild? h
    · exact reaches_of_fieldChild? h
  have hor := hn.range_le hc (reaches_bare_of_fieldChild? hobject)
  have hpr := hn.range_le hc (hpreach.trans (reaches_bare property))
  obtain ⟨hofin, hofmin⟩ := (firstCodeIn?_eq_some_iff hs.toOrdered).1 hof
  have holin := codeIn_of_lastOf? hs.toOrdered hol
  obtain ⟨hlin, hlmax⟩ := (lastCodeIn?_eq_some_iff hs.toOrdered).1 hlast
  have hpin := (codeIn_of_firstOf? hs.toOrdered hpf).mono hpr.1 hpr.2
  have hain := (holin.mono hor.1 hor.2).between hs.toOrdered hpin (Nat.le_of_lt hoa)
    (Nat.le_of_lt hap) hcode
  have hle := hofmin _ holin
  have hal := hlmax _ hain
  intro w hw
  rcases List.mem_append.1 hw with hw | hw
  · exact Write.within_tail hP hain hlin 0 w hw
  · obtain ⟨t, ht, hw⟩ := List.mem_flatMap.1 hw
    have ht : access ≤ t ∧ t ≤ last := by
      rcases List.mem_cons.1 ht with rfl | ht
      · exact ⟨Nat.le_refl _, hal⟩
      · rw [Option.mem_toList, Span.nth?_eq_some_iff] at ht
        simp only at ht
        omega
    have hsize := Nat.lt_of_le_of_lt ht.2 hlin.lt_size
    unfold leadWrites at hw
    split at hw
    · rw [List.mem_singleton.1 hw]
      exact Write.within_indent hP (hofin.mono hor.1 hor.2) hlin (by omega) _
    · rcases List.mem_cons.1 hw with rfl | hw
      · refine ⟨⟨hsize, hs.leaderOf_le hsize⟩, ?_⟩
        rintro _ ⟨rfl, -⟩
        exact hP _ _ _ (hofin.mono hor.1 hor.2) hlin (by omega) ht.2
      · rw [List.mem_singleton.1 hw]
        exact Write.within_exempt hsize

omit hs hn hc in
theorem within_propertyWrites : ∀ w ∈ propertyWrites s c, w.Within s P := by
  unfold propertyWrites
  split
  · exact List.forall_mem_nil _
  · intro w hw
    obtain ⟨t, ht, rfl⟩ := Option.map_eq_some_iff.1 (Option.mem_toList.1 hw)
    obtain ⟨colon, -, hnext⟩ := Option.bind_eq_some_iff.1 ht
    exact Write.within_exempt (nextCode?_some hnext).2.1

/-! ## Templates -/

def substitutions (c : Cursor) : List Cursor :=
  c.children.filter fun d => d.kind == "template_substitution"

omit hc in
theorem closing?_spec {d : Cursor} {next : Nat} (hd : d ∈ tree.preorder)
    (h : closing? s d = some next) :
    next < s.size ∧ d.range.start ≤ (s.token next).start ∧ (s.token next).start ≤ d.range.stop := by
  obtain ⟨e, he, hstart⟩ := Option.bind_eq_some_iff.1 h
  have hreach : Reaches d e := .child (List.mem_filter.1 (List.mem_of_getLast? he)).1
  obtain ⟨hlt, heq, hle⟩ := startOf?_le hn hd hs.toOrdered hreach hstart
  have := (hn.range_le hd hreach).2
  have := e.range.start_le_stop
  exact ⟨hlt, hle, by omega⟩

omit hc in
/-- Each substitution is anchored to the part of the template before it. -/
theorem within_substitutionWrites {subs : List Cursor} {part : Nat}
    (hsubs : subs.Pairwise fun d e => d.range.stop ≤ e.range.start)
    (hin : ∀ d ∈ subs, d ∈ tree.preorder) (hpart : part < s.size)
    (hstart : ∀ d ∈ subs, (s.token part).start ≤ d.range.start)
    (hP : ∀ d ∈ subs, ∀ next, closing? s d = some next → ∀ t, t ≤ next →
      part < t ∨ t = next → P t) :
    ∀ w ∈ substitutionWrites s part subs, w.Within s P := by
  induction subs generalizing part with
  | nil => exact List.forall_mem_nil _
  | cons d subs ih =>
    obtain ⟨hd, hsubs⟩ := List.pairwise_cons.1 hsubs
    unfold substitutionWrites
    split
    · exact List.forall_mem_nil _
    · next next hnext =>
      obtain ⟨hsize, hdn, hnd⟩ := closing?_spec hs hn (hin d List.mem_cons_self) hnext
      have hpd := hstart d List.mem_cons_self
      have hle : part ≤ next := by
        by_contra hlt
        have := hs.start_lt_start (Nat.lt_of_not_le hlt) hpart
        omega
      have hPd := hP d List.mem_cons_self next hnext
      dsimp only
      generalize hanchor : (if (s.token part).startLine = (s.token part).endLine then some part
        else none) = anchor
      have hap : ∀ a ∈ anchor, a = part := by
        intro a ha
        rw [← hanchor] at ha
        split at ha
        · simpa using ha.symm
        · cases ha
      intro w hw
      rcases List.mem_append.1 hw with hw | hw
      · obtain ⟨t, ht, rfl⟩ := List.mem_map.1 hw
        have ht := (mem_codeBetween.1 ht).1
        refine ⟨⟨by omega, fun a ha => by rw [hap a ha]; omega⟩, ?_⟩
        rintro _ ⟨rfl, -⟩
        exact hPd _ (by omega) (.inl ht.1)
      rcases List.mem_cons.1 hw with rfl | hw
      · refine ⟨⟨hsize, fun a ha => hap a ha ▸ hle⟩, ?_⟩
        rintro _ ⟨rfl, -⟩
        exact hPd _ (Nat.le_refl _) (.inr rfl)
      · refine ih hsubs (fun e he => hin e (List.mem_cons_of_mem _ he)) hsize (fun e he => ?_)
          (fun e he next' hnext' t ht hor => ?_) w hw
        · exact Nat.le_trans hnd (hd e he)
        · exact hP e (List.mem_cons_of_mem _ he) next' hnext' t ht (hor.imp_left (by omega))

theorem within_templateWrites
    (hP : ∀ part, s.startOf? c = some part → ∀ d ∈ substitutions c, ∀ next,
      closing? s d = some next → ∀ t, t ≤ next → part < t ∨ t = next → P t) :
    ∀ w ∈ templateWrites s c, w.Within s P := by
  unfold templateWrites
  split
  · exact List.forall_mem_nil _
  · next part hpart =>
    obtain ⟨hsize, heq⟩ := (startingAt?_eq_some_iff hs.toOrdered).1 hpart
    have hsub : (substitutions c).Sublist c.children := List.filter_sublist
    refine within_substitutionWrites hs hn ((hn.ordered c hc).sublist hsub) (fun d hd => ?_) hsize
      (fun d hd => ?_) (hP part hpart)
    · exact Node.mem_preorder_of_child hc (hsub.subset hd)
    · exact heq ▸ (hn.range_le hc (.child (hsub.subset hd))).1

end Operation

namespace Declaration

variable (hs : s.Lined)
include hs

theorem within_writes (o : IndentOptions) (hP : s.Tail c.range P) :
    ∀ w ∈ writes s o c, w.Within s P := by
  unfold writes
  split
  · exact List.forall_mem_nil _
  · next span hspan =>
    obtain ⟨hfirst, hlast, -, -⟩ := spanOfNode?_spec hs.toOrdered hspan
    intro w hw
    rcases List.mem_append.1 hw with hw | hw
    · exact Write.within_tail hP hfirst hlast _ w hw
    · split at hw
      · rw [List.mem_singleton.1 hw]
        exact Write.within_exempt hlast.lt_size
      · exact absurd hw List.not_mem_nil

theorem within_declaratorWrites : ∀ w ∈ declaratorWrites s c, w.Within s P := by
  intro w hw
  obtain ⟨t, ht, rfl⟩ := Option.map_eq_some_iff.1 (Option.mem_toList.1 hw)
  obtain ⟨value, -, hvalue⟩ := Option.bind_eq_some_iff.1 ht
  exact Write.within_exempt (codeIn_of_firstOf? hs.toOrdered hvalue).lt_size

omit hs in
/-- Nothing moves but the initial value of the first of several declarators. -/
theorem isFirstOfSeveral_of_mem_shiftWrites (o : IndentOptions) :
    ∀ w ∈ shiftWrites s o c, ∃ declaration, c.parent? = some declaration ∧
      isFirstOfSeveral declaration c = true ∧ ∃ value, c.fieldChild? "value" = some value ∧
        ∃ span, s.spanOfNode? value.bare = some span ∧
          w = .shift span (o.declarators.of (keyword declaration)) := by
  refine Write.forall_mem_getD fun ws h w hw => ?_
  obtain ⟨declaration, hparent, h⟩ := Option.bind_eq_some_iff.1 h
  split at h
  · next hfirst =>
    obtain ⟨value, hvalue, h⟩ := Option.bind_eq_some_iff.1 h
    obtain ⟨span, hspan, h⟩ := Option.bind_eq_some_iff.1 h
    obtain rfl : _ = ws := Option.some.inj h
    exact ⟨declaration, hparent, hfirst, value, hvalue, span, hspan, List.mem_singleton.1 hw⟩
  · cases h

omit hs in
theorem exists_of_mem_shiftWrites (o : IndentOptions) :
    ∀ w ∈ shiftWrites s o c, ∃ value span levels, c.fieldChild? "value" = some value ∧
      s.spanOfNode? value.bare = some span ∧ w = .shift span levels := by
  intro w hw
  obtain ⟨declaration, -, -, value, hvalue, span, hspan, heq⟩ :=
    isFirstOfSeveral_of_mem_shiftWrites o w hw
  exact ⟨value, span, _, hvalue, hspan, heq⟩

theorem within_shiftWrites (o : IndentOptions)
    (hP : ∀ value, c.fieldChild? "value" = some value → ∀ span, s.spanOfNode? value.bare = some span →
      ∀ t, span.first ≤ t → t ≤ span.last → P t) :
    ∀ w ∈ shiftWrites s o c, w.Within s P := by
  intro w hw
  obtain ⟨value, span, levels, hvalue, hspan, rfl⟩ := exists_of_mem_shiftWrites o w hw
  refine ⟨(spanOfNode?_spec hs.toOrdered hspan).2.1.lt_size, fun t ht => ?_⟩
  exact hP value hvalue span hspan t ht.1 ht.2

end Declaration

end Indentation
