import Indentation.Construct.Body
import Indentation.Proofs.Construct.Places

/-!
# Bodies are written behind the construct that owns them

A block is anchored to its owner, which begins before it.  What a class, a loop, a branch or a switch
writes names tokens behind its first one.
-/

namespace Indentation.Body

open Cursor TokenStream

/-- The parameters of a method come before everything of it that can hold a block. -/
def ParametersFirst (c : Cursor) : Prop :=
  c.kind = "method_definition" → ∀ parameters, c.fieldChild? "parameters" = some parameters →
    ∀ d ∈ c.children, d.kind = "statement_block" ∨ isGrouping d.kind = true →
      parameters.range.start ≤ d.range.start

def headerParts (c : Cursor) : List Cursor :=
  ["initializer", "condition", "increment"].flatMap c.fieldChildren

/-- The parts of the header of a `for` come after its parenthesis. -/
def PartsBehind (s : TokenStream) (c : Cursor) : Prop :=
  ∀ opening, (s.firstOf? c).bind s.nextCode? = some opening →
    ∀ part ∈ headerParts c, (s.token opening).stop ≤ part.range.start

variable {s : TokenStream} {tree : Node} {c : Cursor} {P : Nat → Prop} (hs : s.Lined)
  (hn : tree.Nested) (hc : c ∈ tree.preorder)
include hs hn hc

/-- The head of the owner of a block is not behind the block. -/
theorem headOf?_owner_le (horder : ∀ o ∈ tree.preorder, ParametersFirst o)
    (hkind : c.kind = "statement_block") {o : Cursor} {i j : Nat} (ho : c.owner? = some o)
    (hi : s.headOf? o = some i) (hj : s.CodeIn c.range j) : i ≤ j := by
  obtain ⟨hot, d, hd, hdc, hor⟩ := exists_child_of_owner? hc ho
  have hdstart := (hn.range_le (Node.mem_preorder_of_child hot hd) hdc).1
  have hostart := (hn.range_le hot (.child hd)).1
  have hjstart := hj.start_le
  have hfirst : ∀ k, s.firstOf? o = some k → k ≤ j := fun k hk =>
    firstCodeIn?_le hs.toOrdered hk hj.lt_size hj.code (by omega)
  rw [headOf?] at hi
  split at hi
  · next hmethod =>
    split at hi
    · next parameters hparameters =>
      have hle := horder o hot hmethod parameters hparameters d hd (by
        rcases hor with rfl | hor
        · exact .inl hkind
        · exact .inr hor)
      exact firstCodeIn?_le hs.toOrdered hi hj.lt_size hj.code (by omega)
    · exact hfirst i hi
  · exact hfirst i hi

theorem within_blockWrites (horder : ∀ o ∈ tree.preorder, ParametersFirst o)
    (hkind : c.kind = "statement_block") (o : IndentOptions) (hP : s.Tail c.range P)
    (hbrace : ∀ i, s.firstOf? c = some i → s.leads i = false → P i) :
    ∀ w ∈ blockWrites s o c, w.Within s P := by
  unfold blockWrites
  split
  · exact List.forall_mem_nil _
  · next span hspan =>
    obtain ⟨hfirst, hlast, hle, -⟩ := spanOfNode?_spec hs.toOrdered hspan
    have hopen := hbrace span.first (spanOf?_eq_some_iff.1 hspan).1
    dsimp only
    generalize hanchor : (if s.leads span.first then span.first
      else (c.owner?.bind s.headOf?).getD span.first) = anchor
    have hale : anchor ≤ span.first := by
      rw [← hanchor]
      split
      · exact Nat.le_refl _
      · cases hhead : c.owner?.bind s.headOf? with
        | none => exact Nat.le_refl _
        | some i =>
          obtain ⟨owner, ho, hi⟩ := Option.bind_eq_some_iff.1 hhead
          exact headOf?_owner_le hs hn hc horder hkind ho hi hfirst
    -- a brace that leads its line is its own anchor
    have hleads : anchor ≠ span.first → s.leads span.first = false := fun h => by
      by_contra hlead
      exact h (by rw [← hanchor, if_pos (by simpa using hlead)])
    intro w hw
    rcases List.mem_cons.1 hw with rfl | hw
    · refine ⟨⟨hfirst.lt_size, hale⟩, ?_⟩
      rintro _ ⟨rfl, hne⟩
      exact hopen (hleads hne)
    · rcases List.mem_append.1 hw with hw | hw
      · exact Write.within_interior hP hfirst hlast _ w hw
      · rw [List.mem_singleton.1 hw]
        refine ⟨⟨hlast.lt_size, Nat.le_trans hale hle⟩, ?_⟩
        rintro _ ⟨rfl, hne⟩
        rcases Nat.eq_or_lt_of_le hle with heq | hlt
        · exact heq ▸ hopen (hleads (heq ▸ hne))
        · exact hP _ _ _ hfirst hlast hlt (Nat.le_refl _)

/-- A body without braces is behind the first token of its statement. -/
theorem within_unbracedWrites {d : Cursor} (hd : Reaches c d) (body : Option Cursor)
    (hbody : ∀ b ∈ body, Reaches d b) (hP : s.Tail c.range P) :
    ∀ w ∈ unbracedWrites s d body, w.Within s P := by
  refine Write.forall_mem_getD fun ws h => ?_
  obtain ⟨b, hb, h⟩ := Option.bind_eq_some_iff.1 h
  split at h
  · cases h
  · obtain ⟨span, hspan, h⟩ := Option.bind_eq_some_iff.1 h
    obtain ⟨anchor, ha, h⟩ := Option.bind_eq_some_iff.1 h
    obtain rfl : _ = ws := Option.some.inj h
    have hdt := Node.mem_preorder_of_reaches hc hd
    have hdr := hn.range_le hc hd
    have hbr := hn.range_le hdt (hbody b hb)
    obtain ⟨hfirst, hlast, -, -⟩ := spanOfNode?_spec hs.toOrdered hspan
    obtain ⟨hain, hmin⟩ := (firstCodeIn?_eq_some_iff hs.toOrdered).1 ha
    have hle := hmin _ (hfirst.mono hbr.1 hbr.2)
    refine Write.within_indentAll hP (hain.mono hdr.1 hdr.2)
      ((hlast.mono hbr.1 hbr.2).mono hdr.1 hdr.2) fun t ht => ?_
    rw [Span.mem_ids] at ht
    omega

theorem within_loopWrites (hP : s.Tail c.range P) : ∀ w ∈ loopWrites s c, w.Within s P :=
  within_unbracedWrites hs hn hc (.refl c) _ (fun _ hb => reaches_of_fieldChild? hb) hP

omit hs hn hc in
theorem reaches_of_alternative? {d : Cursor} (h : alternative? c = some d) : Reaches c d := by
  obtain ⟨clause, hclause, h⟩ := Option.bind_eq_some_iff.1 h
  exact (reaches_of_fieldChild? hclause).trans
    (.child (mem_children_of_mem_properChildren (List.mem_of_head? h)))

/-- The branches of an `else if` are anchored to the `if` behind the `else`. -/
theorem within_branchWrites (hP : s.Tail c.range P) : ∀ w ∈ branchWrites s c, w.Within s P := by
  fun_induction branchWrites s c with
  | case1 c ih =>
    intro w hw
    rcases List.mem_append.1 hw with hw | hw
    · exact within_unbracedWrites hs hn hc (.refl c) _ (fun _ hb => reaches_of_fieldChild? hb) hP w hw
    · split at hw
      · exact absurd hw List.not_mem_nil
      · next d hd =>
        have hreach := reaches_of_alternative? hd
        have hrange := hn.range_le hc hreach
        split at hw
        · exact ih d hd (Node.mem_preorder_of_reaches hc hreach) (hP.mono hrange.1 hrange.2) w hw
        · refine within_unbracedWrites hs hn hc (.refl c) _ (fun b hb => ?_) hP w hw
          rw [← Option.some.inj hb]
          exact hreach

theorem within_headerWrites (hparts : PartsBehind s c) (hP : s.Tail c.range P) :
    ∀ w ∈ headerWrites s c, w.Within s P := by
  unfold headerWrites
  split
  · exact List.forall_mem_nil _
  · next opening hopening =>
    intro w hw
    obtain ⟨span, hspan, hw⟩ := List.mem_flatMap.1 hw
    obtain ⟨part, hpart, hspan⟩ := List.mem_filterMap.1 hspan
    have hpart := (List.mem_filter.1 hpart).1
    obtain ⟨field, -, hfield⟩ := List.mem_flatMap.1 hpart
    have hrange := hn.range_le hc (reaches_of_mem_fieldChildren hfield)
    obtain ⟨hfirst, hlast, -, -⟩ := spanOfNode?_spec hs.toOrdered hspan
    obtain ⟨keyword, hkeyword, hnext⟩ := Option.bind_eq_some_iff.1 hopening
    obtain ⟨hlt, hsize, hcode, -⟩ := nextCode?_some hnext
    have hbehind := hparts opening hopening part hpart
    have hof : opening < span.first := by
      refine hs.lt_of_start_lt hsize ?_
      have := hs.start_lt_stop opening hsize
      have := hfirst.start_le
      omega
    have hlastc := hlast.mono hrange.1 hrange.2
    have hkc := codeIn_of_firstOf? hs.toOrdered hkeyword
    have hin := hkc.between hs.toOrdered (hfirst.mono hrange.1 hrange.2) (Nat.le_of_lt hlt)
      (Nat.le_of_lt hof) hcode
    refine Write.within_indentAll hP hin hlastc (fun t ht => ?_) w hw
    rw [Span.mem_ids] at ht
    omega

theorem within_forWrites (hparts : PartsBehind s c) (hP : s.Tail c.range P) :
    ∀ w ∈ forWrites s c, w.Within s P := by
  intro w hw
  rcases List.mem_append.1 hw with hw | hw
  · exact within_headerWrites hs hn hc hparts hP w hw
  · exact within_loopWrites hs hn hc hP w hw

omit hn hc in
theorem within_classWrites (hP : s.Tail c.range P) : ∀ w ∈ classWrites s c, w.Within s P := by
  unfold classWrites
  split
  · exact List.forall_mem_nil _
  · next span hspan =>
    obtain ⟨hfirst, hlast, hle, -⟩ := spanOfNode?_spec hs.toOrdered hspan
    intro w hw
    rcases List.mem_append.1 hw with hw | hw
    · exact Write.within_interior hP hfirst hlast _ w hw
    · rw [List.mem_singleton.1 hw]
      exact Write.within_align hP hfirst hlast ⟨hle, Nat.le_refl _⟩

omit hs hn hc in
/-- Each token of a case comes after the label that it is anchored to. -/
theorem within_caseWrites {r : Range} {first last : Nat} (hP : s.Tail r P) (hf : s.CodeIn r first)
    (hl : s.CodeIn r last) (labels blocks : List Nat) {tokens : List Nat}
    (htokens : tokens.Pairwise (· < ·)) (hin : ∀ t ∈ tokens, first < t ∧ t ≤ last) {label : Nat}
    (hlabel : ∀ t ∈ tokens, label ≤ t) :
    ∀ w ∈ caseWrites s labels blocks label tokens, w.Within s P := by
  induction tokens generalizing label with
  | nil => exact List.forall_mem_nil _
  | cons token tokens ih =>
    obtain ⟨hlt, htokens⟩ := List.pairwise_cons.1 htokens
    obtain ⟨hfirst, hlast⟩ := hin token List.mem_cons_self
    have hsize := Nat.lt_of_le_of_lt hlast hl.lt_size
    have hin' : ∀ t ∈ tokens, first < t ∧ t ≤ last := fun t ht => hin t (List.mem_cons_of_mem _ ht)
    have hlater : ∀ w ∈ caseWrites s labels blocks label tokens, w.Within s P :=
      ih htokens hin' fun t ht => hlabel t (List.mem_cons_of_mem _ ht)
    intro w hw
    rw [caseWrites] at hw
    split at hw
    · exact ih htokens hin' (fun t ht => Nat.le_of_lt (hlt t ht)) w hw
    · dsimp only at hw
      split at hw
      · rcases List.mem_cons.1 hw with rfl | hw
        · exact Write.within_exempt hsize
        · exact hlater w hw
      · split at hw
        · exact hlater w hw
        · rcases List.mem_cons.1 hw with rfl | hw
          · refine ⟨⟨hsize, fun a ha => ?_⟩, ?_⟩
            · obtain rfl : label = a := by simpa using ha
              exact hlabel token List.mem_cons_self
            · rintro _ ⟨rfl, -⟩
              exact hP _ _ _ hf hl hfirst hlast
          · exact hlater w hw

theorem within_switchWrites (o : IndentOptions) (hP : s.Tail c.range P) :
    ∀ w ∈ switchWrites s o c, w.Within s P := by
  refine Write.forall_mem_getD fun ws h => ?_
  obtain ⟨body, hbody, h⟩ := Option.bind_eq_some_iff.1 h
  obtain ⟨span, hspan, h⟩ := Option.bind_eq_some_iff.1 h
  obtain rfl : _ = ws := Option.some.inj h
  have hrange := hn.range_le hc (reaches_of_fieldChild? hbody)
  obtain ⟨hfirst, hlast, -, -⟩ := spanOfNode?_spec hs.toOrdered hspan
  have hfirst := hfirst.mono hrange.1 hrange.2
  have hlast := hlast.mono hrange.1 hrange.2
  intro w hw
  rcases List.mem_append.1 hw with hw | hw
  · exact Write.within_interior hP hfirst hlast _ w hw
  · refine within_caseWrites hP hfirst hlast _ _ ?_ (fun t ht => ?_) (fun t ht => ?_) w hw
    · exact (List.pairwise_lt_range' _).filter _
    · rw [Span.mem_interior] at ht
      omega
    · rw [Span.mem_interior] at ht
      omega

end Indentation.Body
