import Indentation.Construct.Owner
import Indentation.Construct.Sequence
import Indentation.Proofs.Layout.Forward
import Indentation.Proofs.Token.Rows
import Indentation.Proofs.Tree.Nested

/-!
# Writes between the tokens of a place

What a construct writes is anchored to a token of its place, and names tokens of it that come later.
The facts about places and tokens that its parts share are collected here.
-/

namespace Indentation

open Cursor

namespace Cursor

/-- Between a place and its owner there are only nodes that group. -/
theorem owner?_of_mem_children {c d : Cursor} (h : d ∈ c.children) :
    d.owner? = if isGrouping c.kind then c.owner? else some c := by
  have hparent := parent?_of_mem_children h
  obtain ⟨node, trail⟩ := d
  cases trail with
  | nil => cases hparent
  | cons step trail =>
    obtain rfl : (⟨step.parent, trail⟩ : Cursor) = c := by simpa [parent?] using hparent
    rfl

/-- The owner of a place has a child that groups it, unless the place is a child itself. -/
theorem exists_child_of_owner? {tree : Node} {c o : Cursor} (hc : c ∈ tree.preorder)
    (ho : c.owner? = some o) :
    o ∈ tree.preorder ∧ ∃ d ∈ o.children, Reaches d c ∧ (d = c ∨ isGrouping d.kind = true) := by
  have hroot := Node.mem_preorder_iff.1 hc
  clear hc
  induction hroot with
  | refl => cases ho
  | @tail b c hb hbc ih =>
    rw [owner?_of_mem_children hbc] at ho
    split at ho
    · next hgroup =>
      obtain ⟨hot, d, hd, hdb, hor⟩ := ih ho
      refine ⟨hot, d, hd, hdb.trans (.child hbc), .inr ?_⟩
      rcases hor with rfl | hor
      · exact hgroup
      · exact hor
    · obtain rfl : b = o := by simpa using ho
      exact ⟨Node.mem_preorder_iff.2 hb, c, hbc, .refl c, .inl rfl⟩

theorem properChildren_sublist (c : Cursor) : c.properChildren.Sublist c.children :=
  List.filter_sublist.trans List.filter_sublist

theorem reaches_of_mem_fieldChildren {c d : Cursor} {field : String}
    (h : d ∈ c.fieldChildren field) : Reaches c d := .child (List.mem_filter.1 h).1

theorem reaches_of_fieldChild? {c d : Cursor} {field : String} (h : c.fieldChild? field = some d) :
    Reaches c d := .child (mem_children_of_fieldChild h)

theorem reaches_bare_of_fieldChild? {c d : Cursor} {field : String}
    (h : c.fieldChild? field = some d) : Reaches c d.bare :=
  (reaches_of_fieldChild? h).trans (reaches_bare d)

end Cursor

namespace TokenStream

variable {s : TokenStream}

/-- A property that holds of every token of a range behind its first one. -/
def Tail (s : TokenStream) (r : Range) (P : Nat → Prop) : Prop :=
  ∀ i j t, s.CodeIn r i → s.CodeIn r j → i < t → t ≤ j → P t

theorem CodeIn.mono {r r' : Range} {i : Nat} (h : s.CodeIn r' i) (hstart : r.start ≤ r'.start)
    (hstop : r'.stop ≤ r.stop) : s.CodeIn r i :=
  ⟨h.lt_size, h.code, Nat.le_trans hstart h.start_le, Nat.le_trans h.le_stop hstop⟩

theorem Tail.mono {r r' : Range} {P : Nat → Prop} (h : s.Tail r P) (hstart : r.start ≤ r'.start)
    (hstop : r'.stop ≤ r.stop) : s.Tail r' P :=
  fun i j t hi hj => h i j t (hi.mono hstart hstop) (hj.mono hstart hstop)

/-- What stands between tokens of a range is in the range. -/
theorem CodeIn.between (hs : s.Ordered) {r : Range} {i j k : Nat} (hi : s.CodeIn r i)
    (hj : s.CodeIn r j) (hik : i ≤ k) (hkj : k ≤ j) (hk : s.isComment k = false) : s.CodeIn r k :=
  ⟨Nat.lt_of_le_of_lt hkj hj.lt_size, hk,
    Nat.le_trans hi.start_le (hs.start_le_start hik (Nat.lt_of_le_of_lt hkj hj.lt_size)),
    Nat.le_trans (hs.stop_le_stop hkj hj.lt_size) hj.le_stop⟩

variable (hs : s.Ordered)
include hs

theorem firstCodeIn?_le {r : Range} {i j : Nat} (hi : s.firstCodeIn? r = some i) (hj : j < s.size)
    (hcode : s.isComment j = false) (hstart : r.start ≤ (s.token j).start) : i ≤ j := by
  obtain ⟨hin, hmin⟩ := (firstCodeIn?_eq_some_iff hs).1 hi
  by_cases hstop : (s.token j).stop ≤ r.stop
  · exact hmin j ⟨hj, hcode, hstart, hstop⟩
  · have := hin.le_stop
    by_contra hlt
    have := hs.stop_lt_stop (Nat.lt_of_not_le hlt) hin.lt_size
    omega

/-- The first token of a place and its last one, as those of its span. -/
theorem spanOfNode?_spec {c : Cursor} {span : Span} (h : s.spanOfNode? c = some span) :
    s.CodeIn c.range span.first ∧ s.CodeIn c.range span.last ∧ span.first ≤ span.last ∧
      ∀ i, s.CodeIn c.range i → span.first ≤ i ∧ i ≤ span.last := by
  obtain ⟨hfirst, hlast, hle⟩ := spanOf?_eq_some_iff.1 h
  have h₁ := (firstCodeIn?_eq_some_iff hs).1 hfirst
  have h₂ := (lastCodeIn?_eq_some_iff hs).1 hlast
  exact ⟨h₁.1, h₂.1, hle, fun i hi => ⟨h₁.2 i hi, h₂.2 i hi⟩⟩

theorem exists_spanOfNode? {c : Cursor} {i : Nat} (h : s.CodeIn c.range i) :
    ∃ span, s.spanOfNode? c = some span ∧ s.firstOf? c = some span.first ∧
      s.lastOf? c = some span.last := by
  obtain ⟨first, hfirst, hle⟩ := firstCodeIn?_isSome hs h
  obtain ⟨last, hlast, hle'⟩ := lastCodeIn?_isSome hs h
  exact ⟨⟨first, last⟩, spanOf?_eq_some_iff.2 ⟨hfirst, hlast, Nat.le_trans hle hle'⟩, hfirst, hlast⟩

theorem codeIn_of_firstOf? {c : Cursor} {i : Nat} (h : s.firstOf? c = some i) :
    s.CodeIn c.range i :=
  ((firstCodeIn?_eq_some_iff hs).1 h).1

theorem codeIn_of_lastOf? {c : Cursor} {i : Nat} (h : s.lastOf? c = some i) :
    s.CodeIn c.range i :=
  ((lastCodeIn?_eq_some_iff hs).1 h).1

/-- Tokens of ranges in order are in order. -/
theorem lt_of_stop_le_start {r r' : Range} {i j : Nat} (hi : s.CodeIn r i) (hj : s.CodeIn r' j)
    (hle : r.stop ≤ r'.start) : i < j := by
  refine hs.lt_of_start_lt hi.lt_size ?_
  have := hs.start_lt_stop i hi.lt_size
  have := hi.le_stop
  have := hj.start_le
  omega

end TokenStream

namespace Write

open TokenStream

/-- A construct that is not whole writes nothing. -/
theorem forall_mem_getD {result : Option (List Write)} {Q : Write → Prop}
    (h : ∀ ws, result = some ws → ∀ w ∈ ws, Q w) : ∀ w ∈ result.getD [], Q w := by
  cases result with
  | none => exact fun _ hw => absurd hw List.not_mem_nil
  | some ws => exact h ws rfl

variable {s : TokenStream} {P : Nat → Prop} {r : Range}

theorem within_exempt {token : Nat} (h : token < s.size) : (Write.exempt token).Within s P :=
  ⟨h, fun _ => False.elim⟩

theorem within_bracket {token : Nat} (h : token < s.size) : (Write.bracket token).Within s P :=
  ⟨h, fun _ => False.elim⟩

/-- Tokens between two of a range, anchored to the first one. -/
theorem within_indent {anchor last t : Nat} (hP : s.Tail r P) (ha : s.CodeIn r anchor)
    (hl : s.CodeIn r last) (ht : anchor ≤ t ∧ t ≤ last) (levels : Nat) :
    (Write.indent t (some anchor) levels).Within s P := by
  refine ⟨⟨Nat.lt_of_le_of_lt ht.2 hl.lt_size, fun a h => ?_⟩, ?_⟩
  · obtain rfl : anchor = a := by simpa using h
    exact ht.1
  · rintro _ ⟨rfl, hne⟩
    refine hP _ _ _ ha hl (Nat.lt_of_le_of_ne ht.1 fun heq => hne ?_) ht.2
    rw [heq]

theorem within_align_of {anchor t : Nat} (ht : t < s.size) (hle : anchor ≤ t) (h : P t) :
    (Write.align t anchor).Within s P := by
  refine ⟨⟨ht, hle⟩, ?_⟩
  rintro _ ⟨rfl, -⟩
  exact h

theorem within_align {anchor last t : Nat} (hP : s.Tail r P) (ha : s.CodeIn r anchor)
    (hl : s.CodeIn r last) (ht : anchor ≤ t ∧ t ≤ last) : (Write.align t anchor).Within s P := by
  refine ⟨⟨Nat.lt_of_le_of_lt ht.2 hl.lt_size, ht.1⟩, ?_⟩
  rintro _ ⟨rfl, hne⟩
  exact hP _ _ _ ha hl (Nat.lt_of_le_of_ne ht.1 hne) ht.2

theorem within_indentAll {anchor last levels : Nat} {tokens : List Nat} (hP : s.Tail r P)
    (ha : s.CodeIn r anchor) (hl : s.CodeIn r last) (h : ∀ t ∈ tokens, anchor ≤ t ∧ t ≤ last) :
    ∀ w ∈ Write.indentAll tokens (some anchor) levels, w.Within s P := by
  intro w hw
  obtain ⟨t, ht, rfl⟩ := List.mem_map.1 hw
  exact within_indent hP ha hl (h t ht) levels

section

variable {first last : Nat} (hP : s.Tail r P) (hfirst : s.CodeIn r first) (hlast : s.CodeIn r last)
  (levels : Nat)
include hP hfirst hlast

/-- Tokens between two others are put in from the first one. -/
theorem within_interior :
    ∀ w ∈ Write.indentAll (Span.interior ⟨first, last⟩) (some first) levels, w.Within s P :=
  within_indentAll hP hfirst hlast fun t ht => by
    obtain ⟨hlt, hlt'⟩ := Span.mem_interior.1 ht
    exact ⟨Nat.le_of_lt hlt, Nat.le_of_lt hlt'⟩

theorem within_tail :
    ∀ w ∈ Write.indentAll (Span.tail ⟨first, last⟩) (some first) levels, w.Within s P :=
  within_indentAll hP hfirst hlast fun t ht => by
    obtain ⟨hlt, hle⟩ := Span.mem_tail.1 ht
    exact ⟨Nat.le_of_lt hlt, hle⟩

end

end Write

end Indentation
