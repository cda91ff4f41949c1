import Indentation.Construct.Sequence
import Mathlib.Data.List.Basic

/-!
# The slots of an array

An array is written slot by slot with a comma behind each one.  Only a comma behind a last slot that holds
an element may be left out: behind a hole there is nothing but the comma to tell that the slot is there.

So commas are what counts.  The index of an element is the number of commas before it, and there is a hole
at the index of a comma that closes a slot without an element.  Comments may stand anywhere and count for
nothing.
-/

namespace Indentation

namespace Sequence

/-- What may fill a slot: neither a comment nor one of the marks that an array is written with. -/
structure IsElement (e : Cursor) : Prop where
  not_extra : e.extra = false
  not_mark : e.kind ∉ ["[", ",", "]"]

def isComma (d : Cursor) : Bool := !d.extra && d.kind == ","

/-- How slots are written between brackets, comments apart. -/
inductive WrittenAs : List (Option Cursor) → List Cursor → Prop
  | nil : WrittenAs [] []
  | last {e : Cursor} (he : IsElement e) : WrittenAs [some e] [e]
  | closed {slot : Option Cursor} {comma : Cursor} {slots : List (Option Cursor)} {rest : List Cursor}
    (hslot : ∀ e ∈ slot, IsElement e) (hcomma : isComma comma = true) (hrest : WrittenAs slots rest) :
    WrittenAs (slot :: slots) (slot.toList ++ comma :: rest)

/-- An array with the given slots, and with comments anywhere. -/
inductive IsArray (c : Cursor) (slots : List (Option Cursor)) : Prop
  | mk {opening closing : Cursor} {between : List Cursor} (hopening : opening.kind = "[")
    (hclosing : closing.kind = "]") (hbetween : WrittenAs slots between)
    (hchildren : (c.children.filter fun d => !d.extra) = opening :: (between ++ [closing]))

/-- Whether a place is an element with a number of commas before it. -/
def StandsAt (places : List Cursor) (e : Cursor) (i : Nat) : Prop :=
  ∃ before after, places = before ++ e :: after ∧ IsElement e ∧ before.countP isComma = i

variable {c d e : Cursor} {slots : List (Option Cursor)} {places between : List Cursor} {i : Nat}

/-! ## One place after the other -/

theorem IsElement.not_comma (h : IsElement e) : isComma e = false := by
  have hkind : e.kind ≠ "," := fun heq => h.not_mark (by simp [heq])
  simp [isComma, hkind]

theorem not_isElement_of_comma (h : isComma d = true) : ¬IsElement d := fun he => by
  rw [he.not_comma] at h
  cases h

theorem kind_of_isComma (h : isComma d = true) : d.kind = "," := by
  rw [isComma, Bool.and_eq_true, beq_iff_eq] at h
  exact h.2

/-- Nothing stands at an index of no places at all. -/
theorem not_standsAt_nil : ¬StandsAt [] e i := by
  rintro ⟨before, after, heq, -⟩
  simp at heq

theorem standsAt_cons : StandsAt (d :: places) e i ↔
    (d = e ∧ IsElement e ∧ i = 0) ∨
      ∃ j, StandsAt places e j ∧ i = j + if isComma d then 1 else 0 := by
  constructor
  · rintro ⟨before, after, heq, he, rfl⟩
    cases before with
    | nil =>
      obtain ⟨rfl, rfl⟩ := List.cons_eq_cons.1 heq
      exact .inl ⟨rfl, he, List.countP_nil⟩
    | cons d' before =>
      obtain ⟨rfl, rfl⟩ := List.cons_eq_cons.1 heq
      exact .inr ⟨_, ⟨before, after, rfl, he, rfl⟩, List.countP_cons⟩
  · rintro (⟨rfl, he, rfl⟩ | ⟨j, ⟨before, after, rfl, he, rfl⟩, rfl⟩)
    · exact ⟨[], places, rfl, he, List.countP_nil⟩
    · exact ⟨d :: before, after, rfl, he, List.countP_cons⟩

theorem standsAt_cons_of_comma (h : isComma d = true) :
    StandsAt (d :: places) e i ↔ ∃ j, StandsAt places e j ∧ i = j + 1 := by
  rw [standsAt_cons, if_pos h, or_iff_right]
  rintro ⟨rfl, he, -⟩
  exact not_isElement_of_comma h he

theorem standsAt_cons_of_element (h : IsElement d) :
    StandsAt (d :: places) e i ↔ (d = e ∧ i = 0) ∨ StandsAt places e i := by
  rw [standsAt_cons, h.not_comma]
  constructor
  · rintro (⟨rfl, -, rfl⟩ | ⟨j, hj, rfl⟩)
    · exact .inl ⟨rfl, rfl⟩
    · exact .inr hj
  · rintro (⟨rfl, rfl⟩ | hi)
    · exact .inl ⟨rfl, h, rfl⟩
    · exact .inr ⟨i, hi, rfl⟩

/-- Neither comments nor brackets count. -/
theorem standsAt_cons_of_neither (hcomma : isComma d = false) (helement : ¬IsElement d) :
    StandsAt (d :: places) e i ↔ StandsAt places e i := by
  rw [standsAt_cons, hcomma]
  constructor
  · rintro (⟨rfl, he, -⟩ | ⟨j, hj, rfl⟩)
    · exact absurd he helement
    · exact hj
  · exact fun hi => .inr ⟨i, hi, rfl⟩

theorem standsAt_concat_of_neither (hcomma : isComma d = false) (helement : ¬IsElement d) :
    StandsAt (places ++ [d]) e i ↔ StandsAt places e i := by
  induction places generalizing i with
  | nil => exact standsAt_cons_of_neither hcomma helement
  | cons d' places ih => simp only [List.cons_append, standsAt_cons, ih]

theorem standsAt_filter :
    StandsAt (places.filter fun d => !d.extra) e i ↔ StandsAt places e i := by
  induction places generalizing i with
  | nil => rfl
  | cons d places ih =>
    cases hd : d.extra with
    | false => simp only [List.filter_cons, hd, Bool.not_false, if_true, standsAt_cons, ih]
    | true =>
      rw [List.filter_cons_of_neg (by simp [hd]), ih, standsAt_cons_of_neither (by simp [isComma, hd])]
      intro he
      rw [he.not_extra] at hd
      cases hd

theorem countP_isComma_filter :
    (places.filter fun d => !d.extra).countP isComma = places.countP isComma := by
  rw [List.countP_filter]
  refine List.countP_congr fun d _ => ?_
  cases hd : d.extra <;> simp [isComma, hd]

/-! ## The slots between the brackets -/

namespace WrittenAs

/-- Elements are at the index that the commas before them count. -/
theorem getElem?_eq_some_iff (h : WrittenAs slots between) :
    slots[i]? = some (some e) ↔ StandsAt between e i := by
  induction h generalizing i with
  | nil => exact iff_of_false (by simp) not_standsAt_nil
  | @last d hd =>
    rw [standsAt_cons_of_element hd, or_iff_left not_standsAt_nil]
    cases i <;> simp
  | @closed slot comma slots rest hslot hcomma _ ih =>
    have hlater : (∃ j, StandsAt rest e j ∧ i = j + 1) ↔ ∃ j, slots[j]? = some (some e) ∧ i = j + 1 :=
      exists_congr fun j => and_congr_left' ih.symm
    cases slot with
    | none =>
      rw [Option.toList_none, List.nil_append, standsAt_cons_of_comma hcomma, hlater]
      cases i <;> simp
    | some d =>
      rw [Option.toList_some, List.singleton_append, standsAt_cons_of_element (hslot d rfl),
        standsAt_cons_of_comma hcomma, hlater]
      cases i <;> simp

theorem countP_closed {slot : Option Cursor} {comma : Cursor} {rest : List Cursor}
    (hslot : ∀ e ∈ slot, IsElement e) (hcomma : isComma comma = true) :
    (slot.toList ++ comma :: rest).countP isComma = rest.countP isComma + 1 := by
  have hnone : slot.toList.countP isComma = 0 :=
    List.countP_eq_zero.2 fun e he => by simp [(hslot e (by simpa using he)).not_comma]
  rw [List.countP_append, hnone, Nat.zero_add, List.countP_cons_of_pos hcomma]

theorem countP_le_length (h : WrittenAs slots between) : between.countP isComma ≤ slots.length := by
  induction h with
  | nil => exact Nat.le_refl 0
  | last he => simp [he.not_comma]
  | closed hslot hcomma _ ih =>
    rw [countP_closed hslot hcomma]
    exact Nat.succ_le_succ ih

/-- Every slot is closed by a comma, but for a last one that holds an element. -/
theorem lt_countP_or (h : WrittenAs slots between) (hi : i < slots.length) :
    i < between.countP isComma ∨ ∃ e, slots[i]? = some (some e) := by
  induction h generalizing i with
  | nil => cases hi
  | @last e he =>
    obtain rfl : i = 0 := by simpa using hi
    exact .inr ⟨e, rfl⟩
  | closed hslot hcomma _ ih =>
    rw [countP_closed hslot hcomma]
    cases i with
    | zero => exact .inl (Nat.succ_pos _)
    | succ i => exact (ih (Nat.lt_of_succ_lt_succ hi)).imp Nat.succ_lt_succ id

/-- Holes are where a comma closes a slot that no element is in. -/
theorem getElem?_eq_none_iff (h : WrittenAs slots between) :
    slots[i]? = some none ↔ i < between.countP isComma ∧ ∀ e, ¬StandsAt between e i := by
  simp only [← h.getElem?_eq_some_iff]
  constructor
  · intro hnone
    have hi := (List.getElem?_eq_some_iff.1 hnone).1
    refine ⟨(h.lt_countP_or hi).resolve_right fun ⟨e, he⟩ => ?_, fun e he => ?_⟩ <;> simp [hnone] at he
  · rintro ⟨hi, helement⟩
    obtain ⟨slot, hslot⟩ : ∃ slot, slots[i]? = some slot :=
      ⟨_, List.getElem?_eq_getElem (Nat.lt_of_lt_of_le hi h.countP_le_length)⟩
    cases slot with
    | none => exact hslot
    | some e => exact absurd hslot (helement e)

end WrittenAs

/-! ## Reading the slots -/

namespace Slots

variable (closed : List (Option Cursor)) (waiting : Option Cursor)

theorem read_opening (h : d.kind = "[") : read ⟨closed, waiting⟩ d = ⟨closed, waiting⟩ := by
  simp [read, h]

theorem read_comma (h : isComma d = true) : read ⟨closed, waiting⟩ d = ⟨closed ++ [waiting], none⟩ := by
  simp [read, kind_of_isComma h]

theorem read_closing (h : d.kind = "]") :
    read ⟨closed, waiting⟩ d = ⟨closed ++ (waiting.map some).toList, none⟩ := by
  cases waiting <;> simp [read, h]

theorem read_element (h : IsElement e) : read ⟨closed, waiting⟩ e = ⟨closed, some e⟩ := by
  have hmark := h.not_mark
  simp only [List.mem_cons, List.not_mem_nil, or_false, not_or] at hmark
  unfold read
  split <;> simp_all

end Slots

/-- A slot is closed when its comma is read, and a last one without a comma when the bracket is. -/
theorem WrittenAs.foldl_read (h : WrittenAs slots between) (hclosing : d.kind = "]")
    (closed : List (Option Cursor)) :
    (between ++ [d]).foldl Slots.read ⟨closed, none⟩ = ⟨closed ++ slots, none⟩ := by
  induction h generalizing closed with
  | nil => exact Slots.read_closing closed none hclosing
  | @last e he =>
    rw [List.singleton_append, List.foldl_cons, Slots.read_element _ _ he, List.foldl_cons,
      Slots.read_closing _ _ hclosing]
    rfl
  | @closed slot comma slots rest hslot hcomma _ ih =>
    have hread : (slot.toList).foldl Slots.read ⟨closed, none⟩ = ⟨closed, slot⟩ := by
      cases slot with
      | none => rfl
      | some e => exact Slots.read_element closed none (hslot e rfl)
    rw [List.append_assoc, List.foldl_append, hread, List.cons_append, List.foldl_cons,
      Slots.read_comma _ _ hcomma, ih, List.append_assoc, List.singleton_append]

namespace IsArray

theorem arrayElements_eq (h : IsArray c slots) : arrayElements c = slots := by
  obtain ⟨hopening, hclosing, hbetween, hchildren⟩ := h
  rw [arrayElements, hchildren, List.foldl_cons, Slots.read_opening _ _ hopening,
    hbetween.foldl_read hclosing]
  rfl

theorem exists_between (h : IsArray c slots) : ∃ between, WrittenAs slots between ∧
    c.children.countP isComma = between.countP isComma ∧
    ∀ e i, StandsAt c.children e i ↔ StandsAt between e i := by
  obtain @⟨opening, closing, between, hopening, hclosing, hbetween, hchildren⟩ := h
  have hcomma {d : Cursor} (hd : d.kind ∈ ["[", "]"]) : isComma d = false := by
    have hkind : d.kind ≠ "," := fun heq => by simp [heq] at hd
    simp [isComma, hkind]
  have helement {d : Cursor} (hd : d.kind ∈ ["[", "]"]) : ¬IsElement d := fun he => by
    refine he.not_mark ?_
    simp only [List.mem_cons, List.not_mem_nil, or_false] at hd ⊢
    exact hd.imp id .inr
  have hopening : opening.kind ∈ ["[", "]"] := by simp [hopening]
  have hclosing : closing.kind ∈ ["[", "]"] := by simp [hclosing]
  refine ⟨between, hbetween, ?_, fun e i => ?_⟩
  · rw [← countP_isComma_filter, hchildren, List.countP_cons, List.countP_append, List.countP_singleton,
      hcomma hopening, hcomma hclosing]
    rfl
  · rw [← standsAt_filter, hchildren, standsAt_cons_of_neither (hcomma hopening) (helement hopening),
      standsAt_concat_of_neither (hcomma hclosing) (helement hclosing)]

end IsArray

/-- The elements of an array are its slots, whatever comments stand between them.  So an element is at the
index that is the number of commas before it, and a hole is where a comma closes a slot without an element.
What a list asks for follows: its first element has no comma before it, two elements are next to each other
if the second has one more comma before it than the first, and an array is indented slot by slot. -/
theorem arrayElements_exact (h : IsArray c slots) :
    arrayElements c = slots ∧
    (∀ e i, (arrayElements c)[i]? = some (some e) ↔ StandsAt c.children e i) ∧
    (∀ i, (arrayElements c)[i]? = some none ↔
      i < c.children.countP isComma ∧ ∀ e, ¬StandsAt c.children e i) ∧
    (∀ e, (arrayElements c).head?.join = some e ↔ StandsAt c.children e 0) ∧
    (∀ d e, (some d, some e) ∈ (arrayElements c).zip ((arrayElements c).drop 1) ↔
      ∃ i, StandsAt c.children d i ∧ StandsAt c.children e (i + 1)) ∧
    ∀ (s : TokenStream) (span : Span) (offset : ListOffset), c.kind ∈ ["array", "array_pattern"] →
      s.spanOfNode? c = some span → ofLiteral s offset c = writes s span slots offset := by
  obtain ⟨between, hbetween, hcount, hstands⟩ := h.exists_between
  have hslot (e : Cursor) (i : Nat) : slots[i]? = some (some e) ↔ StandsAt c.children e i :=
    hbetween.getElem?_eq_some_iff.trans (hstands e i).symm
  rw [h.arrayElements_eq]
  refine ⟨rfl, hslot, fun i => ?_, fun e => ?_, fun d e => ?_, fun s span offset hkind hspan => ?_⟩
  · simp only [hcount, hstands]
    exact hbetween.getElem?_eq_none_iff
  · rw [← hslot, List.head?_eq_getElem?]
    cases slots[0]? <;> simp
  · simp only [← hslot, List.mem_iff_getElem?, List.getElem?_zip_eq_some, List.getElem?_drop,
      Nat.add_comm 1]
  · rw [ofLiteral, hspan, ← h.arrayElements_eq]
    rcases List.mem_pair.1 hkind with hkind | hkind <;> simp only [hkind]

/-- An array `[/**/a,,/**/b]`.  Where its parts stand in a text does not matter. -/
def holedTree : Node :=
  let place (kind : String) (named extra : Bool) (children : List Node) : Node :=
    .mk ⟨kind, .point 0, named, extra, false, false, false, none⟩ children
  place "array" true false
    [place "[" false false [], place "comment" true true [], place "identifier" true false [],
      place "," false false [], place "," false false [], place "comment" true true [],
      place "identifier" true false [], place "]" false false []]

/-- The child of an array at a place of its own. -/
def holedChild (n : Nat) : Cursor := (Cursor.root holedTree).children.getD n (.root holedTree)

theorem isArray_holedTree :
    IsArray (.root holedTree) [some (holedChild 2), none, some (holedChild 6)] := by
  have helement : ∀ n ∈ [2, 6], IsElement (holedChild n) := by
    intro n hn
    rcases List.mem_pair.1 hn with rfl | rfl <;> exact ⟨by decide, by decide⟩
  have hbetween : WrittenAs [some (holedChild 2), none, some (holedChild 6)]
      [holedChild 2, holedChild 3, holedChild 4, holedChild 6] := by
    refine .closed ?_ (by decide) (.closed ?_ (by decide) (.last (helement 6 (by decide))))
    · simpa using helement 2 (by decide)
    · simp
  have hopening : (holedChild 0).kind = "[" := by decide
  have hclosing : (holedChild 7).kind = "]" := by decide
  exact .mk hopening hclosing hbetween rfl

/-- The slot between the two elements is a hole, and neither is next to the other. -/
theorem arrayElements_exact_holedTree :
    IsArray (.root holedTree) [some (holedChild 2), none, some (holedChild 6)] ∧
    arrayElements (.root holedTree) = [some (holedChild 2), none, some (holedChild 6)] ∧
    StandsAt (Cursor.root holedTree).children (holedChild 6) 2 ∧
    ∀ e, ¬StandsAt (Cursor.root holedTree).children e 1 := by
  obtain ⟨helements, hstands, hholes, -⟩ := arrayElements_exact isArray_holedTree
  refine ⟨isArray_holedTree, helements, (hstands _ _).1 ?_, ((hholes 1).1 ?_).2⟩
  · rw [helements]
    rfl
  · rw [helements]
    rfl

end Sequence

end Indentation
