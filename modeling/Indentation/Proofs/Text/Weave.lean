import Indentation.Proofs.Text.Edit
import Mathlib.Data.List.Permutation

/-!
# Edits made at once

Edits that do not overlap can be made at once: the parts of the text between their ranges stay, and
their contents stand in between.  Carrying them out one after the other, from the end of the text to its
start, comes to the same, since what is carried out later lies in a beginning of the text that nothing
has changed yet.
-/

namespace Indentation

namespace Text

/-- A part of the beginning of a text is a part of the text. -/
theorem slice_append {a p : Text} {r : Range} (h : slice a r = .ok p) (b : Text) :
    slice (a ++ b) r = .ok p := by
  obtain ⟨u, v, rfl, hstart, hstop⟩ := slice_eq_ok_iff.1 h
  exact slice_eq_ok_iff.2 ⟨u, v ++ b, by simp, hstart, hstop⟩

/-- The part of a text between two offsets. -/
def between (t : Text) (p q : Nat) : Except Fault Text := do slice t (← Range.of p q)

theorem between_append {a m : Text} {p q : Nat} (h : between a p q = .ok m) (b : Text) :
    between (a ++ b) p q = .ok m := by
  by_cases hle : p ≤ q
  · simp only [between, Range.of, dif_pos hle] at h ⊢
    exact slice_append h b
  · rw [between, Range.of, dif_neg hle] at h
    cases h

theorem between_size_append (a b : Text) : between (a ++ b) (size a) (size (a ++ b)) = .ok b := by
  have hle : size a ≤ size (a ++ b) := by simp
  rw [between, Range.of, dif_pos hle]
  exact slice_eq_ok_iff.2 ⟨a, [], by simp, rfl, rfl⟩

end Text

namespace Edit

open Text

theorem fits_iff {t : Text} {e : Edit} :
    Fits t e ↔ t.Cuts e.range.start ∧ t.Cuts e.range.stop := by
  simp only [cuts_iff]
  constructor
  · rintro ⟨u, m, v, rfl, hu, hm⟩
    exact ⟨⟨u, m ++ v, by simp, hu⟩, u ++ m, v, rfl, hm⟩
  · rintro ⟨⟨a, b, heq, ha⟩, ⟨a', b', rfl, ha'⟩⟩
    have hle := e.range.start_le_stop
    obtain ⟨m, rfl, -⟩ := exists_between heq.symm (by rwa [ha, ha'])
    exact ⟨a, m, b', rfl, ha, ha'⟩

instance (t : Text) (e : Edit) : Decidable (Fits t e) := decidable_of_iff' _ fits_iff

/-! ## What is dropped -/

/-- The edits that are kept and those that are dropped are the edits given, and where one is dropped,
an edit that is kept starts in its range. -/
theorem exists_dropped_foldl (es kept : List Edit)
    (hs : (kept ++ es).Pairwise fun a b => b.range.start ≤ a.range.start) :
    ∃ dropped, ((es.foldl (fun kept e => if clearOf kept e then kept ++ [e] else kept) kept) ++
        dropped).Perm (kept ++ es) ∧
      ∀ e ∈ dropped, ∃ k ∈ es.foldl (fun kept e => if clearOf kept e then kept ++ [e] else kept) kept,
        e.range.contains k.range.start := by
  induction es generalizing kept with
  | nil => exact ⟨[], .refl _, nofun⟩
  | cons e es ih =>
    rw [List.foldl_cons]
    split
    · obtain ⟨dropped, hperm, hdropped⟩ := ih (kept ++ [e]) (by simpa using hs)
      exact ⟨dropped, by simpa using hperm, hdropped⟩
    · next hclear =>
      have hsub : (kept ++ es).Sublist (kept ++ e :: es) :=
        (List.Sublist.refl kept).append (List.sublist_cons_self e es)
      obtain ⟨dropped, hperm, hdropped⟩ := ih kept (hs.sublist hsub)
      refine ⟨e :: dropped, ?_, fun d hd => ?_⟩
      · exact List.perm_middle.trans ((hperm.cons e).trans List.perm_middle.symm)
      · rcases List.mem_cons.1 hd with rfl | hd
        · -- edits come in order, so what an edit reaches into starts at or behind its own start
          rw [clearOf_iff] at hclear
          push Not at hclear
          obtain ⟨k, hk, hlt⟩ := hclear
          have hle := (List.pairwise_append.1 hs).2.2 k hk d List.mem_cons_self
          refine ⟨k, mem_foldl_of_mem es hk, ?_⟩
          simp only [Range.contains, Bool.and_eq_true, decide_eq_true_eq]
          exact ⟨hle, hlt⟩
        · exact hdropped d hd

theorem exists_dropped (es : List Edit) :
    ∃ dropped, (select es ++ dropped).Perm es ∧
      ∀ e ∈ dropped, ∃ k ∈ select es, e.range.contains k.range.start := by
  obtain ⟨dropped, hperm, hdropped⟩ := exists_dropped_foldl _ [] (pairwise_ordered es)
  exact ⟨dropped, hperm.trans (List.mergeSort_perm es _), hdropped⟩

/-! ## Carrying out what is kept -/

/-- A text from an offset on with edits made at once, given from its start to its end: what stands
before, between and behind their ranges, and their contents where the ranges are. -/
def weave (t : Text) : Nat → List Edit → Except Fault Text
  | p, [] => between t p (size t)
  | p, e :: es => do
    let gap ← between t p e.range.start
    let rest ← weave t e.range.stop es
    return gap ++ e.content.getD [] ++ rest

/-- An edit behind all others only adds its content and what stands behind it. -/
theorem weave_concat {u m v w : Text} {p : Nat} {es : List Edit} {e : Edit}
    (hu : size u = e.range.start) (hm : size (u ++ m) = e.range.stop) (h : weave u p es = .ok w) :
    weave (u ++ m ++ v) p (es ++ [e]) = .ok (w ++ e.content.getD [] ++ v) := by
  induction es generalizing p w with
  | nil =>
    have hgap : between (u ++ m ++ v) p e.range.start = .ok w := by
      rw [← hu, List.append_assoc]
      exact between_append h (m ++ v)
    have hlast : between (u ++ m ++ v) e.range.stop (size (u ++ m ++ v)) = .ok v := by
      rw [← hm]
      exact between_size_append (u ++ m) v
    simp only [List.nil_append, weave, hgap, hlast, bind, Except.bind, pure, Except.pure]
  | cons d es ih =>
    rw [weave] at h
    cases hgap : between u p d.range.start with
    | error err => rw [hgap] at h; cases h
    | ok gap =>
      cases hrest : weave u d.range.stop es with
      | error err => rw [hgap, hrest] at h; cases h
      | ok rest =>
        rw [hgap, hrest] at h
        obtain rfl : gap ++ d.content.getD [] ++ rest = w := Except.ok.inj h
        have hgap' : between (u ++ m ++ v) p d.range.start = .ok gap := by
          rw [List.append_assoc]
          exact between_append hgap (m ++ v)
        rw [List.cons_append, weave, hgap', ih hrest]
        simp only [bind, Except.bind, pure, Except.pure, List.append_assoc]

/-- Edits that do not overlap, carried out from the end of a text to its start, are made at once. -/
theorem applyAll_eq_weave {t : Text} {es : List Edit} (hd : Descending es)
    (hes : ∀ e ∈ es, Fits t e) :
    ∃ z, applyAll t es = .ok z ∧ weave t 0 es.reverse = .ok z := by
  induction es generalizing t with
  | nil => exact ⟨t, rfl, by simpa [weave] using between_size_append [] t⟩
  | cons e es ih =>
    obtain ⟨u, m, v, rfl, hu, hm⟩ := hes e List.mem_cons_self
    obtain ⟨hclear, hd'⟩ := List.pairwise_cons.1 hd
    have hfits : ∀ d ∈ es, Fits u d := fun d hd' => by
      have := hes d (List.mem_cons_of_mem e hd')
      rw [List.append_assoc] at this
      exact this.take (by rw [hu]; exact hclear d hd')
    obtain ⟨w, happly, hweave⟩ := ih hd' hfits
    refine ⟨w ++ e.content.getD [] ++ v, ?_, ?_⟩
    · rw [applyAll_cons es hu hm, applyAll_append _ happly hfits hd', List.append_assoc]
    · rw [List.reverse_cons]
      exact weave_concat hu hm hweave

/-- What is kept of edits that fit a text does not overlap, each edit that is dropped reaches over the
start of one that is kept, and carrying out what is kept makes these edits at once. -/
theorem applyAll_select {t : Text} {es : List Edit} (hes : ∀ e ∈ es, Fits t e) :
    (select es).reverse.Pairwise (fun e next => e.range.stop ≤ next.range.start) ∧
    (∃ dropped, (select es ++ dropped).Perm es ∧
      ∀ e ∈ dropped, ∃ k ∈ select es, e.range.contains k.range.start) ∧
    ∃ z, applyAll t (select es) = .ok z ∧ weave t 0 (select es).reverse = .ok z :=
  ⟨List.pairwise_reverse.2 (descending_select es), exists_dropped es,
    applyAll_eq_weave (descending_select es) fun e he => hes e (mem_of_mem_select he)⟩

/-- Edits of `aé`, LF, and `b` behind two blanks: two that are the same, two insertions at one place and
two deletions that overlap, the longer of which reaches into what is replaced. -/
def crowd : List Edit :=
  [⟨⟨4, 6, by decide⟩, some ['\t']⟩, insertion ['x'] 4, deletion ⟨1, 5, by decide⟩,
    ⟨⟨4, 6, by decide⟩, some ['\t']⟩, insertion ['y'] 4, deletion ⟨1, 3, by decide⟩]

theorem applyAll_select_crowd :
    (∀ e ∈ crowd, Fits ['a', 'é', '\n', ' ', ' ', 'b'] e) ∧
    (select crowd).reverse.Pairwise (fun e next => e.range.stop ≤ next.range.start) ∧
    select crowd = [⟨⟨4, 6, by decide⟩, some ['\t']⟩, insertion ['x'] 4, insertion ['y'] 4,
      deletion ⟨1, 3, by decide⟩] ∧
    ∃ z, applyAll ['a', 'é', '\n', ' ', ' ', 'b'] (select crowd) = .ok z ∧
      weave ['a', 'é', '\n', ' ', ' ', 'b'] 0 (select crowd).reverse = .ok z ∧
      z = ['a', '\n', 'y', 'x', '\t', 'b'] := by
  have hfits : ∀ e ∈ crowd, Fits ['a', 'é', '\n', ' ', ' ', 'b'] e := by decide
  have hselect : select crowd = [⟨⟨4, 6, by decide⟩, some ['\t']⟩, insertion ['x'] 4,
      insertion ['y'] 4, deletion ⟨1, 3, by decide⟩] := by cbv
  obtain ⟨hclear, -, z, happly, hweave⟩ := applyAll_select hfits
  refine ⟨hfits, hclear, hselect, z, happly, hweave, ?_⟩
  rw [hselect] at happly
  exact (Except.ok.inj happly).symm

end Edit

end Indentation
