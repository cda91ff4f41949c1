import Indentation.Proofs.Text.LineEnds
import Indentation.Text.Edit

/-!
# Carrying out edits

Edits that are selected go from the end of a text to its start and do not overlap, so carrying them
out one after the other moves nothing that a later one is about.  A cut of the text that no edit
reaches across is still a cut afterwards, at the place where `Edit.moved` says, and what stands
between two edits is not changed.

Edits of margins keep more: the terminators of the text and which of them belong together.
-/

namespace Indentation.Edit

open Text

theorem range_replacement (content : Text) (range : Range) :
    (replacement content range).range = range := by
  rw [replacement]
  split <;> rfl

theorem getD_content_replacement (content : Text) (range : Range) :
    (replacement content range).content.getD [] = content := by
  rw [replacement]
  split
  · next hnil => rw [deletion, Option.getD_none, List.isEmpty_iff.1 hnil]
  · rfl

/-! ## Selected edits -/

/-- Edits from the end of a text to its start, each of them clear of those before it. -/
def Descending (es : List Edit) : Prop := es.Pairwise fun k e => e.range.stop ≤ k.range.start

theorem clearOf_iff {kept : List Edit} {e : Edit} :
    clearOf kept e = true ↔ ∀ k ∈ kept, e.range.stop ≤ k.range.start := by
  simp [clearOf]

/-- Selecting keeps what it has kept. -/
theorem mem_foldl_of_mem {e : Edit} (es : List Edit) {kept : List Edit} (h : e ∈ kept) :
    e ∈ es.foldl (fun kept e => if clearOf kept e then kept ++ [e] else kept) kept := by
  induction es generalizing kept with
  | nil => exact h
  | cons d es ih =>
    rw [List.foldl_cons]
    split
    · exact ih (List.mem_append_left _ h)
    · exact ih h

/-- What is kept stays clear, and comes from the edits given. -/
theorem descending_foldl (es kept : List Edit) (h : Descending kept) :
    Descending (es.foldl (fun kept e => if clearOf kept e then kept ++ [e] else kept) kept) ∧
      ∀ e ∈ es.foldl (fun kept e => if clearOf kept e then kept ++ [e] else kept) kept,
        e ∈ kept ∨ e ∈ es := by
  induction es generalizing kept with
  | nil => exact ⟨h, fun e he => .inl he⟩
  | cons e es ih =>
    simp only [List.foldl_cons]
    split
    · next hc =>
      have hnew : Descending (kept ++ [e]) :=
        List.pairwise_append.2 ⟨h, List.pairwise_singleton _ _, fun k hk d hd => by
          rw [List.mem_singleton.1 hd]
          exact clearOf_iff.1 hc k hk⟩
      obtain ⟨hdesc, hmem⟩ := ih _ hnew
      refine ⟨hdesc, fun d hd => ?_⟩
      rcases hmem d hd with hd | hd
      · rcases List.mem_append.1 hd with hd | hd
        · exact .inl hd
        · exact .inr (List.mem_cons.2 (.inl (List.mem_singleton.1 hd)))
      · exact .inr (List.mem_cons_of_mem e hd)
    · obtain ⟨hdesc, hmem⟩ := ih kept h
      exact ⟨hdesc, fun d hd => (hmem d hd).imp_right (List.mem_cons_of_mem e)⟩

theorem descending_select (es : List Edit) : Descending (select es) :=
  (descending_foldl _ [] .nil).1

theorem mem_of_mem_select {es : List Edit} {e : Edit} (h : e ∈ select es) : e ∈ es := by
  rcases (descending_foldl _ [] .nil).2 e h with h | h
  · cases h
  · exact List.mem_mergeSort.1 h

/-- Nothing is dropped from edits that go from the end to the start and are clear already. -/
theorem foldl_eq_of_descending (es kept : List Edit) (h : Descending (kept ++ es)) :
    es.foldl (fun kept e => if clearOf kept e then kept ++ [e] else kept) kept = kept ++ es := by
  induction es generalizing kept with
  | nil => simp
  | cons e es ih =>
    have hc : clearOf kept e = true :=
      clearOf_iff.2 fun k hk => (List.pairwise_append.1 h).2.2 k hk e List.mem_cons_self
    rw [List.foldl_cons, if_pos hc, ih _ (by rwa [List.append_assoc]), List.append_assoc]
    rfl

/-- Edits are selected from the end of the text to its start. -/
theorem pairwise_ordered (es : List Edit) :
    (es.mergeSort fun a b => b.range.start ≤ a.range.start).Pairwise
      fun a b => b.range.start ≤ a.range.start :=
  (List.pairwise_mergeSort
    (fun a b c hab hbc => by simp only [decide_eq_true_eq] at *; omega)
    (fun a b => by simp only [Bool.or_eq_true, decide_eq_true_eq]; omega) es).imp of_decide_eq_true

/-- Edits that do not even touch each other are all selected. -/
theorem select_of_apart {es : List Edit}
    (h : es.Pairwise fun a b => a.range.stop < b.range.start ∨ b.range.stop < a.range.start) :
    (select es).Perm es ∧ (select es).Pairwise fun k e => e.range.stop < k.range.start := by
  have hperm := List.mergeSort_perm es fun a b => b.range.start ≤ a.range.start
  have hclear : (es.mergeSort fun a b => b.range.start ≤ a.range.start).Pairwise
      fun a b => a.range.stop < b.range.start ∨ b.range.stop < a.range.start :=
    hperm.symm.pairwise h fun hab => hab.symm
  have hapart : (es.mergeSort fun a b => b.range.start ≤ a.range.start).Pairwise
      fun k e => e.range.stop < k.range.start := by
    refine ((pairwise_ordered es).and hclear).imp fun {a b} hab => ?_
    have h₁ := hab.1
    have := a.range.start_le_stop
    rcases hab.2 with h₂ | h₂ <;> omega
  have heq : select es = es.mergeSort fun a b => b.range.start ≤ a.range.start :=
    (foldl_eq_of_descending _ [] (hapart.imp Nat.le_of_lt)).trans (List.nil_append _)
  rw [heq]
  exact ⟨hperm, hapart⟩

/-! ## Where an offset goes -/

/-- Where an offset is when edits have been carried out from the end of the text to its start. An
offset in a range that is replaced goes to the start of that range. -/
def moved : List Edit → Nat → Nat
  | [], p => p
  | e :: es, p =>
    if e.range.stop ≤ p then
      moved es e.range.start + size (e.content.getD []) + (p - e.range.stop)
    else moved es (min p e.range.start)

theorem moved_mono (es : List Edit) {p q : Nat} (h : p ≤ q) : moved es p ≤ moved es q := by
  induction es generalizing p q with
  | nil => exact h
  | cons e es ih =>
    simp only [moved]
    split
    · rw [if_pos (by omega)]
      omega
    · split
      · have := ih (Nat.min_le_right p e.range.start)
        omega
      · exact ih (by omega)

/-- Edits do not move what stands before them. -/
theorem moved_eq_self {es : List Edit} {p : Nat} (h : ∀ e ∈ es, p < e.range.start) :
    moved es p = p := by
  induction es with
  | nil => rfl
  | cons e es ih =>
    have hlt := h e List.mem_cons_self
    have hle := e.range.start_le_stop
    rw [moved, if_neg (by omega), Nat.min_eq_left (Nat.le_of_lt hlt)]
    exact ih fun d hd => h d (List.mem_cons_of_mem e hd)

/-- What no edit reaches into moves as one piece. -/
theorem moved_add {es : List Edit} {a b p : Nat} (hap : a ≤ p) (hpb : p ≤ b)
    (h : ∀ e ∈ es, e.range.stop ≤ a ∨ b ≤ e.range.start ∧ b < e.range.stop) :
    moved es p = moved es a + (p - a) := by
  induction es generalizing a b p with
  | nil =>
    simp only [moved]
    omega
  | cons e es ih =>
    have ih := ih hap hpb fun d hd => h d (List.mem_cons_of_mem e hd)
    rcases h e List.mem_cons_self with hle | ⟨hle, hlt⟩
    · rw [moved, moved, if_pos hle, if_pos (by omega)]
      omega
    · rw [moved, moved, if_neg (by omega), if_neg (by omega), Nat.min_eq_left (by omega),
        Nat.min_eq_left (by omega), ih]

/-! ## Carrying out one edit after the other -/

/-- An edit whose range lies in a text, on character boundaries. -/
def Fits (t : Text) (e : Edit) : Prop :=
  ∃ u m v, t = u ++ m ++ v ∧ size u = e.range.start ∧ size (u ++ m) = e.range.stop

theorem apply_append (a m b : Text) (e : Edit) (hstart : size a = e.range.start)
    (hstop : size (a ++ m) = e.range.stop) :
    apply (a ++ m ++ b) e = .ok (a ++ e.content.getD [] ++ b) := by
  simp only [apply, ← hstop, ← hstart, split_append, bind, Except.bind, pure, Except.pure]

/-- An edit that ends in a beginning of a text lies in this beginning. -/
theorem Fits.take {a b : Text} {e : Edit} (h : Fits (a ++ b) e) (hle : e.range.stop ≤ size a) :
    Fits a e := by
  obtain ⟨u, m, v, heq, hu, hm⟩ := h
  obtain ⟨w, rfl, -⟩ := exists_between heq.symm (by rwa [hm])
  exact ⟨u, m, w, rfl, hu, hm⟩

theorem Fits.append {a : Text} {e : Edit} (h : Fits a e) (b : Text) : Fits (a ++ b) e := by
  obtain ⟨u, m, v, rfl, hu, hm⟩ := h
  exact ⟨u, m, v ++ b, by simp, hu, hm⟩

theorem applyAll_cons {a m b : Text} {e : Edit} (es : List Edit) (hstart : size a = e.range.start)
    (hstop : size (a ++ m) = e.range.stop) :
    applyAll (a ++ m ++ b) (e :: es) = applyAll (a ++ (e.content.getD [] ++ b)) es := by
  rw [applyAll, List.foldlM_cons, apply_append a m b e hstart hstop, List.append_assoc]
  rfl

/-- The last of some edits is carried out on what the others leave. -/
theorem exists_of_applyAll_concat {t z : Text} {es : List Edit} {e : Edit}
    (h : applyAll t (es ++ [e]) = .ok z) : ∃ w, applyAll t es = .ok w ∧ apply w e = .ok z := by
  rw [applyAll, List.foldlM_append] at h
  cases hes : es.foldlM apply t with
  | error err => rw [hes] at h; cases h
  | ok w =>
    rw [hes] at h
    change List.foldlM apply w [e] = .ok z at h
    simp only [List.foldlM_cons, List.foldlM_nil, bind_pure] at h
    exact ⟨w, hes, h⟩

/-- An edit that is carried out before others leaves a beginning of the text to them. -/
theorem fits_of_descending {u m v c : Text} {e : Edit} {es : List Edit} (hu : size u = e.range.start)
    (hd : Descending (e :: es)) (hes : ∀ d ∈ es, Fits (u ++ m ++ v) d) : ∀ d ∈ es, Fits (u ++ c) d :=
  fun d hd' => by
    have hfits := hes d hd'
    rw [List.append_assoc] at hfits
    exact (hfits.take (by rw [hu]; exact (List.pairwise_cons.1 hd).1 d hd')).append c

/-- Edits that fit a text and do not overlap can be carried out from its end to its start. -/
theorem exists_applyAll_of_fits {t : Text} {es : List Edit} (hd : Descending es)
    (hes : ∀ e ∈ es, Fits t e) : ∃ z, applyAll t es = .ok z := by
  induction es generalizing t with
  | nil => exact ⟨t, rfl⟩
  | cons e es ih =>
    obtain ⟨u, m, v, rfl, hu, hm⟩ := hes e List.mem_cons_self
    rw [applyAll_cons es hu hm]
    exact ih (List.pairwise_cons.1 hd).2 (fits_of_descending hu hd fun d hd' =>
      hes d (List.mem_cons_of_mem e hd'))

/-- Edits of a beginning of a text leave the rest alone. -/
theorem applyAll_append {a a' : Text} {es : List Edit} (b : Text) (h : applyAll a es = .ok a')
    (hes : ∀ e ∈ es, Fits a e) (hd : Descending es) : applyAll (a ++ b) es = .ok (a' ++ b) := by
  induction es generalizing a with
  | nil =>
    simp only [applyAll, List.foldlM_nil, pure, Except.pure, Except.ok.injEq] at h ⊢
    rw [h]
  | cons e es ih =>
    obtain ⟨u, m, v, rfl, hu, hm⟩ := hes e List.mem_cons_self
    rw [applyAll_cons es hu hm] at h
    have hfits := fits_of_descending (c := e.content.getD [] ++ v) hu hd fun d hd' =>
      hes d (List.mem_cons_of_mem e hd')
    have := ih h hfits (List.pairwise_cons.1 hd).2
    rw [List.append_assoc, applyAll_cons es hu hm]
    simpa only [List.append_assoc] using this

/-- Where a text falls apart, the edited text falls apart too. -/
theorem cuts_moved {t z : Text} {es : List Edit} (hd : Descending es) (hes : ∀ e ∈ es, Fits t e)
    (h : applyAll t es = .ok z) {p : Nat} (hp : t.Cuts p) : z.Cuts (moved es p) := by
  induction es generalizing t p with
  | nil =>
    obtain rfl : t = z := by simpa [applyAll, pure, Except.pure] using h
    exact hp
  | cons e es ih =>
    obtain ⟨u, m, v, rfl, hu, hm⟩ := hes e List.mem_cons_self
    rw [applyAll_cons es hu hm] at h
    have hfits := fits_of_descending (c := e.content.getD [] ++ v) hu hd fun d hd' =>
      hes d (List.mem_cons_of_mem e hd')
    obtain ⟨hclear, hd⟩ := List.pairwise_cons.1 hd
    obtain ⟨a, b, heq, hsize⟩ := cuts_iff.1 hp
    rw [moved]
    split
    · next hle =>
      -- the offset lies behind the edit
      obtain ⟨w, rfl, rfl⟩ : ∃ w, a = u ++ m ++ w ∧ v = w ++ b := exists_between heq (by omega)
      have hcut : (u ++ (e.content.getD [] ++ (w ++ b))).Cuts
          (size (u ++ (e.content.getD [] ++ w))) :=
        cuts_iff.2 ⟨u ++ (e.content.getD [] ++ w), b, by simp, rfl⟩
      have hadd : ∀ q, size u ≤ q → moved es q = moved es (size u) + (q - size u) := fun q hq =>
        moved_add hq (Nat.le_refl q) fun d hd' => .inl (hu ▸ hclear d hd')
      have hmoved : moved es (size (u ++ (e.content.getD [] ++ w))) =
          moved es e.range.start + size (e.content.getD []) + (p - e.range.stop) := by
        rw [hadd _ (by simp), ← hu, ← hsize, ← hm]
        simp only [size_append]
        omega
      rw [← hmoved]
      exact ih hd hfits h hcut
    · next hlt =>
      refine ih hd hfits h (cuts_iff.2 ?_)
      rcases Nat.le_total p e.range.start with hle | hle
      · obtain ⟨w, rfl, -⟩ : ∃ w, u = a ++ w ∧ b = w ++ (m ++ v) :=
          exists_between (by rw [← heq, List.append_assoc]) (by omega)
        exact ⟨a, w ++ (e.content.getD [] ++ v), by simp, by omega⟩
      · exact ⟨u, e.content.getD [] ++ v, rfl, by omega⟩

end Indentation.Edit
