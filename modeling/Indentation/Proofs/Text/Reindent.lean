import Indentation.Proofs.Text.Edit

/-!
# Edits of margins

A margin is what stands between the start of a line and something that does not begin with LF.
Replacing margins leaves every terminator of a text in place and pairs no CR with an LF that it was
not paired with before, so all offsets outside the margins stay on their lines.
-/

namespace Indentation

namespace Text

theorem not_partsPair_of_head? {a b : Text} (h : b.head? ≠ some '\n') : ¬PartsPair a b :=
  fun hp => h hp.2

theorem head?_ne_of_append {a b : Text} {c : Char} (h : (a ++ b).head? ≠ some c) :
    a.head? ≠ some c := by
  cases a with
  | nil => exact nofun
  | cons d a => simpa using h

theorem head?_append_iff {a b : Text} (h : b.head? ≠ some '\n') :
    (a ++ b).head? = some '\n' ↔ a.head? = some '\n' := by
  cases a with
  | nil => simp [h]
  | cons d a => simp

/-- Only what a text begins with can pair with a CR before it. -/
theorem partsPair_append_right_iff {a b c : Text} (h : c.head? ≠ some '\n') :
    PartsPair a (b ++ c) ↔ PartsPair a b := by
  rw [PartsPair, PartsPair, head?_append_iff h]

theorem Flat.head?_append {a b : Text} (ha : a.Flat) (hb : b.head? ≠ some '\n') :
    (a ++ b).head? ≠ some '\n' := by
  rw [Ne, head?_append_iff hb]
  intro h
  cases ha '\n' (List.mem_of_head? h)

theorem lastLine_append_of_not_flat (a : Text) {b : Text} (h : ¬b.Flat) :
    Lexeme.lastLine (a ++ b) = Lexeme.lastLine b := by
  have hne : earlierLines b ≠ [] := by
    intro hnil
    have := earlierLines_append_lastLine b
    rw [hnil, List.nil_append] at this
    exact h (this ▸ flat_lastLine b)
  have hend : (a ++ earlierLines b).EndsLine := by
    rw [EndsLine, List.getLast?_append_of_ne_nil a hne]
    exact endsLine_earlierLines b
  conv_lhs => rw [← earlierLines_append_lastLine b, ← List.append_assoc]
  exact (lastLine_append hend (flat_lastLine b)).1

/-- A line does not go on behind a terminator. -/
theorem EndsLine.not_flat {a b c : Text} (h : (a ++ b).EndsLine) (hb : b ≠ []) :
    ¬(b ++ c).Flat := by
  intro hflat
  obtain ⟨d, hd⟩ := Option.isSome_iff_exists.1 (List.getLast?_isSome.2 hb)
  have hterm := h d (by rw [List.getLast?_append_of_ne_nil a hb, hd]; rfl)
  rw [hflat d (List.mem_append_left c (List.mem_of_getLast? hd))] at hterm
  cases hterm

end Text

namespace Edit

open Text Lines

/-- An edit that replaces the margin of a line by characters of one line. -/
def IsMargin (t : Text) (e : Edit) : Prop :=
  ∃ u m v, t = u ++ m ++ v ∧ size u = e.range.start ∧ size (u ++ m) = e.range.stop ∧
    u.EndsLine ∧ m.Flat ∧ v.head? ≠ some '\n' ∧ (e.content.getD []).Flat

theorem IsMargin.fits {t : Text} {e : Edit} (h : IsMargin t e) : Fits t e := by
  obtain ⟨u, m, v, ht, hu, hm, -⟩ := h
  exact ⟨u, m, v, ht, hu, hm⟩

/-- The margin of a line in a beginning of a text is one of its margins. -/
theorem IsMargin.take {a b : Text} {e : Edit} (h : IsMargin (a ++ b) e)
    (hle : e.range.stop ≤ size a) : IsMargin a e := by
  obtain ⟨u, m, v, heq, hu, hm, hend, hflat, hv, hc⟩ := h
  obtain ⟨w, rfl, rfl⟩ := exists_between heq.symm (by rwa [hm])
  exact ⟨u, m, w, rfl, hu, hm, hend, hflat, head?_ne_of_append hv, hc⟩

/-- The margin of a line is still one when something is added that does not begin with LF. -/
theorem IsMargin.append {a b : Text} {e : Edit} (h : IsMargin a e) (hb : b.head? ≠ some '\n') :
    IsMargin (a ++ b) e := by
  obtain ⟨u, m, v, rfl, hu, hm, hend, hflat, hv, hc⟩ := h
  refine ⟨u, m, v ++ b, by simp, hu, hm, hend, hflat, ?_, hc⟩
  rwa [Ne, head?_append_iff hb]

/-- Edits of the margins of different lines, from the end of the text to its start. -/
def Apart (es : List Edit) : Prop := es.Pairwise fun k e => e.range.stop < k.range.start

theorem Apart.descending {es : List Edit} (h : Apart es) : Descending es := h.imp Nat.le_of_lt

/-- A part `t` of a text `x ++ t ++ y` is still there when edits have been carried out, between `x'`
and `y'`. -/
structure Survives (es : List Edit) (x t y x' y' : Text) : Prop where
  applied : applyAll (x ++ t ++ y) es = .ok (x' ++ t ++ y')
  size_before : size x' = moved es (size x)
  size_through : size (x' ++ t) = moved es (size (x ++ t))
  terminators_eq : terminators x' = terminators x
  /-- A CR before the part pairs with an LF in it just if it did. -/
  pair_iff : PartsPair x' (t ++ y') ↔ PartsPair x (t ++ y)
  head_iff : y'.head? = some '\n' ↔ y.head? = some '\n'
  nil_of_nil : y = [] → y' = []
  getLast_eq : (∀ e ∈ es, e.range.stop ≠ size x) → x'.getLast? = x.getLast?
  /-- No edit on the line of the part. -/
  lastLine_eq : (∀ e ∈ es, ∀ u w, x = u ++ w → size u = e.range.stop → ¬w.Flat) →
    Lexeme.lastLine x' = Lexeme.lastLine x
  /-- An edit on the line of the part. -/
  lastLine_edited : Apart es → ∀ e ∈ es, ∀ u w, x = u ++ w → size u = e.range.stop → w.Flat →
    Lexeme.lastLine x' = e.content.getD [] ++ w

section

variable {es : List Edit} {e : Edit} {u m w v : Text} (hd : Descending es) (hfits : ∀ d ∈ es, Fits u d)
  (hu : size u = e.range.start) (hm : size (u ++ m) = e.range.stop) (hflat : m.Flat)
  (hc : (e.content.getD []).Flat)
include hd hfits hu hm hflat hc

/-- What precedes a margin before a part is edited on its own, and the margin next to it. -/
theorem Survives.edit_before {u' t y : Text} (h : Survives es u [] [] u' []) (hend : u.EndsLine)
    (hw : (w ++ (t ++ y)).head? ≠ some '\n') :
    Survives (e :: es) (u ++ m ++ w) t y (u' ++ e.content.getD [] ++ w) y := by
  have happly : applyAll u es = .ok u' := by simpa only [List.append_nil] using h.applied
  have hle : e.range.stop ≤ size (u ++ m ++ w) := by
    rw [← hm, size_append (u ++ m)]
    omega
  refine ⟨?_, ?_, ?_, ?_, ?_, .rfl, id, ?_, ?_, ?_⟩
  · rw [List.append_assoc, List.append_assoc (u ++ m), applyAll_cons es hu hm,
      applyAll_append _ happly hfits hd]
    simp only [List.append_assoc]
  · rw [moved, if_pos hle, ← hu, ← hm]
    simp only [size_append, h.size_before]
    omega
  · have hle' : e.range.stop ≤ size (u ++ m ++ w ++ t) := by
      rw [size_append]
      omega
    rw [moved, if_pos hle', ← hu, ← hm]
    simp only [size_append, h.size_before]
    omega
  · have hw' : w.head? ≠ some '\n' := head?_ne_of_append hw
    rw [terminators_append (not_partsPair_of_head? hw'),
      terminators_append (not_partsPair_of_head? hw'),
      terminators_append hc.not_partsPair_right, terminators_append hflat.not_partsPair_right,
      hc.terminators_eq, hflat.terminators_eq, h.terminators_eq]
  · by_cases hwn : w = []
    · subst hwn
      exact iff_of_false (not_partsPair_of_head? hw) (not_partsPair_of_head? hw)
    · rw [partsPair_append_left hwn, partsPair_append_left hwn]
  · intro hne
    have hwn : w ≠ [] := by
      rintro rfl
      exact hne e List.mem_cons_self (by rw [← hm, List.append_nil])
    rw [List.getLast?_append_of_ne_nil _ hwn, List.getLast?_append_of_ne_nil _ hwn]
  · intro hline
    have hwf := hline e List.mem_cons_self (u ++ m) w rfl hm
    rw [lastLine_append_of_not_flat _ hwf, lastLine_append_of_not_flat _ hwf]
  · intro hapart d hd' a b hab ha hb
    obtain ⟨hfar, -⟩ := List.pairwise_cons.1 hapart
    rcases List.mem_cons.1 hd' with rfl | hd'
    · obtain ⟨-, rfl⟩ := append_inj_of_size hab (by rw [hm, ha])
      have hend' : u'.EndsLine := by
        rw [EndsLine, h.getLast_eq fun k hk => by
          have := hfar k hk
          omega]
        exact hend
      rw [List.append_assoc]
      refine (lastLine_append hend' fun c hcm => ?_).1
      rcases List.mem_append.1 hcm with hcm | hcm
      · exact hc c hcm
      · exact hb c hcm
    · -- A line of an earlier edit ends before the margin of this one.
      have hlt := hfar d hd'
      obtain ⟨z, rfl, rfl⟩ : ∃ z, u = a ++ z ∧ b = z ++ (m ++ w) :=
        exists_between (by rw [← hab, List.append_assoc]) (by omega)
      have hz : z ≠ [] := by
        rintro rfl
        rw [List.append_nil] at hu
        omega
      exact absurd hb (hend.not_flat hz)

/-- A part is edited together with what precedes a margin behind it. -/
theorem Survives.edit_behind {x t x' w' : Text} (h : Survives es x t w x' w') (hx : u = x ++ t ++ w)
    (hlt : size (x ++ t) < e.range.stop) (hv : v.head? ≠ some '\n') :
    Survives (e :: es) x t (w ++ (m ++ v)) x' (w' ++ (e.content.getD [] ++ v)) := by
  have hmv : (m ++ v).head? ≠ some '\n' := hflat.head?_append hv
  have hcv : (e.content.getD [] ++ v).head? ≠ some '\n' := hc.head?_append hv
  have hsizes : size x ≤ size (x ++ t) ∧ size (x ++ t) ≤ e.range.start := by
    rw [← hu, hx, size_append (x ++ t), size_append]
    omega
  refine ⟨?_, ?_, ?_, h.terminators_eq, ?_, ?_, ?_,
    fun hne => h.getLast_eq fun d hd' => hne d (List.mem_cons_of_mem e hd'),
    fun hline => h.lastLine_eq fun d hd' => hline d (List.mem_cons_of_mem e hd'), ?_⟩
  · have heq : x ++ t ++ (w ++ (m ++ v)) = u ++ m ++ v := by rw [hx]; simp only [List.append_assoc]
    rw [heq, applyAll_cons es hu hm, applyAll_append _ (hx ▸ h.applied) hfits hd]
    simp only [List.append_assoc]
  · have hmin : min (size x) e.range.start = size x := by omega
    rw [moved, if_neg (by omega), hmin, h.size_before]
  · have hmin : min (size (x ++ t)) e.range.start = size (x ++ t) := by omega
    rw [moved, if_neg (by omega), hmin, h.size_through]
  · rw [← List.append_assoc t w', ← List.append_assoc t w, partsPair_append_right_iff hcv,
      partsPair_append_right_iff hmv, h.pair_iff]
  · rw [head?_append_iff hcv, head?_append_iff hmv, h.head_iff]
  · intro hnil
    have hsize₀ := congrArg size hnil
    rw [size_append, size_append, size_nil] at hsize₀
    rw [← hm, hx, size_append (x ++ t ++ w), size_append (x ++ t)] at hlt
    omega
  · intro hapart d hd' a b hab ha hb
    rcases List.mem_cons.1 hd' with rfl | hd'
    · have hsize := congrArg size hab
      rw [size_append, ha] at hsize
      omega
    · exact h.lastLine_edited (List.pairwise_cons.1 hapart).2 d hd' a b hab ha hb

end

/-- Edits of margins leave alone what they do not touch. -/
theorem exists_survives {es : List Edit} {x t y : Text} (hd : Descending es)
    (hes : ∀ e ∈ es, IsMargin (x ++ t ++ y) e)
    (hout : ∀ e ∈ es, e.range.stop ≤ size x ∨
      size (x ++ t) ≤ e.range.start ∧ size (x ++ t) < e.range.stop) :
    ∃ x' y', Survives es x t y x' y' := by
  induction es generalizing x t y with
  | nil =>
    exact ⟨x, y, rfl, rfl, rfl, rfl, .rfl, .rfl, id, fun _ => rfl, fun _ => rfl,
      fun _ e he => by cases he⟩
  | cons e es ih =>
    obtain ⟨hclear, hd⟩ := List.pairwise_cons.1 hd
    obtain ⟨u, m, v, heq, hu, hm, hend, hflat, hv, hc⟩ := hes e List.mem_cons_self
    have hearly : ∀ d ∈ es, d.range.stop ≤ size u := fun d hd' => hu ▸ hclear d hd'
    have hmargin : ∀ d ∈ es, IsMargin u d := fun d hd' => by
      have := hes d (List.mem_cons_of_mem e hd')
      rw [heq, List.append_assoc] at this
      exact this.take (hearly d hd')
    have hfits : ∀ d ∈ es, Fits u d := fun d hd' => (hmargin d hd').fits
    rcases hout e List.mem_cons_self with hle | ⟨hle, hlt⟩
    · obtain ⟨w, rfl, rfl⟩ : ∃ w, x = u ++ m ++ w ∧ v = w ++ (t ++ y) :=
        exists_between (by rw [← heq, List.append_assoc]) (by rwa [hm])
      obtain ⟨u', y', hsurv⟩ := ih (x := u) (t := []) (y := []) hd (by simpa using hmargin)
        (fun d hd' => .inl (hearly d hd'))
      obtain rfl := hsurv.nil_of_nil rfl
      exact ⟨_, _, hsurv.edit_before hd hfits hu hm hflat hc hend hv⟩
    · obtain ⟨w, rfl, rfl⟩ : ∃ w, u = x ++ t ++ w ∧ y = w ++ (m ++ v) :=
        exists_between (by rw [heq, List.append_assoc]) (by rwa [hu])
      obtain ⟨x', w', hsurv⟩ := ih hd hmargin (fun d hd' => hout d (List.mem_cons_of_mem e hd'))
      exact ⟨_, _, hsurv.edit_behind hd hfits hu hm hflat hc rfl hlt hv⟩

/-- Edits behind a beginning of a text leave it as it is, and LF does not come to follow it. -/
theorem exists_behind {es : List Edit} {x y z : Text} (hd : Descending es)
    (hes : ∀ e ∈ es, IsMargin (x ++ y) e) (hbehind : ∀ e ∈ es, size x ≤ e.range.start)
    (happly : applyAll (x ++ y) es = .ok z) :
    ∃ y', z = x ++ y' ∧ (y'.head? = some '\n' → y.head? = some '\n') := by
  induction es generalizing y with
  | nil => exact ⟨y, by simpa [applyAll, pure, Except.pure, eq_comm] using happly, id⟩
  | cons e es ih =>
    obtain ⟨hclear, hd⟩ := List.pairwise_cons.1 hd
    obtain ⟨u, m, v, heq, hu, hm, -, hflat, hv, hc⟩ := hes e List.mem_cons_self
    obtain ⟨w, rfl, rfl⟩ : ∃ w, u = x ++ w ∧ y = w ++ (m ++ v) :=
      exists_between (by rw [heq, List.append_assoc]) (hu ▸ hbehind e List.mem_cons_self)
    have hmv : (m ++ v).head? ≠ some '\n' := hflat.head?_append hv
    have hcv : (e.content.getD [] ++ v).head? ≠ some '\n' := hc.head?_append hv
    rw [heq, applyAll_cons es hu hm, List.append_assoc] at happly
    have hmargins : ∀ d ∈ es, IsMargin (x ++ (w ++ (e.content.getD [] ++ v))) d := fun d hd' => by
      have hmargin := hes d (List.mem_cons_of_mem e hd')
      rw [heq, List.append_assoc] at hmargin
      rw [← List.append_assoc]
      exact (hmargin.take (hu ▸ hclear d hd')).append hcv
    obtain ⟨y', rfl, hhead⟩ := ih hd hmargins
      (fun d hd' => hbehind d (List.mem_cons_of_mem e hd')) happly
    refine ⟨y', rfl, fun h => ?_⟩
    rw [head?_append_iff hmv]
    exact (head?_append_iff hcv).1 (hhead h)

end Edit

end Indentation
