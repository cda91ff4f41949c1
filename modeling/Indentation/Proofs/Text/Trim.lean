import Indentation.Text.Blank
import Mathlib.Data.List.TakeWhile

/-!
# White space around a text

Trimming takes white space away at both ends and nothing else, and what is left has none there.  These two
facts determine it, so that white space put around a text before does not matter.
-/

namespace Indentation

namespace Text

/-- White space and nothing else. -/
def Blank (t : Text) : Prop := ∀ c ∈ t, isBlank c = true

/-- No white space at either end. -/
structure Trimmed (t : Text) : Prop where
  begins : ∀ c ∈ t.head?, isBlank c = false
  ends : ∀ c ∈ t.getLast?, isBlank c = false

/-- A text with white space around what is in it. -/
structure Surrounds (t core : Text) : Prop where
  trimmed : core.Trimmed
  around : ∃ lead trail : Text, lead.Blank ∧ trail.Blank ∧ t = lead ++ core ++ trail

variable {t u a b core lead trail : Text}

theorem blank_nil : Blank [] := fun _ hc => absurd hc List.not_mem_nil

theorem Blank.append (ha : a.Blank) (hb : b.Blank) : (a ++ b).Blank := fun c hc =>
  (List.mem_append.1 hc).elim (ha c) (hb c)

theorem blank_takeWhile (t : Text) : Blank (t.takeWhile isBlank) := fun _ hc => List.mem_takeWhile_imp hc

theorem Blank.not_mem (h : t.Blank) {c : Char} (hc : isBlank c = false) : c ∉ t := fun hmem => by
  rw [h c hmem] at hc
  cases hc

/-- What is left when the white space in front is gone begins with something else. -/
theorem head?_dropWhile_isBlank (t : Text) : ∀ c ∈ (t.dropWhile isBlank).head?, isBlank c = false := by
  intro c hc
  have hhead := List.head?_dropWhile_not isBlank t
  rw [Option.mem_def] at hc
  rwa [hc] at hhead

theorem dropWhile_isBlank_of_head (h : ∀ c ∈ t.head?, isBlank c = false) : t.dropWhile isBlank = t := by
  cases t with
  | nil => rfl
  | cons c t => exact List.dropWhile_cons_of_neg (by simp [h c rfl])

theorem Blank.dropWhile_append (h : a.Blank) (t : Text) :
    (a ++ t).dropWhile isBlank = t.dropWhile isBlank := List.dropWhile_append_of_pos h

/-- A text without the white space at its end. -/
def trimEnd (t : Text) : Text := (t.reverse.dropWhile isBlank).reverse

theorem trim_eq_trimEnd (t : Text) : trim t = trimEnd (t.dropWhile isBlank) := rfl

theorem exists_trimEnd (t : Text) : ∃ trail : Text, trail.Blank ∧ t = trimEnd t ++ trail := by
  refine ⟨(t.reverse.takeWhile isBlank).reverse, fun c hc => ?_, ?_⟩
  · exact blank_takeWhile _ c (List.mem_reverse.1 hc)
  · rw [trimEnd, ← List.reverse_append, List.takeWhile_append_dropWhile, List.reverse_reverse]

/-- Trimming takes away white space only. -/
theorem exists_trim (t : Text) :
    ∃ lead trail : Text, lead.Blank ∧ trail.Blank ∧ t = lead ++ trim t ++ trail := by
  obtain ⟨trail, htrail, heq⟩ := exists_trimEnd (t.dropWhile isBlank)
  refine ⟨t.takeWhile isBlank, trail, blank_takeWhile t, htrail, ?_⟩
  rw [trim_eq_trimEnd, List.append_assoc, ← heq, List.takeWhile_append_dropWhile]

theorem trimmed_trim (t : Text) : (trim t).Trimmed := by
  refine ⟨fun c hc => ?_, fun c hc => ?_⟩
  · obtain ⟨trail, -, heq⟩ := exists_trimEnd (t.dropWhile isBlank)
    refine head?_dropWhile_isBlank t c ?_
    rw [heq, ← trim_eq_trimEnd, Option.mem_def, List.head?_append, Option.mem_def.1 hc]
    rfl
  · rw [trim, List.getLast?_reverse] at hc
    exact head?_dropWhile_isBlank _ c hc

theorem Blank.trim_eq (h : t.Blank) : trim t = [] := by
  rw [trim, List.dropWhile_eq_nil_iff.2 h]
  rfl

theorem Trimmed.trim_eq (h : t.Trimmed) : trim t = t := by
  rw [trim, dropWhile_isBlank_of_head h.begins,
    dropWhile_isBlank_of_head fun c hc => h.ends c (by rwa [List.head?_reverse] at hc),
    List.reverse_reverse]

theorem Blank.trim_append_left (h : lead.Blank) (t : Text) : trim (lead ++ t) = trim t := by
  rw [trim, trim, h.dropWhile_append]

theorem Blank.trim_append_right (h : trail.Blank) (t : Text) : trim (t ++ trail) = trim t := by
  have hreverse : Blank trail.reverse := fun c hc => h c (List.mem_reverse.1 hc)
  rw [trim, trim, List.dropWhile_append]
  split
  · next hnil =>
    rw [List.isEmpty_iff.1 hnil, List.dropWhile_eq_nil_iff.2 h]
  · rw [List.reverse_append, hreverse.dropWhile_append]

/-- A text has one core. -/
theorem trim_eq_iff : trim t = core ↔ t.Surrounds core := by
  constructor
  · rintro rfl
    exact ⟨trimmed_trim t, exists_trim t⟩
  · rintro ⟨hcore, lead, trail, hlead, htrail, rfl⟩
    rw [htrail.trim_append_right, hlead.trim_append_left, hcore.trim_eq]

theorem mem_of_mem_trim {c : Char} (h : c ∈ trim t) : c ∈ t := by
  obtain ⟨lead, trail, -, -, heq⟩ := exists_trim t
  rw [heq]
  exact List.mem_append_left trail (List.mem_append_right lead h)

theorem Blank.trimEnd_eq (h : t.Blank) : trimEnd t = [] := by
  rw [trimEnd, List.dropWhile_eq_nil_iff.2 fun c hc => h c (List.mem_reverse.1 hc), List.reverse_nil]

theorem trimEnd_of_begins (h : ∀ c ∈ t.head?, isBlank c = false) : trimEnd t = trim t := by
  rw [trim_eq_trimEnd, dropWhile_isBlank_of_head h]

theorem trimEnd_cons {c : Char} (h : isBlank c = false ∨ ¬t.Blank) : trimEnd (c :: t) = c :: trimEnd t := by
  rw [trimEnd, trimEnd, List.reverse_cons, List.dropWhile_append]
  split
  · next hnil =>
    rw [List.isEmpty_iff, List.dropWhile_eq_nil_iff] at hnil
    have hc := h.resolve_right fun hnot => hnot fun d hd => hnil d (List.mem_reverse.2 hd)
    rw [List.dropWhile_eq_nil_iff.2 hnil, List.dropWhile_cons_of_neg (by simp [hc])]
    rfl
  · rw [List.reverse_append]
    rfl

end Text

end Indentation
