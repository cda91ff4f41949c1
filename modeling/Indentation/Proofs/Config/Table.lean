import Indentation.Config.Entry
import Mathlib.Data.String.Basic

/-!
# The order of a table

The members of an object that is read stand in the order of their names, each name once, since each
of them is put in its place.  So do the entries of a table.
-/

namespace Indentation

namespace Json

/-- Each name stands once, and the names ascend. -/
def Ascends (members : List (String × Json)) : Prop := members.Pairwise fun e f => e.1 < f.1

/-! ## One member -/

section Insert

variable {members : List (String × Json)} {name : String} {value : Json}

theorem eq_or_mem_of_mem_insert {e : String × Json} (h : e ∈ insert members name value) :
    e = (name, value) ∨ e ∈ members := by
  induction members with
  | nil => exact .inl (List.mem_singleton.1 h)
  | cons first rest ih =>
    rw [insert] at h
    split_ifs at h
    · exact (List.mem_cons.1 h).imp_right (List.mem_cons_of_mem first)
    · exact List.mem_cons.1 h
    · rcases List.mem_cons.1 h with rfl | h
      · exact .inr List.mem_cons_self
      · exact (ih h).imp_right (List.mem_cons_of_mem first)

theorem Ascends.insert (h : Ascends members) (name : String) (value : Json) :
    Ascends (insert members name value) := by
  induction members with
  | nil => exact List.pairwise_singleton _ _
  | cons first rest ih =>
    obtain ⟨hfirst, hrest⟩ := List.pairwise_cons.1 h
    rw [Json.insert]
    split_ifs with heq hlt
    · subst heq
      exact List.pairwise_cons.2 ⟨hfirst, hrest⟩
    · refine List.pairwise_cons.2 ⟨fun e he => ?_, h⟩
      rcases List.mem_cons.1 he with rfl | he
      · exact hlt
      · exact hlt.trans (hfirst e he)
    · refine List.pairwise_cons.2 ⟨fun e he => ?_, ih hrest⟩
      rcases eq_or_mem_of_mem_insert he with rfl | he
      · exact lt_of_le_of_ne (not_lt.1 hlt) (Ne.symm heq)
      · exact hfirst e he

end Insert

namespace Reader

variable {keep : Keep} {v : Json} {text rest : Text}

/-! ## Numbers are no objects -/

theorem ne_obj_of_map_float {x : Option Binary64} (h : v ∈ x.map Json.float)
    (members : List (String × Json)) : v ≠ .obj members := by
  obtain ⟨w, -, rfl⟩ := Option.map_eq_some_iff.1 h
  rintro ⟨⟩

theorem ne_obj_of_integerOf {negative : Bool} {digits : Digits} (h : v ∈ integerOf negative digits)
    (members : List (String × Json)) : v ≠ .obj members := by
  rw [integerOf] at h
  split_ifs at h with hfull hpositive hfits
  · exact ne_obj_of_map_float h members
  · obtain rfl := Option.some.inj h
    rintro ⟨⟩
  · obtain rfl := Option.some.inj h
    rintro ⟨⟩
  · exact ne_obj_of_map_float h members

theorem ne_obj_of_finish {value : Option Json} (hvalue : ∀ v ∈ value, ∀ members, v ≠ .obj members)
    (h : finish keep value text = some (v, rest)) (members : List (String × Json)) :
    v ≠ .obj members := by
  rw [finish] at h
  split at h
  · obtain ⟨rfl, -⟩ := Prod.mk.inj (Option.some.inj h)
    rintro ⟨⟩
  · obtain ⟨w, hw, hv⟩ := Option.map_eq_some_iff.1 h
    obtain ⟨rfl, -⟩ := Prod.mk.inj hv
    exact hvalue w hw members

theorem ne_obj_of_afterDigits {negative isWhole : Bool} {digits : Digits}
    (h : afterDigits keep negative isWhole digits text = some (v, rest)) :
    ∀ members, v ≠ .obj members := by
  rw [afterDigits.eq_def] at h
  split at h
  · obtain ⟨_, -, h⟩ := Option.bind_eq_some_iff.1 h
    exact ne_obj_of_finish (fun v hv => ne_obj_of_map_float hv) h
  · obtain ⟨_, -, h⟩ := Option.bind_eq_some_iff.1 h
    exact ne_obj_of_finish (fun v hv => ne_obj_of_map_float hv) h
  · split at h
    · exact ne_obj_of_finish (fun v hv => ne_obj_of_integerOf hv) h
    · exact ne_obj_of_finish (fun v hv => ne_obj_of_map_float hv) h

theorem ne_obj_of_number? {negative : Bool} (h : number? keep negative text = some (v, rest)) :
    ∀ members, v ≠ .obj members := by
  rw [number?] at h
  obtain ⟨-, -, h⟩ := Option.bind_eq_some_iff.1 h
  dsimp only at h
  split at h
  case' h_1 => obtain ⟨-, -, h⟩ := Option.bind_eq_some_iff.1 h
  -- Both ways of reading the leading digit go on alike.
  all_goals
    split at h
    · obtain ⟨-, -, h⟩ := Option.bind_eq_some_iff.1 h
      exact ne_obj_of_afterDigits h
    · exact ne_obj_of_afterDigits h

/-! ## Objects -/

theorem ascends_of_members? {fuel : Nat} {members found : List (String × Json)}
    (h : members? keep fuel members text = some (found, rest)) (hmembers : Ascends members) :
    Ascends found := by
  induction fuel generalizing members text with
  | zero => simp [members?] at h
  | succ fuel ih =>
    rw [members?] at h
    split at h
    · obtain ⟨⟨name, rest₁⟩, -, h⟩ := Option.bind_eq_some_iff.1 h
      dsimp only at h
      split at h
      · obtain ⟨⟨value, rest₂⟩, -, h⟩ := Option.bind_eq_some_iff.1 h
        have hinsert := hmembers.insert name value
        dsimp only at h
        split at h
        · exact ih h hinsert
        · obtain ⟨rfl, -⟩ := Prod.mk.inj (Option.some.inj h)
          exact hinsert
        · cases h
      · cases h
    · cases h

theorem ascends_of_value? {fuel : Nat} {members : List (String × Json)}
    (h : value? keep fuel text = some (.obj members, rest)) : Ascends members := by
  cases fuel with
  | zero => simp [value?] at h
  | succ fuel =>
    rw [value?] at h
    split at h
    · obtain ⟨_, -, h⟩ := Option.map_eq_some_iff.1 h
      cases h
    · obtain ⟨_, -, h⟩ := Option.map_eq_some_iff.1 h
      cases h
    · obtain ⟨_, -, h⟩ := Option.map_eq_some_iff.1 h
      cases h
    · obtain ⟨_, -, h⟩ := Option.map_eq_some_iff.1 h
      cases h
    · exact absurd rfl (ne_obj_of_number? h members)
    · obtain ⟨_, -, h⟩ := Option.bind_eq_some_iff.1 h
      dsimp only at h
      split at h
      · cases h
      · obtain ⟨_, -, h⟩ := Option.bind_eq_some_iff.1 h
        cases h
    · obtain ⟨_, -, h⟩ := Option.bind_eq_some_iff.1 h
      dsimp only at h
      split at h
      · obtain ⟨h, -⟩ := Prod.mk.inj (Option.some.inj h)
        obtain rfl := Json.obj.inj h
        exact .nil
      · obtain ⟨⟨found, rest'⟩, hfound, h⟩ := Option.bind_eq_some_iff.1 h
        obtain ⟨h, -⟩ := Prod.mk.inj (Option.some.inj h)
        obtain rfl := Json.obj.inj h
        exact ascends_of_members? hfound .nil
    · exact absurd rfl (ne_obj_of_number? h members)

end Reader

end Json

/-! ## Tables -/

namespace RuleTable

open Json

variable {inner : Keep} {members : List (String × Json)} {text rest : Text}

/-- A table has its names in order. -/
def Sorted (t : RuleTable) : Prop := Ascends t.entries

theorem ascends_of_section? (h : section? inner text = some (members, rest)) : Ascends members := by
  rw [section?] at h
  obtain ⟨⟨value, rest'⟩, hvalue, h⟩ := Option.bind_eq_some_iff.1 h
  dsimp only at h
  split at h
  · obtain ⟨rfl, -⟩ := Prod.mk.inj (Option.some.inj h)
    exact Reader.ascends_of_value? hvalue
  · cases h

theorem ascends_getD {found : Option (List (String × Json))} (hfound : ∀ ms ∈ found, Ascends ms) :
    Ascends (found.getD []) := by
  cases found with
  | none => exact .nil
  | some ms => exact hfound ms rfl

theorem ascends_of_topLevel? {fuel : Nat} {found : Option (List (String × Json))}
    (h : topLevel? inner fuel found text = some (members, rest)) (hfound : ∀ ms ∈ found, Ascends ms) :
    Ascends members := by
  induction fuel generalizing found text with
  | zero => cases h
  | succ fuel ih =>
    rw [topLevel?] at h
    split at h
    · obtain ⟨⟨name, rest₁⟩, -, h⟩ := Option.bind_eq_some_iff.1 h
      dsimp only at h
      split at h
      · split_ifs at h with hrules htwice
        · cases h
        · obtain ⟨_, hsection, h⟩ := Option.bind_eq_some_iff.1 h
          obtain ⟨⟨ms, rest₂⟩, hms, rfl⟩ := Option.map_eq_some_iff.1 hsection
          have hfound : ∀ ms' ∈ some ms, Ascends ms' := fun ms' hms' =>
            Option.some.inj hms' ▸ ascends_of_section? hms
          dsimp only at h
          split at h
          · exact ih h hfound
          · obtain ⟨rfl, -⟩ := Prod.mk.inj (Option.some.inj h)
            exact ascends_getD hfound
          · cases h
        · obtain ⟨_, hskipped, h⟩ := Option.bind_eq_some_iff.1 h
          obtain ⟨_, -, rfl⟩ := Option.map_eq_some_iff.1 hskipped
          dsimp only at h
          split at h
          · exact ih h hfound
          · obtain ⟨rfl, -⟩ := Prod.mk.inj (Option.some.inj h)
            exact ascends_getD hfound
          · cases h
      · cases h
    · cases h

theorem ascends_of_members? (h : members? text = some (members, rest)) : Ascends members := by
  rw [members?] at h
  obtain ⟨inner, -, h⟩ := Option.bind_eq_some_iff.1 h
  dsimp only at h
  split at h
  · split at h
    · obtain ⟨rfl, -⟩ := Prod.mk.inj (Option.some.inj h)
      exact .nil
    · exact ascends_of_topLevel? h (by simp)
  · split at h
    · obtain ⟨rfl, -⟩ := Prod.mk.inj (Option.some.inj h)
      exact .nil
    · obtain ⟨⟨found, rest'⟩, hfound, h⟩ := Option.bind_eq_some_iff.1 h
      dsimp only at h
      split at h
      · obtain ⟨rfl, -⟩ := Prod.mk.inj (Option.some.inj h)
        exact ascends_of_section? hfound
      · cases h
  · cases h

theorem sorted_of_read? {t : RuleTable} (h : read? text = some t) : t.Sorted := by
  obtain ⟨members, hmembers, rfl⟩ := Option.map_eq_some_iff.1 h
  obtain ⟨⟨found, rest⟩, hfound, hrest⟩ := Option.bind_eq_some_iff.1 hmembers
  obtain ⟨-, -, hrest⟩ := Option.bind_eq_some_iff.1 hrest
  obtain rfl := Option.some.inj hrest
  exact ascends_of_members? hfound

end RuleTable

end Indentation
