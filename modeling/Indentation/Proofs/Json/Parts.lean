import Indentation.Json.Shape
import Indentation.Proofs.Except
import Mathlib.Data.List.Nodup

/-!
# Records in parts

A record can be in parts: a field is read into a part of its own, from what that part was before, and
nothing else looks at it.  Members with different names are then read each on its own, so their order does
not matter, and an array of all fields is read like the object that names them.
-/

namespace Indentation.Json

/-! ## Members in their places -/

theorem obj_ne_null (members : List (String × Json)) : Json.obj members ≠ .null := nofun

theorem ofMembers_ne_null (members : List (String × Json)) : ofMembers members ≠ .null :=
  obj_ne_null _

theorem perm_insert {members : List (String × Json)} {name : String} {value : Json}
    (h : name ∉ members.map Prod.fst) : (insert members name value).Perm ((name, value) :: members) := by
  induction members with
  | nil => exact .refl _
  | cons first rest ih =>
    rw [List.map_cons, List.mem_cons, not_or] at h
    rw [insert, if_neg h.1]
    split
    · exact .refl _
    · exact ((ih h.2).cons first).trans (.swap _ _ rest)

theorem ofMembers_eq (members : List (String × Json)) :
    ofMembers members = .obj (members.foldl (fun sorted e => insert sorted e.1 e.2) []) := rfl

/-- An object has the members that it is made of, in some order, if each name stands once. -/
theorem exists_ofMembers {members : List (String × Json)} (h : (members.map Prod.fst).Nodup) :
    ∃ sorted, ofMembers members = .obj sorted ∧ sorted.Perm members := by
  have hall : ∀ members done : List (String × Json), ((done ++ members).map Prod.fst).Nodup →
      (members.foldl (fun sorted e => insert sorted e.1 e.2) done).Perm
        (done ++ members) := by
    intro members
    induction members with
    | nil =>
      intro done _
      rw [List.append_nil]
      exact .refl _
    | cons e rest ih =>
      intro done hnodup
      have hperm : (done ++ e :: rest).Perm ((e :: done) ++ rest) := List.perm_middle
      have hnodup' := (hperm.map Prod.fst).nodup hnodup
      have hinsert : (insert done e.1 e.2).Perm (e :: done) := by
        apply perm_insert
        intro hmem
        exact (List.nodup_cons.1 hnodup').1 (List.map_append ▸ List.mem_append_left _ hmem)
      refine (ih _ (((hinsert.append_right rest).map Prod.fst).symm.nodup hnodup')).trans ?_
      exact (hinsert.append_right rest).trans hperm.symm
  exact ⟨_, ofMembers_eq members, hall members [] h⟩

namespace Record

variable {α : Type} {r : Record α} {a b : α} {e : String × Json} {members members' : List (String × Json)}

theorem exists_putMember_of_mem (h : members.foldlM r.putMember a = .ok b) (he : e ∈ members) :
    ∃ c d, r.putMember c e = .ok d := by
  induction members generalizing a with
  | nil => cases he
  | cons first rest ih =>
    obtain ⟨m, hm, h⟩ := foldlM_cons_eq_ok.1 h
    rcases List.mem_cons.1 he with rfl | he
    · exact ⟨a, m, hm⟩
    · exact ih h he

/-- An object with a field that the record does not have is refused. -/
theorem read_ne_ok_of_unknown (he : e ∈ members) (hfield : e.1 ∉ r.fields) :
    r.read a (.obj members) ≠ .ok b := by
  intro h
  obtain ⟨c, d, hput⟩ := exists_putMember_of_mem h he
  rw [putMember, if_neg (by simpa using hfield)] at hput
  cases hput

/-- Members that are put alike are read alike. -/
theorem read_congr_member {e' : String × Json} (h : ∀ c, r.putMember c e = r.putMember c e') :
    r.read a (.obj (members ++ e :: members')) = r.read a (.obj (members ++ e' :: members')) := by
  simp only [read, List.foldlM_append, List.foldlM_cons, h]

/-- Members that are put alike when they can be put are read alike when they can be read. -/
theorem read_eq_ok_congr_member {e' : String × Json}
    (h : ∀ c d, r.putMember c e = .ok d ↔ r.putMember c e' = .ok d) :
    r.read a (.obj (members ++ e :: members')) = .ok b ↔
      r.read a (.obj (members ++ e' :: members')) = .ok b := by
  change (members ++ e :: members').foldlM r.putMember a = .ok b ↔
    (members ++ e' :: members').foldlM r.putMember a = .ok b
  induction members generalizing a with
  | nil => simp only [List.nil_append, foldlM_cons_eq_ok, h]
  | cons first rest ih => simp only [List.cons_append, foldlM_cons_eq_ok, ih]

/-- A member that changes nothing may be left out. -/
theorem read_erase_member (h : ∀ c, r.putMember c e = .ok c) :
    r.read a (.obj (members ++ e :: members')) = r.read a (.obj (members ++ members')) := by
  simp only [read, List.foldlM_append, List.foldlM_cons, h]
  rfl

/-- Items are put into the fields that they stand for. -/
theorem putItems_eq_ok_iff {fields : List String} {items : List Json} {count : Nat}
    (hfields : ∀ field ∈ fields, field ∈ r.fields) :
    r.putItems a count fields items = .ok b ↔
      items.length = fields.length ∧ (fields.zip items).foldlM r.putMember a = .ok b := by
  induction fields generalizing items a count with
  | nil => cases items <;> simp [putItems, List.foldlM_nil, pure, Except.pure]
  | cons field fields ih =>
    cases items with
    | nil => simp [putItems]
    | cons item items =>
      obtain ⟨hfield, hfields⟩ := List.forall_mem_cons.1 hfields
      have hput : r.putMember a (field, item) = r.put a field item := by
        rw [putMember, if_pos (by simpa using hfield)]
      rw [putItems, List.zip_cons_cons, foldlM_cons_eq_ok, hput]
      cases r.put a field item with
      | error cause => simp [bind, Except.bind]
      | ok m => simpa [bind, Except.bind] using ih hfields

end Record

/-- A record in parts.  What is in none of them is the rest. -/
structure Record.Parts {α : Type} (r : Record α) where
  Part : Type
  Value : Part → Type
  Rest : Type
  /-- All parts, in the order of their fields. -/
  parts : List Part
  key : Part → String
  get : (x : Part) → α → Value x
  set : (x : Part) → α → Value x → α
  rest : α → Rest
  /-- Read the value of a field, given what its part was before. -/
  read : (x : Part) → Value x → Json → Except ShapeError (Value x)
  mem_parts : ∀ x, x ∈ parts
  fields_eq : r.fields = parts.map key
  nodup_fields : r.fields.Nodup
  get_set : ∀ x a v, get x (set x a v) = v
  get_set_of_ne : ∀ x y a v, x ≠ y → get y (set x a v) = get y a
  rest_set : ∀ x a v, rest (set x a v) = rest a
  ext : ∀ a b, (∀ x, get x a = get x b) → rest a = rest b → a = b
  put_key : ∀ x a j, r.put a (key x) j = (read x (get x a) j).map (set x a)
  read_null : ∀ x v, read x v .null = .ok v

namespace Record.Parts

variable {α : Type} {r : Record α} (P : r.Parts) {a b : α} {e : String × Json}
  {members members' : List (String × Json)} {x : P.Part} {j : Json}

theorem mem_fields_iff {name : String} : name ∈ r.fields ↔ ∃ x, P.key x = name := by
  rw [P.fields_eq, List.mem_map]
  exact exists_congr fun x => and_iff_right (P.mem_parts x)

theorem key_inj {x y : P.Part} (h : P.key x = P.key y) : x = y :=
  List.inj_on_of_nodup_map (P.fields_eq ▸ P.nodup_fields) (P.mem_parts x) (P.mem_parts y) h

theorem putMember_key (x : P.Part) (a : α) (j : Json) :
    r.putMember a (P.key x, j) = (P.read x (P.get x a) j).map (P.set x a) := by
  have hfield : P.key x ∈ r.fields := P.mem_fields_iff.2 ⟨x, rfl⟩
  rw [putMember, if_pos (by simpa using hfield), P.put_key]

theorem putMember_null (x : P.Part) (a : α) : r.putMember a (P.key x, .null) = .ok a := by
  rw [putMember_key, P.read_null, Except.map]
  refine congrArg Except.ok (P.ext _ _ (fun y => ?_) (P.rest_set x a _))
  by_cases hxy : x = y
  · subst hxy
    exact P.get_set x a _
  · exact P.get_set_of_ne x y a _ hxy

/-- What a member does that is put: it is for some part, which it replaces. -/
theorem putMember_eq_ok_iff : r.putMember a e = .ok b ↔
    ∃ x, P.key x = e.1 ∧ ∃ v, P.read x (P.get x a) e.2 = .ok v ∧ P.set x a v = b := by
  obtain ⟨name, j⟩ := e
  constructor
  · intro h
    by_cases hfield : name ∈ r.fields
    · obtain ⟨x, rfl⟩ := P.mem_fields_iff.1 hfield
      rw [P.putMember_key] at h
      refine ⟨x, rfl, ?_⟩
      cases hread : P.read x (P.get x a) j with
      | error cause => rw [hread] at h; cases h
      | ok v => rw [hread] at h; exact ⟨v, rfl, Except.ok.inj h⟩
    · rw [putMember, if_neg (by simpa using hfield)] at h
      cases h
  · rintro ⟨x, rfl, v, hread, rfl⟩
    rw [P.putMember_key, hread]
    rfl

/-- The value of a member can be read for a part of the record. -/
def Accepts (a : α) (e : String × Json) : Prop :=
  ∃ x, P.key x = e.1 ∧ ∃ v, P.read x (P.get x a) e.2 = .ok v

/-- A part that no member is for stays. -/
theorem get_of_notMem (h : members.foldlM r.putMember a = .ok b)
    (hx : P.key x ∉ members.map Prod.fst) : P.get x b = P.get x a := by
  induction members generalizing a with
  | nil => rw [Except.ok.inj h]
  | cons e rest ih =>
    obtain ⟨m, hm, h⟩ := foldlM_cons_eq_ok.1 h
    obtain ⟨y, hy, v, -, rfl⟩ := P.putMember_eq_ok_iff.1 hm
    rw [List.map_cons, List.mem_cons, not_or] at hx
    rw [ih h hx.2, P.get_set_of_ne]
    rintro rfl
    exact hx.1 hy

/-- A part that a member is for is read from what it was before. -/
theorem read_of_mem (hnodup : (members.map Prod.fst).Nodup) (h : members.foldlM r.putMember a = .ok b)
    (hmem : (P.key x, j) ∈ members) : P.read x (P.get x a) j = .ok (P.get x b) := by
  induction members generalizing a with
  | nil => cases hmem
  | cons e rest ih =>
    obtain ⟨m, hm, hrest⟩ := foldlM_cons_eq_ok.1 h
    obtain ⟨y, hy, v, hread, rfl⟩ := P.putMember_eq_ok_iff.1 hm
    rw [List.map_cons, List.nodup_cons, ← hy] at hnodup
    rcases List.mem_cons.1 hmem with rfl | hmem
    · obtain rfl := P.key_inj hy
      rw [P.get_of_notMem hrest hnodup.1, P.get_set, hread]
    · have hne : y ≠ x := by
        rintro rfl
        exact hnodup.1 (List.mem_map.2 ⟨_, hmem, rfl⟩)
      rw [← ih hnodup.2 hrest hmem, P.get_set_of_ne y x a v hne]

/-- A part is the same after all objects that agree about it. -/
theorem get_eq_of_mem {b' : α} (hnodup : (members.map Prod.fst).Nodup)
    (h : members.foldlM r.putMember a = .ok b) (hmem : (P.key x, j) ∈ members)
    (hnodup' : (members'.map Prod.fst).Nodup) (h' : members'.foldlM r.putMember a = .ok b')
    (hmem' : (P.key x, j) ∈ members') : P.get x b = P.get x b' := by
  have hread := P.read_of_mem hnodup h hmem
  rw [P.read_of_mem hnodup' h' hmem'] at hread
  exact (Except.ok.inj hread).symm

theorem rest_eq (h : members.foldlM r.putMember a = .ok b) : P.rest b = P.rest a := by
  induction members generalizing a with
  | nil => rw [Except.ok.inj h]
  | cons e rest ih =>
    obtain ⟨m, hm, h⟩ := foldlM_cons_eq_ok.1 h
    obtain ⟨y, -, v, -, rfl⟩ := P.putMember_eq_ok_iff.1 hm
    rw [ih h, P.rest_set]

/-- An object is read if each member can be read on its own. -/
theorem exists_read_iff (hnodup : (members.map Prod.fst).Nodup) :
    (∃ b, r.read a (.obj members) = .ok b) ↔ ∀ e ∈ members, P.Accepts a e := by
  change (∃ b, members.foldlM r.putMember a = .ok b) ↔ _
  induction members generalizing a with
  | nil => exact ⟨fun _ => List.forall_mem_nil _, fun _ => ⟨a, rfl⟩⟩
  | cons e rest ih =>
    rw [List.map_cons, List.nodup_cons] at hnodup
    rw [List.forall_mem_cons]
    -- What the other members are for is not what this one is for.
    have hother (x : P.Part) (v : P.Value x) (hx : P.key x = e.1) :
        (∀ f ∈ rest, P.Accepts (P.set x a v) f) ↔ ∀ f ∈ rest, P.Accepts a f := by
      refine forall₂_congr fun f hf => exists_congr fun y => and_congr_right fun hy => ?_
      rw [P.get_set_of_ne]
      rintro rfl
      exact hnodup.1 (List.mem_map.2 ⟨f, hf, hy.symm.trans hx⟩)
    constructor
    · rintro ⟨b, hb⟩
      obtain ⟨m, hm, hb⟩ := foldlM_cons_eq_ok.1 hb
      obtain ⟨x, hx, v, hread, rfl⟩ := P.putMember_eq_ok_iff.1 hm
      exact ⟨⟨x, hx, v, hread⟩, (hother x v hx).1 ((ih hnodup.2).1 ⟨b, hb⟩)⟩
    · rintro ⟨⟨x, hx, v, hread⟩, hrest⟩
      obtain ⟨b, hb⟩ := (ih hnodup.2).2 ((hother x v hx).2 hrest)
      exact ⟨b, foldlM_cons_eq_ok.2 ⟨_, P.putMember_eq_ok_iff.2 ⟨x, hx, v, hread, rfl⟩, hb⟩⟩

/-! ## Changes outside the parts -/

/-- A change of a record that no part looks at. -/
structure Outside (f : α → α) : Prop where
  get_eq : ∀ x a, P.get x (f a) = P.get x a
  set_eq : ∀ x a v, P.set x (f a) v = f (P.set x a v)

namespace Outside

variable {P} {f : α → α} (h : P.Outside f)
include h

theorem put_key (x : P.Part) (a : α) (j : Json) :
    r.put (f a) (P.key x) j = (r.put a (P.key x) j).map f := by
  rw [P.put_key, P.put_key, h.get_eq]
  cases P.read x (P.get x a) j with
  | error cause => rfl
  | ok v => exact congrArg Except.ok (h.set_eq x a v)

theorem putMember (a : α) (e : String × Json) : r.putMember (f a) e = (r.putMember a e).map f := by
  rw [Record.putMember, Record.putMember]
  split
  · next hfield =>
    obtain ⟨x, hx⟩ := P.mem_fields_iff.1 (by simpa using hfield)
    rw [← hx, h.put_key]
  · rfl

theorem putItems {fields : List String} (hfields : ∀ field ∈ fields, field ∈ r.fields)
    (items : List Json) (count : Nat) (a : α) :
    r.putItems (f a) count fields items = (r.putItems a count fields items).map f := by
  induction fields generalizing items count a with
  | nil => cases items <;> rfl
  | cons field fields ih =>
    obtain ⟨hfield, hrest⟩ := List.forall_mem_cons.1 hfields
    obtain ⟨x, rfl⟩ := P.mem_fields_iff.1 hfield
    cases items with
    | nil => rfl
    | cons item items =>
      rw [Record.putItems, Record.putItems, h.put_key]
      cases r.put a (P.key x) item with
      | error cause => rfl
      | ok m => exact ih hrest items (count + 1) m

/-- The change may be made before or after reading. -/
theorem read (a : α) (j : Json) : r.read (f a) j = (r.read a j).map f := by
  cases j with
  | obj members =>
    change members.foldlM r.putMember (f a) = (members.foldlM r.putMember a).map f
    induction members generalizing a with
    | nil => rfl
    | cons e rest ih =>
      rw [List.foldlM_cons, List.foldlM_cons, h.putMember]
      cases r.putMember a e with
      | error cause => rfl
      | ok m => exact ih m
  | arr items => exact h.putItems (fun _ hfield => hfield) items 0 a
  | _ => rfl

end Outside

/-! ## The order of members -/

include P

/-- The order of members does not matter. -/
theorem read_perm (hnodup : (members.map Prod.fst).Nodup) (hperm : members.Perm members')
    (h : r.read a (.obj members) = .ok b) : r.read a (.obj members') = .ok b := by
  have hnodup' : (members'.map Prod.fst).Nodup := (hperm.map Prod.fst).nodup hnodup
  obtain ⟨b', hb'⟩ : ∃ b', r.read a (.obj members') = .ok b' := by
    apply (P.exists_read_iff hnodup').2
    intro e he
    exact (P.exists_read_iff hnodup).1 ⟨b, h⟩ e (hperm.mem_iff.2 he)
  rw [hb']
  refine congrArg Except.ok (P.ext b' b ?_ ((P.rest_eq hb').trans (P.rest_eq h).symm))
  intro x
  by_cases hx : P.key x ∈ members.map Prod.fst
  · obtain ⟨⟨_, j⟩, hmem, rfl⟩ := List.mem_map.1 hx
    exact P.get_eq_of_mem hnodup' hb' (hperm.mem_iff.1 hmem) hnodup h hmem
  · have hx' : P.key x ∉ members'.map Prod.fst := fun hmem => hx ((hperm.map Prod.fst).mem_iff.2 hmem)
    rw [P.get_of_notMem hb' hx', P.get_of_notMem h hx]

theorem read_ofMembers_iff (hnodup : (members.map Prod.fst).Nodup) :
    r.read a (ofMembers members) = .ok b ↔ r.read a (.obj members) = .ok b := by
  obtain ⟨sorted, heq, hperm⟩ := exists_ofMembers hnodup
  rw [heq]
  exact ⟨P.read_perm ((hperm.map Prod.fst).symm.nodup hnodup) hperm, P.read_perm hnodup hperm.symm⟩

/-- An array of all fields is read like the object that names them. -/
theorem read_arr_iff {items : List Json} (hlen : items.length = r.fields.length) :
    r.read a (.arr items) = .ok b ↔ r.read a (ofMembers (r.fields.zip items)) = .ok b := by
  have hnames : (r.fields.zip items).map Prod.fst = r.fields := List.map_fst_zip (Nat.le_of_eq hlen.symm)
  rw [P.read_ofMembers_iff (hnames.symm ▸ P.nodup_fields)]
  exact (putItems_eq_ok_iff fun _ h => h).trans (and_iff_right hlen)

end Record.Parts

end Indentation.Json
