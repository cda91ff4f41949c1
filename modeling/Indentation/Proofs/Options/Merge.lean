import Indentation.Proofs.Options.Settings

/-!
# Settings merge key by key

Two objects of settings without a common key are read together as each of them is read alone, null is the
same as no value, and arrays of all fields are read like objects.  The unit is looked at before the
settings, and does not matter to them.
-/

namespace Indentation

namespace Options

/-! ## The unit and the settings -/

/-- Options in another unit. -/
def inUnit (c : IndentChar) (unit : Nat) (o : IndentOptions) : IndentOptions :=
  { o with indentChar := c, unit := unit }

theorem outside_inUnit (c : IndentChar) (unit : Nat) : settingParts.Outside (inUnit c unit) where
  get_eq x o := by cases x <;> rfl
  set_eq x o v := by cases x <;> rfl

/-- A unit is the word for tabs, or a number within the limit. -/
def IsUnit (j : Json) : Prop := j.isWord "tab" = true ∨ ∃ n ≤ widthLimit, j = .int n

theorem IsUnit.exists_readUnit {j : Json} (h : IsUnit j) :
    ∃ c unit, ∀ o, readUnit o j = .ok (inUnit c unit o) := by
  by_cases htab : j.isWord "tab" = true
  · exact ⟨.tab, 1, fun o => by rw [readUnit, if_pos htab]; rfl⟩
  · obtain ⟨n, hn⟩ := h.resolve_left htab
    exact ⟨.space, n, fun o => by rw [readUnit, if_neg htab, readLevels_eq_ok_iff.2 hn]; rfl⟩

theorem readUnit_of_not_isUnit {j : Json} (h : ¬IsUnit j) (o : IndentOptions) :
    readUnit o j = .error (.unit j) := by
  rw [IsUnit, not_or] at h
  rw [readUnit, if_neg h.1]
  cases hread : readLevels j with
  | error cause => rfl
  | ok n => exact absurd ⟨n, readLevels_eq_ok_iff.1 hread⟩ h.2

theorem readSettings_eq_ok_iff {j : Json} {o p : IndentOptions} :
    readSettings o j = .ok p ↔ update settingsRecord.read o j = .ok p := by
  rw [readSettings]
  cases update settingsRecord.read o j <;> simp

theorem readSettings_eq_error_iff {j : Json} {o : IndentOptions} {e : OptionsError} :
    readSettings o j = .error e ↔
      ∃ cause, update settingsRecord.read o j = .error cause ∧ e = .settings cause := by
  rw [readSettings]
  cases update settingsRecord.read o j <;> simp [eq_comm]

end Options

namespace IndentOptions

open Options
open Json (Record)

variable {unit settings : Json} {o : IndentOptions}

theorem read_of_not_isUnit (h : ¬IsUnit unit) (settings : Json) :
    read [unit, settings] = .error (.unit unit) := by
  rw [read, readUnit_of_not_isUnit h]
  rfl

/-- The settings do not look at the unit. -/
theorem read_of_readUnit {c : IndentChar} {n : Nat} (h : ∀ o, readUnit o unit = .ok (inUnit c n o))
    (settings : Json) : read [unit, settings] = (readSettings standard settings).map (inUnit c n) := by
  have hupdate : update settingsRecord.read (inUnit c n standard) settings =
      (update settingsRecord.read standard settings).map (inUnit c n) := by
    by_cases hnull : settings = .null
    · rw [hnull]
      rfl
    · rw [update_of_ne_null _ _ hnull, update_of_ne_null _ _ hnull]
      exact (outside_inUnit c n).read standard settings
  change (do readSettings (← readUnit standard unit) settings) = _
  rw [h]
  change readSettings (inUnit c n standard) settings = _
  rw [readSettings, hupdate, readSettings]
  cases update settingsRecord.read standard settings <;> rfl

theorem read_eq_ok_iff {c : IndentChar} {n : Nat} (h : ∀ o, readUnit o unit = .ok (inUnit c n o))
    (hsettings : settings ≠ .null) : read [unit, settings] = .ok o ↔
      ∃ p, settingsRecord.read standard settings = .ok p ∧ inUnit c n p = o := by
  rw [read_of_readUnit h, map_eq_ok_iff]
  simp only [readSettings_eq_ok_iff, update_of_ne_null _ _ hsettings]

theorem exists_readUnit_of_read (h : read [unit, settings] = .ok o) :
    ∃ c n, ∀ o, readUnit o unit = .ok (inUnit c n o) := by
  by_cases hunit : IsUnit unit
  · exact hunit.exists_readUnit
  · rw [read_of_not_isUnit hunit] at h
    cases h

/-- The settings leave the unit alone. -/
theorem unit_of_read (h : read [unit, settings] = .ok o) :
    ∃ plain, read [unit] = .ok plain ∧ o.indentChar = plain.indentChar ∧ o.unit = plain.unit := by
  obtain ⟨c, n, hunit⟩ := exists_readUnit_of_read h
  rw [read_of_readUnit hunit] at h
  obtain ⟨p, -, rfl⟩ := map_eq_ok_iff.1 h
  exact ⟨_, hunit standard, rfl, rfl⟩

/-! ## Objects without a common key -/

section Union

variable {members members' : List (String × Json)} (h : ((members ++ members').map Prod.fst).Nodup)
include h

theorem exists_read_union_iff : (∃ o, read [unit, .ofMembers (members ++ members')] = .ok o) ↔
    (∃ o, read [unit, .obj members] = .ok o) ∧ ∃ o, read [unit, .obj members'] = .ok o := by
  by_cases hunit : IsUnit unit
  · obtain ⟨c, n, hunit⟩ := hunit.exists_readUnit
    obtain ⟨hnodup, hnodup', -⟩ := List.nodup_append.1 (List.map_append ▸ h)
    have hread {settings : Json} (hsettings : settings ≠ .null) : (∃ o, read [unit, settings] = .ok o) ↔
        ∃ p, settingsRecord.read standard settings = .ok p := by
      simp only [read_eq_ok_iff hunit hsettings]
      constructor
      · rintro ⟨_, p, hp, -⟩
        exact ⟨p, hp⟩
      · rintro ⟨p, hp⟩
        exact ⟨_, p, hp, rfl⟩
    rw [hread (Json.ofMembers_ne_null _), hread (Json.obj_ne_null members),
      hread (Json.obj_ne_null members')]
    simp only [settingParts.read_ofMembers_iff h]
    rw [settingParts.exists_read_iff h, settingParts.exists_read_iff hnodup,
      settingParts.exists_read_iff hnodup', List.forall_mem_append]
  · simp only [read_of_not_isUnit hunit]
    constructor
    · rintro ⟨_, ho⟩
      cases ho
    · rintro ⟨⟨_, ho⟩, -⟩
      cases ho

/-- Of a key that one of the objects has, the union gives what that object gives, and of any other key what
there is without settings. -/
theorem value_of_read_union {o o₁ o₂ : IndentOptions}
    (ho : read [unit, .ofMembers (members ++ members')] = .ok o) (ho₁ : read [unit, .obj members] = .ok o₁)
    (ho₂ : read [unit, .obj members'] = .ok o₂) (x : Setting) :
    x.value o = if x.key ∈ members.map Prod.fst then x.value o₁
      else if x.key ∈ members'.map Prod.fst then x.value o₂ else x.value standard := by
  obtain ⟨c, n, hunit⟩ := exists_readUnit_of_read ho
  obtain ⟨hnodup, hnodup', -⟩ := List.nodup_append.1 (List.map_append ▸ h)
  obtain ⟨p, hp, rfl⟩ := (read_eq_ok_iff hunit (Json.ofMembers_ne_null _)).1 ho
  obtain ⟨p₁, hp₁, rfl⟩ := (read_eq_ok_iff hunit (Json.obj_ne_null members)).1 ho₁
  obtain ⟨p₂, hp₂, rfl⟩ := (read_eq_ok_iff hunit (Json.obj_ne_null members')).1 ho₂
  have hp := (settingParts.read_ofMembers_iff h).1 hp
  have hvalue (o : IndentOptions) : x.value (inUnit c n o) = x.value o := (outside_inUnit c n).get_eq x o
  rw [hvalue, hvalue, hvalue]
  split_ifs with hx hx'
  · obtain ⟨⟨_, j⟩, hmem, rfl⟩ := List.mem_map.1 hx
    exact settingParts.get_eq_of_mem h hp (List.mem_append_left _ hmem) hnodup hp₁ hmem
  · obtain ⟨⟨_, j⟩, hmem, rfl⟩ := List.mem_map.1 hx'
    exact settingParts.get_eq_of_mem h hp (List.mem_append_right _ hmem) hnodup' hp₂ hmem
  · apply settingParts.get_of_notMem hp
    intro hmem
    rw [List.map_append, List.mem_append] at hmem
    exact hmem.elim hx hx'

end Union

/-! ## Keys one by one -/

section Members

variable {before after : List (String × Json)}

theorem read_congr_settings {settings settings' : Json} (hsettings : settings ≠ .null)
    (hsettings' : settings' ≠ .null)
    (h : ∀ a, settingsRecord.read a settings = settingsRecord.read a settings') :
    read [unit, settings] = read [unit, settings'] := by
  have hread (a : IndentOptions) : readSettings a settings = readSettings a settings' := by
    rw [readSettings, readSettings, update_of_ne_null _ _ hsettings, update_of_ne_null _ _ hsettings', h]
  change (do readSettings (← readUnit standard unit) settings) = _
  simp only [hread]
  rfl

theorem read_null_key (unit : Json) (x : Setting) :
    read [unit, .obj (before ++ (x.key, .null) :: after)] = read [unit, .obj (before ++ after)] :=
  read_congr_settings (Json.obj_ne_null _) (Json.obj_ne_null _) fun _ =>
    Record.read_erase_member fun a => settingParts.putMember_null x a

theorem read_null_field (unit : Json) {x : Setting} {r : Record x.Value} (h : x.record? = some r)
    {field : String} (hfield : field ∈ r.fields) (inner inner' : List (String × Json)) :
    read [unit, .obj (before ++ (x.key, .obj (inner ++ (field, .null) :: inner')) :: after)] =
      read [unit, .obj (before ++ (x.key, .obj (inner ++ inner')) :: after)] :=
  read_congr_settings (Json.obj_ne_null _) (Json.obj_ne_null _) fun _ =>
    Record.read_congr_member fun a => putMember_null_field h hfield inner inner' a

/-- Settings that cannot be read are refused, in whichever unit. -/
theorem exists_error_of_settings (unit : Json) {members : List (String × Json)}
    (h : ∀ a b, settingsRecord.read a (.obj members) ≠ .ok b) :
    ∃ cause, read [unit, .obj members] = .error cause := by
  cases hread : read [unit, .obj members] with
  | error cause => exact ⟨cause, rfl⟩
  | ok o =>
    obtain ⟨c, n, hunit⟩ := exists_readUnit_of_read hread
    obtain ⟨p, hp, -⟩ := (read_eq_ok_iff hunit (Json.obj_ne_null members)).1 hread
    exact absurd hp (h _ _)

theorem exists_error_of_unknown_key (unit : Json) {members : List (String × Json)} {e : String × Json}
    (he : e ∈ members) (hkey : e.1 ∉ settingsRecord.fields) :
    ∃ cause, read [unit, .obj members] = .error cause :=
  exists_error_of_settings unit fun _ _ => Record.read_ne_ok_of_unknown he hkey

theorem exists_error_of_unknown_field (unit : Json) {x : Setting} {r : Record x.Value}
    (hx : x.record? = some r) {inner members : List (String × Json)} {e : String × Json} (he : e ∈ inner)
    (hfield : e.1 ∉ r.fields) (hinner : (x.key, .obj inner) ∈ members) :
    ∃ cause, read [unit, .obj members] = .error cause := by
  apply exists_error_of_settings unit
  intro _ _ h
  obtain ⟨a, b, hput⟩ := Record.exists_putMember_of_mem h hinner
  exact putMember_ne_ok_of_unknown hx he hfield hput

end Members

/-! ## Arrays -/

theorem read_eq_ok_congr {settings settings' : Json} (hsettings : settings ≠ .null)
    (hsettings' : settings' ≠ .null) (h : ∀ a b, settingsRecord.read a settings = .ok b ↔
      settingsRecord.read a settings' = .ok b) :
    read [unit, settings] = .ok o ↔ read [unit, settings'] = .ok o := by
  by_cases hunit : IsUnit unit
  · obtain ⟨c, n, hunit⟩ := hunit.exists_readUnit
    rw [read_eq_ok_iff hunit hsettings, read_eq_ok_iff hunit hsettings']
    simp only [h]
  · rw [read_of_not_isUnit hunit, read_of_not_isUnit hunit]

theorem read_arr_iff {items : List Json} (hlen : items.length = settingsRecord.fields.length) :
    read [unit, .arr items] = .ok o ↔
      read [unit, .ofMembers (settingsRecord.fields.zip items)] = .ok o :=
  read_eq_ok_congr nofun (Json.ofMembers_ne_null _) fun _ _ => settingParts.read_arr_iff hlen

theorem read_arr_field_iff {x : Setting} {r : Record x.Value} (h : x.record? = some r) {items : List Json}
    (hlen : items.length = r.fields.length) {before after : List (String × Json)} :
    read [unit, .obj (before ++ (x.key, .arr items) :: after)] = .ok o ↔
      read [unit, .obj (before ++ (x.key, .ofMembers (r.fields.zip items)) :: after)] = .ok o :=
  read_eq_ok_congr (Json.obj_ne_null _) (Json.obj_ne_null _) fun _ _ =>
    Record.read_eq_ok_congr_member fun _ _ => putMember_arr_iff h hlen

/-! ## What is wrong first -/

theorem read_tooMany {options : List Json} (h : 2 < options.length) :
    read options = .error (.tooMany options.length) := by
  match options, h with
  | _ :: _ :: _ :: _, _ => rfl

theorem read_badUnit {options : List Json} (hlen : options.length ≤ 2) (hunit : unit ∈ options.head?)
    (hbad : ¬IsUnit unit) : read options = .error (.unit unit) := by
  match options, hlen, hunit with
  | [_], _, rfl => exact readUnit_of_not_isUnit hbad standard
  | [_, settings], _, rfl => exact read_of_not_isUnit hbad settings

theorem read_error_iff {options : List Json} (hlen : options.length ≤ 2)
    (hunit : ∀ unit ∈ options.head?, IsUnit unit) (e : OptionsError) :
    read options = .error e ↔ ∃ settings ∈ options[1]?, ∃ cause,
      update settingsRecord.read standard settings = .error cause ∧ e = .settings cause := by
  match options, hlen, hunit with
  | [], _, _ => simp [read]
  | [unit], _, hunit =>
    obtain ⟨c, n, hunit⟩ := (hunit unit rfl).exists_readUnit
    simp [read, hunit]
  | [unit, settings], _, hunit =>
    obtain ⟨c, n, hunit⟩ := (hunit unit rfl).exists_readUnit
    rw [read_of_readUnit hunit, map_eq_error_iff, readSettings_eq_error_iff]
    constructor
    · intro h
      exact ⟨settings, rfl, h⟩
    · rintro ⟨_, hsettings, h⟩
      obtain rfl := Option.some.inj hsettings
      exact h

/-! ## The options as a whole -/

/-- Two objects of settings without a common key can be read together exactly if each of them can be read.
The unit is then the one that is given.  What an object has a key for is as that object says, and the rest
is as without settings.  A key that is null counts as absent, in the settings and in each record in them,
but a key that is not known is refused whatever its value is.  The settings and each record in them may be
given as an array of all fields.  Of too many options, a bad unit and bad settings the first one that
there is gets reported. -/
theorem read_merges_keys (unit : Json) :
    (∀ members members' : List (String × Json), ((members ++ members').map Prod.fst).Nodup →
      ((∃ o, read [unit, .ofMembers (members ++ members')] = .ok o) ↔
        (∃ o, read [unit, .obj members] = .ok o) ∧ ∃ o, read [unit, .obj members'] = .ok o) ∧
      ∀ o o₁ o₂, read [unit, .ofMembers (members ++ members')] = .ok o →
        read [unit, .obj members] = .ok o₁ → read [unit, .obj members'] = .ok o₂ →
          (∃ plain, read [unit] = .ok plain ∧ o.indentChar = plain.indentChar ∧ o.unit = plain.unit) ∧
          ∀ x : Setting, x.value o = if x.key ∈ members.map Prod.fst then x.value o₁
            else if x.key ∈ members'.map Prod.fst then x.value o₂ else x.value standard) ∧
    (∀ (x : Setting) (before after : List (String × Json)),
      read [unit, .obj (before ++ (x.key, .null) :: after)] = read [unit, .obj (before ++ after)]) ∧
    (∀ (x : Setting) (r : Record x.Value), x.record? = some r → ∀ field ∈ r.fields,
      ∀ inner inner' before after : List (String × Json),
        read [unit, .obj (before ++ (x.key, .obj (inner ++ (field, .null) :: inner')) :: after)] =
          read [unit, .obj (before ++ (x.key, .obj (inner ++ inner')) :: after)]) ∧
    (∀ members : List (String × Json), (∃ e ∈ members, e.1 ∉ settingsRecord.fields) →
      ∃ cause, read [unit, .obj members] = .error cause) ∧
    (∀ (x : Setting) (r : Record x.Value), x.record? = some r → ∀ inner members : List (String × Json),
      (∃ e ∈ inner, e.1 ∉ r.fields) → (x.key, .obj inner) ∈ members →
        ∃ cause, read [unit, .obj members] = .error cause) ∧
    (∀ items : List Json, items.length = settingsRecord.fields.length → ∀ o,
      read [unit, .arr items] = .ok o ↔ read [unit, .ofMembers (settingsRecord.fields.zip items)] = .ok o) ∧
    (∀ (x : Setting) (r : Record x.Value), x.record? = some r → ∀ items : List Json,
      items.length = r.fields.length → ∀ (before after : List (String × Json)) (o : IndentOptions),
        read [unit, .obj (before ++ (x.key, .arr items) :: after)] = .ok o ↔
          read [unit, .obj (before ++ (x.key, .ofMembers (r.fields.zip items)) :: after)] = .ok o) ∧
    ∀ options : List Json,
      (2 < options.length → read options = .error (.tooMany options.length)) ∧
      (options.length ≤ 2 → ∀ unit ∈ options.head?, ¬IsUnit unit → read options = .error (.unit unit)) ∧
      (options.length ≤ 2 → (∀ unit ∈ options.head?, IsUnit unit) → ∀ e, read options = .error e ↔
        ∃ settings ∈ options[1]?, ∃ cause,
          update settingsRecord.read standard settings = .error cause ∧ e = .settings cause) := by
  refine ⟨?_, ?_, ?_, ?_, ?_, ?_, ?_, ?_⟩
  · intro members members' h
    refine ⟨exists_read_union_iff h, ?_⟩
    intro o o₁ o₂ ho ho₁ ho₂
    exact ⟨unit_of_read ho, value_of_read_union h ho ho₁ ho₂⟩
  · intro x before after
    exact read_null_key unit x
  · intro x r h field hfield inner inner' before after
    exact read_null_field unit h hfield inner inner'
  · rintro members ⟨e, he, hkey⟩
    exact exists_error_of_unknown_key unit he hkey
  · rintro x r h inner members ⟨e, he, hfield⟩ hinner
    exact exists_error_of_unknown_field unit h he hfield hinner
  · intro items hlen o
    exact read_arr_iff hlen
  · intro x r h items hlen before after o
    exact read_arr_field_iff h hlen
  · intro options
    exact ⟨read_tooMany, fun hlen _ => read_badUnit hlen, read_error_iff⟩

/-- Levels of two spaces, a switch and a function on one side, and lists on the other. -/
theorem read_merges_keys_twoSpaces :
    ∃ o, read [.int 2, .ofMembers ([("SwitchCase", .int 1), ("FunctionDeclaration", .arr [.null, .int 3])] ++
        [("ArrayExpression", .str "first"), ("MemberExpression", .null)])] = .ok o ∧
      o.unit = 2 ∧ o.switchCase = 1 ∧ o.functionDeclaration = ⟨none, 3⟩ ∧ o.array = .first ∧
      o.member = none := by
  obtain ⟨hunion, -⟩ := read_merges_keys (.int 2)
  obtain ⟨hiff, hvalues⟩ := hunion [("SwitchCase", .int 1), ("FunctionDeclaration", .arr [.null, .int 3])]
    [("ArrayExpression", .str "first"), ("MemberExpression", .null)] (by decide)
  have hleft : read [.int 2, .obj [("SwitchCase", .int 1), ("FunctionDeclaration", .arr [.null, .int 3])]] =
      .ok { standard with unit := 2, switchCase := 1, functionDeclaration := ⟨none, 3⟩ } := rfl
  have hright : read [.int 2, .obj [("ArrayExpression", .str "first"), ("MemberExpression", .null)]] =
      .ok { standard with unit := 2, array := .first } := rfl
  obtain ⟨o, ho⟩ := hiff.2 ⟨⟨_, hleft⟩, _, hright⟩
  obtain ⟨⟨plain, hplain, -, hunit⟩, hvalue⟩ := hvalues o _ _ ho hleft hright
  obtain rfl : { standard with unit := 2 } = plain := Except.ok.inj hplain
  exact ⟨o, ho, hunit, hvalue .switchCase, hvalue .functionDeclaration, hvalue .array, hvalue .member⟩

end IndentOptions

end Indentation
