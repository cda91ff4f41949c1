import Indentation.Options.Reader
import Indentation.Proofs.Json.Parts

/-!
# Parts of the options

Every key of the settings is for a part of the options of its own, and so is every field of a value that is
a record itself.  The number or word that may stand for such a value does not get in the way of the
record.
-/

namespace Indentation

namespace Options

open Json (Record)

/-! ## Values that may be null -/

/-- Read a value that is put before what is there, if it is given. -/
def refill {α : Type} (read : Json → Except ShapeError α) (old : Option α) (j : Json) :
    Except ShapeError (Option α) :=
  (Json.optional read j).map fun new => new <|> old

theorem bind_refill {α β : Type} (read : Json → Except ShapeError α) (old : Option α) (j : Json)
    (f : Option α → β) :
    (do return f ((← Json.optional read j) <|> old)) = (refill read old j).map f := by
  rw [refill]
  cases Json.optional read j <;> rfl

theorem update_of_ne_null {α : Type} (read : α → Json → Except ShapeError α) (value : α) {j : Json}
    (h : j ≠ .null) : update read value j = read value j := by
  cases j with
  | null => exact absurd rfl h
  | _ => rfl

theorem readLevels_eq_ok_iff {j : Json} {n : Nat} :
    readLevels j = .ok n ↔ n ≤ widthLimit ∧ j = .int n := by
  cases j with
  | int m =>
    simp only [readLevels, Json.int.injEq]
    split
    · rw [Except.ok.injEq]
      omega
    · constructor
      · intro h
        cases h
      · intro h
        omega
  | _ => simp [readLevels]

/-! ## Parts of the nested records -/

/-- Levels of a declaration, keyword by keyword. -/
def declaratorParts : declaratorRecord.Parts where
  Part := DeclarationKeyword
  Value _ := Nat
  Rest := Unit
  parts := [.varKeyword, .letKeyword, .constKeyword]
  key
    | .varKeyword => "var"
    | .letKeyword => "let"
    | .constKeyword => "const"
  get x d := d.of x
  set
    | .varKeyword, d, n => { d with varLevels := n }
    | .letKeyword, d, n => { d with letLevels := n }
    | .constKeyword, d, n => { d with constLevels := n }
  rest _ := ()
  read _ := replace readLevels
  mem_parts x := by cases x <;> decide
  fields_eq := rfl
  nodup_fields := by decide
  get_set x d n := by cases x <;> rfl
  get_set_of_ne x y d n h := by cases x <;> cases y <;> first | rfl | exact absurd rfl h
  rest_set _ _ _ := rfl
  ext a b h _ := by
    obtain ⟨_, _, _⟩ := a
    obtain ⟨_, _, _⟩ := b
    obtain rfl := h .varKeyword
    obtain rfl := h .letKeyword
    obtain rfl := h .constKeyword
    rfl
  put_key x d j := by
    simp only [declaratorRecord, putDeclarator, replace]
    cases Json.optional readLevels j with
    | error cause => rfl
    | ok n => cases x <;> cases n <;> rfl
  read_null _ _ := rfl

inductive FunctionPart where
  | parameters
  | body
deriving DecidableEq, Repr

def functionParts : functionRecord.Parts where
  Part := FunctionPart
  Value
    | .parameters => Option ListOffset
    | .body => Nat
  Rest := Unit
  parts := [.parameters, .body]
  key
    | .parameters => "parameters"
    | .body => "body"
  get
    | .parameters, f => f.parameters
    | .body, f => f.body
  set
    | .parameters, f, offset => { f with parameters := offset }
    | .body, f, n => { f with body := n }
  rest _ := ()
  read
    | .parameters => refill readListOffset
    | .body => replace readLevels
  mem_parts x := by cases x <;> decide
  fields_eq := rfl
  nodup_fields := by decide
  get_set x f v := by cases x <;> rfl
  get_set_of_ne x y f v h := by cases x <;> cases y <;> first | rfl | exact absurd rfl h
  rest_set _ _ _ := rfl
  ext a b h _ := by
    obtain ⟨_, _⟩ := a
    obtain ⟨_, _⟩ := b
    obtain rfl := h .parameters
    obtain rfl := h .body
    rfl
  put_key x f j := by
    cases x with
    | parameters => exact bind_refill readListOffset f.parameters j fun offset => { f with parameters := offset }
    | body =>
      simp only [functionRecord, putFunction, replace]
      cases Json.optional readLevels j <;> rfl
  read_null x v := by cases x <;> rfl

def callParts : callRecord.Parts where
  Part := Unit
  Value _ := Option ListOffset
  Rest := Unit
  parts := [()]
  key _ := "arguments"
  get _ offset := offset
  set _ _ offset := offset
  rest _ := ()
  read _ := refill readListOffset
  mem_parts _ := List.mem_singleton.2 rfl
  fields_eq := rfl
  nodup_fields := by decide
  get_set _ _ _ := rfl
  get_set_of_ne _ _ _ _ h := absurd rfl h
  rest_set _ _ _ := rfl
  ext _ _ h _ := h ()
  put_key _ offset j := bind_refill readListOffset offset j id
  read_null _ _ := rfl

/-! ## Parts of the options -/

/-- What there is a key for in the settings. -/
inductive Setting where
  | switchCase
  | declarators
  | outerCallBody
  | member
  | functionDeclaration
  | functionExpression
  | callArguments
  | array
  | object
deriving DecidableEq, Repr

namespace Setting

def key : Setting → String
  | .switchCase => "SwitchCase"
  | .declarators => "VariableDeclarator"
  | .outerCallBody => "outerIIFEBody"
  | .member => "MemberExpression"
  | .functionDeclaration => "FunctionDeclaration"
  | .functionExpression => "FunctionExpression"
  | .callArguments => "CallExpression"
  | .array => "ArrayExpression"
  | .object => "ObjectExpression"

def Value : Setting → Type
  | .switchCase | .outerCallBody => Nat
  | .declarators => DeclaratorLevels
  | .member => Option Nat
  | .functionDeclaration | .functionExpression => FunctionOptions
  | .callArguments => Option ListOffset
  | .array | .object => ListOffset

/-- What the options have of a setting. -/
def value : (x : Setting) → IndentOptions → x.Value
  | .switchCase, o => o.switchCase
  | .declarators, o => o.declarators
  | .outerCallBody, o => o.outerCallBody
  | .member, o => o.member
  | .functionDeclaration, o => o.functionDeclaration
  | .functionExpression, o => o.functionExpression
  | .callArguments, o => o.callArguments
  | .array, o => o.array
  | .object, o => o.object

def set : (x : Setting) → IndentOptions → x.Value → IndentOptions
  | .switchCase, o, levels => { o with switchCase := levels }
  | .declarators, o, levels => { o with declarators := levels }
  | .outerCallBody, o, levels => { o with outerCallBody := levels }
  | .member, o, levels => { o with member := levels }
  | .functionDeclaration, o, f => { o with functionDeclaration := f }
  | .functionExpression, o, f => { o with functionExpression := f }
  | .callArguments, o, offset => { o with callArguments := offset }
  | .array, o, offset => { o with array := offset }
  | .object, o, offset => { o with object := offset }

def read : (x : Setting) → x.Value → Json → Except ShapeError x.Value
  | .switchCase | .outerCallBody => replace readLevels
  | .declarators => update readDeclarators
  | .member => refill readLevels
  | .functionDeclaration | .functionExpression => update functionRecord.read
  | .callArguments => update callRecord.read
  | .array | .object => replace readListOffset

/-- The record that an object under a key stands for. -/
def record? : (x : Setting) → Option (Record x.Value)
  | .declarators => some declaratorRecord
  | .functionDeclaration | .functionExpression => some functionRecord
  | .callArguments => some callRecord
  | _ => none

end Setting

theorem putSetting_key (x : Setting) (o : IndentOptions) (j : Json) :
    putSetting o x.key j = (x.read (x.value o) j).map (x.set o) := by
  cases x
  case member => exact bind_refill readLevels o.member j fun levels => { o with member := levels }
  all_goals exact bind_return _ _

def settingParts : settingsRecord.Parts where
  Part := Setting
  Value := Setting.Value
  Rest := IndentChar × Nat
  parts := [.switchCase, .declarators, .outerCallBody, .member, .functionDeclaration,
    .functionExpression, .callArguments, .array, .object]
  key := Setting.key
  get := Setting.value
  set := Setting.set
  rest o := (o.indentChar, o.unit)
  read := Setting.read
  mem_parts x := by cases x <;> decide
  fields_eq := rfl
  nodup_fields := by decide
  get_set x o v := by cases x <;> rfl
  get_set_of_ne x y o v h := by cases x <;> cases y <;> first | rfl | exact absurd rfl h
  rest_set x o v := by cases x <;> rfl
  ext a b h hrest := by
    obtain ⟨hchar, hunit⟩ := Prod.mk.inj hrest
    rw [IndentOptions.mk.injEq]
    exact ⟨hchar, hunit, h .switchCase, h .declarators, h .outerCallBody, h .member,
      h .functionDeclaration, h .functionExpression, h .callArguments, h .array, h .object⟩
  put_key := putSetting_key
  read_null x v := by cases x <;> rfl

theorem putMember_setting (x : Setting) (o : IndentOptions) (j : Json) :
    settingsRecord.putMember o (x.key, j) = (x.read (x.value o) j).map (x.set o) :=
  settingParts.putMember_key x o j

theorem putMember_setting_eq_ok_iff {x : Setting} {o p : IndentOptions} {j : Json} :
    settingsRecord.putMember o (x.key, j) = .ok p ↔ ∃ v, x.read (x.value o) j = .ok v ∧ x.set o v = p := by
  rw [putMember_setting]
  exact map_eq_ok_iff

/-! ## Records in the settings -/

section Nested

variable {x : Setting} {r : Record x.Value} {a b : IndentOptions}

theorem nonempty_parts (h : x.record? = some r) : Nonempty r.Parts := by
  cases x <;> cases h
  exacts [⟨declaratorParts⟩, ⟨functionParts⟩, ⟨functionParts⟩, ⟨callParts⟩]

/-- An object or an array under a key is read as the record that it stands for, up to what is said about a
failure. -/
theorem exists_read_eq (h : x.record? = some r) : ∃ wrap : ShapeError → ShapeError,
    (∀ v members, x.read v (.obj members) = (r.read v (.obj members)).mapError wrap) ∧
      ∀ v items, x.read v (.arr items) = (r.read v (.arr items)).mapError wrap := by
  have hid {α : Type} (e : Except ShapeError α) : e = e.mapError id := by cases e <;> rfl
  cases x <;> cases h
  case declarators =>
    have hwrap (d : DeclaratorLevels) (j : Json) {cause : ShapeError} (hj : readLevels j = .error cause) :
        readDeclarators d j = (declaratorRecord.read d j).mapError fun _ => .noVariant "RawDeclarator" := by
      rw [readDeclarators, hj]
      cases declaratorRecord.read d j <;> rfl
    exact ⟨_, fun d members => hwrap d (.obj members) rfl, fun d items => hwrap d (.arr items) rfl⟩
  all_goals exact ⟨id, fun v members => hid _, fun v items => hid _⟩

/-- A field that is null in a record in the settings may be left out. -/
theorem putMember_null_field (h : x.record? = some r) {field : String} (hfield : field ∈ r.fields)
    (inner inner' : List (String × Json)) (a : IndentOptions) :
    settingsRecord.putMember a (x.key, .obj (inner ++ (field, .null) :: inner')) =
      settingsRecord.putMember a (x.key, .obj (inner ++ inner')) := by
  obtain ⟨P⟩ := nonempty_parts h
  obtain ⟨wrap, hobj, -⟩ := exists_read_eq h
  obtain ⟨y, rfl⟩ := P.mem_fields_iff.1 hfield
  have hread (v : x.Value) : x.read v (.obj (inner ++ (P.key y, .null) :: inner')) =
      x.read v (.obj (inner ++ inner')) := by
    rw [hobj, hobj, Record.read_erase_member fun c => P.putMember_null y c]
  rw [putMember_setting, putMember_setting, hread]

/-- A record in the settings with a field that it does not have is refused. -/
theorem putMember_ne_ok_of_unknown (h : x.record? = some r) {inner : List (String × Json)}
    {e : String × Json} (he : e ∈ inner) (hfield : e.1 ∉ r.fields) :
    settingsRecord.putMember a (x.key, .obj inner) ≠ .ok b := by
  intro hput
  obtain ⟨wrap, hobj, -⟩ := exists_read_eq h
  obtain ⟨v, hread, -⟩ := putMember_setting_eq_ok_iff.1 hput
  rw [hobj, mapError_eq_ok_iff] at hread
  exact Record.read_ne_ok_of_unknown he hfield hread

/-- An array of all fields of a record in the settings is read like the object that names them. -/
theorem putMember_arr_iff (h : x.record? = some r) {items : List Json}
    (hlen : items.length = r.fields.length) :
    settingsRecord.putMember a (x.key, .arr items) = .ok b ↔
      settingsRecord.putMember a (x.key, .ofMembers (r.fields.zip items)) = .ok b := by
  obtain ⟨P⟩ := nonempty_parts h
  obtain ⟨wrap, hobj, harr⟩ := exists_read_eq h
  have hread (v w : x.Value) : x.read v (.arr items) = .ok w ↔
      x.read v (.ofMembers (r.fields.zip items)) = .ok w := by
    rw [harr, Json.ofMembers, hobj, mapError_eq_ok_iff, mapError_eq_ok_iff]
    exact P.read_arr_iff hlen
  simp only [putMember_setting_eq_ok_iff, hread]

end Nested

end Options

end Indentation
