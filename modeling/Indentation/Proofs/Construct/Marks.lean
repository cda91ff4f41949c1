import Indentation.Proofs.Construct.Single

/-!
# Tokens that may stand where they are

Constructs let operators, first elements and initial values stand where they are, and nothing but these,
opening parentheses, semicolons and comments.  By the grammar none of these is a closing bracket.  Where
a list puts an element into a column, it is the column of an element that comes before.
-/

namespace Indentation

open Cursor TokenStream

namespace TokenStream

/-- A token that closes what a bracket before it opened. -/
def isCloser (s : TokenStream) (id : Nat) : Bool :=
  s.isPunctuator id [')'] || s.isPunctuator id [']'] || s.isPunctuator id ['}']

variable {s : TokenStream} {id : Nat}

/-- A punctuator has one text. -/
theorem isPunctuator_eq_false {text text' : Text} (h : s.isPunctuator id text = true)
    (hne : text ≠ text') : s.isPunctuator id text' = false := by
  simp only [isPunctuator, Bool.and_eq_true, beq_iff_eq] at h
  simp [isPunctuator, h.2, hne]

theorem isPunctuator_of_isComment (h : s.isComment id = true) (text : Text) :
    s.isPunctuator id text = false := by
  by_contra hp
  have hcode : s.isComment id = false := by
    simp only [isPunctuator, Bool.not_eq_false, Bool.and_eq_true, beq_iff_eq] at hp
    rw [isComment, Token.isComment, hp.1]
    rfl
  rw [hcode] at h
  cases h

/-- An opening parenthesis, a semicolon or a comment. -/
def isLoose (s : TokenStream) (id : Nat) : Bool :=
  s.isPunctuator id ['('] || s.isPunctuator id [';'] || s.isComment id

/-- Loose tokens have no other text. -/
theorem isPunctuator_of_isLoose (h : s.isLoose id = true) {text : Text}
    (htext : text ≠ ['('] ∧ text ≠ [';']) : s.isPunctuator id text = false := by
  simp only [isLoose, Bool.or_eq_true] at h
  rcases h with (h | h) | h
  · exact isPunctuator_eq_false h htext.1.symm
  · exact isPunctuator_eq_false h htext.2.symm
  · exact isPunctuator_of_isComment h text

theorem isCloser_of_isLoose (h : s.isLoose id = true) : s.isCloser id = false := by
  rw [isCloser, isPunctuator_of_isLoose h (by decide), isPunctuator_of_isLoose h (by decide),
    isPunctuator_of_isLoose h (by decide)]
  rfl

end TokenStream

namespace Cursor

/-- Within parentheses there is something with a name, or nothing. -/
theorem named_bare {c : Cursor} (h : c.named = true) : c.bare.named = true := by
  fun_induction bare c with
  | case1 c hkind inner hinner ih =>
    have hproper := List.mem_of_mem_head? hinner
    simp only [properChildren, namedChildren, List.mem_filter] at hproper
    exact ih hproper.1.2
  | case2 c hkind hinner => exact h
  | case3 c hkind => exact h

end Cursor

namespace Write

/-- A write that puts a token into a column takes the column of an earlier token of the code. -/
def Aligned (s : TokenStream) : Write → Prop
  | .place token column => ∃ lead < token, s.isComment lead = false ∧ column = (s.token lead).column
  | _ => True

/-- A write that lets only some tokens stand where they are, and takes columns only from earlier
tokens. -/
def Marks (s : TokenStream) (P : Nat → Prop) : Write → Prop
  | .exempt token => P token
  | w => w.Aligned s

variable {s : TokenStream} {P : Nat → Prop}

theorem Plain.marks {w : Write} (h : w.Plain) : w.Marks s P := by
  cases w <;> trivial

theorem marks_indentAll (tokens : List Nat) (anchor : Option Nat) (levels : Nat) :
    ∀ w ∈ indentAll tokens anchor levels, w.Marks s P :=
  fun w hw => (plain_indentAll tokens anchor levels w hw).marks

end Write

namespace Construct

/-- The elements of a place have names, and what has a name does not end with an opening
parenthesis. -/
structure Ended (s : TokenStream) (c : Cursor) : Prop where
  ends : c.named = true → ∀ t, s.lastOf? c = some t → s.isPunctuator t ['('] = false
  element : ofPlace? c = some .array ∨ ofPlace? c = some .pattern →
    ∀ e ∈ (Sequence.arrayElements c).filterMap id, e.named = true
  part : ∀ d, c.fieldChild? "parameter" = some d ∨ c.fieldChild? "value" = some d → d.named = true

/-- Where the brackets of a place may stand. -/
structure Punctuated (s : TokenStream) (c : Cursor) : Prop extends Ended s c where
  begins : c.named = true → ∀ t, s.firstOf? c = some t → s.isCloser t = false
  operator : ofPlace? c = some .binary → ∀ operator, Operation.operatorStart? s c = some operator →
    s.isCloser operator = false ∧ ∀ after, s.nextCode? operator = some after → s.isCloser after = false
  assignment : ofPlace? c = some .assignment → ∀ operator, Operation.assignStart? s c = some operator →
    s.isCloser operator = false ∧ s.isCloser (operator + 1) = false
  value : ofPlace? c = some .property → ∀ colon, (c.tokenChild? ":").bind s.startOf? = some colon →
    ∀ value, s.nextCode? colon = some value → s.isCloser value = false
  access : ofPlace? c = some .member → ∀ object property,
    c.fieldChild? "object" = some object →
      (c.fieldChild? "property").or (c.fieldChild? "index") = some property →
        ∀ access, Operation.accessStart? s object.bare property.bare = some access →
          s.isCloser access = false ∧ s.isCloser (access + 1) = false

end Construct

namespace Sequence

variable {s : TokenStream}

/-- Where an element starts there is its first token or an opening parenthesis. -/
theorem isPunctuator_elementStart? {opening t first : Nat} {e : Cursor} (hs : s.Ordered)
    (ht : elementStart? s opening e = some t) (hfirst : s.firstOf? e = some first) :
    t = first ∨ t < first ∧ s.isPunctuator t ['('] = true := by
  obtain ⟨f, hf, -, hcode, h⟩ := elementStart?_some ht
  obtain rfl : first = f := Option.some.inj (hfirst.symm.trans hf)
  rcases Nat.eq_or_lt_of_le (elementStart?_le hs ht hfirst) with heq | hlt
  · exact .inl heq
  · have hskips : Skips s opening t := by
      rcases h with ⟨b, hb, hbt⟩ | ⟨hnone, -⟩
      · exact (beforeParens?_some hb).2.2.2 t (nextCode?_some hbt).1 hlt
      · exact beforeParens?_none hnone hlt
    rcases hskips with hcomment | ⟨-, hparen⟩
    · rw [hcode] at hcomment
      cases hcomment
    · exact .inr ⟨hlt, hparen⟩

theorem of_elementStart? {P : Nat → Prop} {opening t : Nat} {e : Cursor} (hs : s.Ordered)
    (hloose : ∀ t, s.isLoose t = true → P t) (hbegins : ∀ f, s.firstOf? e = some f → P f)
    (ht : elementStart? s opening e = some t) : P t := by
  obtain ⟨first, hfirst, -⟩ := elementStart?_some ht
  rcases isPunctuator_elementStart? hs ht hfirst with rfl | ⟨-, hparen⟩
  · exact hbegins t hfirst
  · exact hloose t (by simp [isLoose, hparen])

/-- Everything from the start of an element to its first token is passed over. -/
theorem skips_of_elementStart? {opening t first k : Nat} {e : Cursor}
    (ht : elementStart? s opening e = some t) (hfirst : s.firstOf? e = some first)
    (hle : t ≤ k) (hlt : k < first) : Skips s opening k := by
  obtain ⟨f, hf, -, -, h⟩ := elementStart?_some ht
  obtain rfl : first = f := Option.some.inj (hfirst.symm.trans hf)
  rcases h with ⟨b, hb, hbt⟩ | ⟨hnone, -⟩
  · have := (nextCode?_some hbt).1
    exact (beforeParens?_some hb).2.2.2 k (by omega) hlt
  · exact beforeParens?_none hnone hlt

/-- A later element starts behind the last token of an earlier one, since that is no opening
parenthesis. -/
theorem lt_elementStart?_of_later {opening t : Nat} {d e : Cursor} {last : Nat} (hs : s.Ordered)
    (hlast : s.lastOf? d = some last) (hends : s.isPunctuator last ['('] = false)
    (hde : d.range.stop ≤ e.range.start) (ht : elementStart? s opening e = some t) : last < t := by
  obtain ⟨first, hfirst, -⟩ := elementStart?_some ht
  have hlastin := codeIn_of_lastOf? hs hlast
  have hlt := lt_of_stop_le_start hs hlastin (codeIn_of_firstOf? hs hfirst) hde
  by_contra hge
  rcases skips_of_elementStart? ht hfirst (Nat.le_of_not_lt hge) hlt with hcomment | ⟨-, hparen⟩
  · rw [hlastin.code] at hcomment
    cases hcomment
  · rw [hends] at hparen
    cases hparen

/-- The elements of a list are in order, and none ends with an opening parenthesis. -/
structure Successive (s : TokenStream) (elements : List (Option Cursor)) : Prop where
  ordered : (elements.filterMap id).Pairwise fun d e => d.range.stop ≤ e.range.start
  ends : ∀ e ∈ elements.filterMap id, ∀ t, s.lastOf? e = some t → s.isPunctuator t ['('] = false

/-- What a list is relied on for: its elements come one after the other, and begin only with tokens
that may stand where they are. -/
structure Separate (s : TokenStream) (P : Nat → Prop) (elements : List (Option Cursor)) : Prop
    extends Successive s elements where
  begins : ∀ e ∈ elements.filterMap id, ∀ t, s.firstOf? e = some t → P t

/-- The first element of a list starts before the others. -/
theorem Successive.lead_lt {elements : List (Option Cursor)} (h : Successive s elements) (hs : s.Ordered)
    {opening lead t : Nat} {d e : Cursor} (hd : elements.head? = some (some d))
    (he : some e ∈ elements.drop 1) (hlead : elementStart? s opening d = some lead)
    (ht : elementStart? s opening e = some t) : lead < t := by
  obtain ⟨rest, rfl⟩ : ∃ rest, elements = some d :: rest := by
    cases elements with
    | nil => cases hd
    | cons x rest => exact ⟨rest, by simpa using hd⟩
  obtain ⟨first, hfirst, -⟩ := elementStart?_some hlead
  have hdin : d ∈ (some d :: rest).filterMap id := by simp
  have hein : e ∈ rest.filterMap id := List.mem_filterMap.2 ⟨some e, by simpa using he, rfl⟩
  obtain ⟨span, -, hfirst', hlast⟩ := exists_spanOfNode? hs (codeIn_of_firstOf? hs hfirst)
  have hde : d.range.stop ≤ e.range.start := (List.pairwise_cons.1 h.ordered).1 e hein
  have hlt := lt_elementStart?_of_later hs hlast (h.ends d hdin _ hlast) hde ht
  have hle := elementStart?_le hs hlead hfirst
  have hle' := ((firstCodeIn?_eq_some_iff hs).1 hfirst).2 _ (codeIn_of_lastOf? hs hlast)
  omega

theorem marks_writes {P : Nat → Prop} (hs : s.Ordered) (hloose : ∀ t, s.isLoose t = true → P t)
    {span : Span} {elements : List (Option Cursor)} (h : Separate s P elements) (offset : ListOffset) :
    ∀ w ∈ writes s span elements offset, w.Marks s P := by
  intro w hw
  rcases List.mem_append.1 hw with hw | hw
  · cases offset with
    | levels count =>
      rcases List.mem_append.1 hw with hw | hw
      · exact Write.marks_indentAll _ _ _ w hw
      · exact (plain_chains span elements w hw).marks
    | first =>
      simp only [alignWithFirst] at hw
      split at hw
      · exact Write.marks_indentAll _ _ _ w hw
      · next lead hlead =>
        obtain ⟨d, hd, hlead⟩ := Option.bind_eq_some_iff.1 hlead
        have hhead : elements.head? = some (some d) := Option.join_eq_some_iff.1 hd
        have hdin : d ∈ elements.filterMap id :=
          List.mem_filterMap.2 ⟨some d, List.mem_of_mem_head? hhead, rfl⟩
        rcases List.mem_cons.1 hw with rfl | hw
        · exact of_elementStart? hs hloose (h.begins d hdin) hlead
        · rcases List.mem_append.1 hw with hw | hw
          · exact Write.marks_indentAll _ _ _ w hw
          · obtain ⟨t, ht, rfl⟩ := List.mem_map.1 hw
            obtain ⟨element, he, ht⟩ := List.mem_filterMap.1 ht
            obtain ⟨e, rfl, ht⟩ := Option.bind_eq_some_iff.1 ht
            obtain ⟨-, -, -, hcode, -⟩ := elementStart?_some hlead
            exact ⟨lead, h.lead_lt hs hhead he hlead ht, hcode, rfl⟩
  · rw [List.mem_singleton.1 hw]
    trivial

/-! ## Lists of a place -/

open Construct

variable {c : Cursor}

theorem named_of_mem_properChildren {d e : Cursor} (h : e ∈ d.properChildren) : e.named = true := by
  simp only [properChildren, namedChildren, List.mem_filter] at h
  exact h.1.2

/-- The elements of an array, an object or a pattern. -/
def literalElements (c : Cursor) : List (Option Cursor) :=
  match c.kind with
  | "array" | "array_pattern" => arrayElements c
  | _ => c.properChildren.map some

theorem ofLiteral_of_span {span : Span} (h : s.spanOfNode? c = some span) (offset : ListOffset) :
    ofLiteral s offset c = writes s span (literalElements c) offset := by
  rw [ofLiteral, h]
  rfl

theorem sublist_literalElements (c : Cursor) : ((literalElements c).filterMap id).Sublist c.children := by
  rw [literalElements]
  split
  · exact filterMap_arrayElements c
  · exact filterMap_arrayElements c
  · rw [filterMap_map_some]
    exact c.properChildren_sublist

theorem named_of_mem_literalElements (he : Ended s c)
    (hk : ofPlace? c = some .array ∨ ofPlace? c = some .object ∨ ofPlace? c = some .pattern) :
    ∀ e ∈ (literalElements c).filterMap id, e.named = true := by
  have hobject : ofPlace? c = some .object → c.kind ≠ "array" ∧ c.kind ≠ "array_pattern" := by
    intro hobject
    unfold ofPlace? at hobject
    split at hobject
    · constructor <;> intro hkind <;> rw [hkind] at hobject <;> cases hobject
    · cases hobject
  have harray : c.kind = "array" ∨ c.kind = "array_pattern" →
      ofPlace? c = some .array ∨ ofPlace? c = some .pattern := by
    intro hkind
    rcases hk with hk | hk | hk
    · exact .inl hk
    · rcases hkind with hkind | hkind
      · exact absurd hkind (hobject hk).1
      · exact absurd hkind (hobject hk).2
    · exact .inr hk
  rw [literalElements]
  split
  · next hkind => exact he.element (harray (.inl hkind))
  · next hkind => exact he.element (harray (.inr hkind))
  · rw [filterMap_map_some]
    exact fun e he => named_of_mem_properChildren he

/-- Children with a name come one after the other. -/
theorem successive_of_sublist {tree : Node} (hn : tree.Nested) (he : ∀ c ∈ tree.preorder, Ended s c)
    (hc : c ∈ tree.preorder) {elements : List (Option Cursor)}
    (hsub : (elements.filterMap id).Sublist c.children)
    (hnamed : ∀ e ∈ elements.filterMap id, e.named = true) : Successive s elements where
  ordered := (hn.ordered c hc).sublist hsub
  ends := fun e hmem t =>
    (he e (Node.mem_preorder_of_child hc (hsub.subset hmem))).ends (hnamed e hmem) t

end Sequence

namespace Callable

open Construct

/-- Parameters have names. -/
theorem named_of_mem_parameters {s : TokenStream} {c e : Cursor} (he : Ended s c)
    (hmem : e ∈ parameters c) : e.named = true := by
  unfold parameters at hmem
  split at hmem
  · exact Sequence.named_of_mem_properChildren hmem
  · exact he.part e (.inl (Option.mem_toList.1 hmem))

end Callable

namespace Construct

variable {s : TokenStream} {tree : Node} {c e : Cursor} {P : Nat → Prop}

/-- What a place lists: elements, parameters, arguments, names and initial values. -/
inductive Listed (c : Cursor) : Cursor → Prop
  | element {e : Cursor}
    (hk : ofPlace? c = some .array ∨ ofPlace? c = some .object ∨ ofPlace? c = some .pattern)
    (he : e ∈ (Sequence.literalElements c).filterMap id) : Listed c e
  | parameter {e : Cursor} (he : e ∈ Callable.parameters c) : Listed c e
  | argument {list e : Cursor} (hlist : c.fieldChild? "arguments" = some list)
    (he : e ∈ list.properChildren) : Listed c e
  | name {list e : Cursor} {kind : String} (hlist : Reaches c list)
    (hkind : kind = "export_specifier" ∨ kind = "import_specifier")
    (he : e ∈ Sequence.properOfKind list kind) : Listed c e
  | value {e : Cursor} (he : c.fieldChild? "value" = some e) : Listed c e

theorem Listed.reaches (h : Listed c e) : Reaches c e := by
  have hproper : ∀ {d e : Cursor}, e ∈ d.properChildren → Reaches d e := fun he =>
    .child (mem_children_of_mem_properChildren he)
  cases h with
  | element _ he => exact .child ((Sequence.sublist_literalElements c).subset he)
  | parameter he =>
    obtain ⟨d, hd, hsub, -⟩ := Callable.parameters_sublist (c := c)
    exact hd.trans (.child (hsub.subset he))
  | argument hlist he => exact (reaches_of_fieldChild? hlist).trans (hproper he)
  | name hlist _ he => exact hlist.trans (hproper (List.mem_filter.1 he).1)
  | value he => exact reaches_of_fieldChild? he

theorem Listed.named (h : Listed c e) (hended : Ended s c) : e.named = true := by
  cases h with
  | element hk he => exact Sequence.named_of_mem_literalElements hended hk e he
  | parameter he => exact Callable.named_of_mem_parameters hended he
  | argument _ he => exact Sequence.named_of_mem_properChildren he
  | name _ _ he => exact Sequence.named_of_mem_properChildren (List.mem_filter.1 he).1
  | value he => exact hended.part e (.inr he)

/-- What the constructs of a place let stand where it is are only some tokens. -/
structure Spares (s : TokenStream) (P : Nat → Prop) (c : Cursor) : Prop extends Ended s c where
  begins : ∀ e, Listed c e → ∀ t, s.firstOf? e = some t ∨ s.firstOf? e.bare = some t → P t
  operator : ofPlace? c = some .binary → ∀ operator, Operation.operatorStart? s c = some operator →
    P operator ∧ ∀ after, s.nextCode? operator = some after → P after
  assignment : ofPlace? c = some .assignment → ∀ operator, Operation.assignStart? s c = some operator →
    P operator ∧ P (operator + 1)
  value : ofPlace? c = some .property → ∀ colon, (c.tokenChild? ":").bind s.startOf? = some colon →
    ∀ value, s.nextCode? colon = some value → P value
  access : ofPlace? c = some .member → ∀ object property,
    c.fieldChild? "object" = some object →
      (c.fieldChild? "property").or (c.fieldChild? "index") = some property →
        ∀ access, Operation.accessStart? s object.bare property.bare = some access →
          P access ∧ P (access + 1)

/-- None of them is a closing bracket. -/
theorem spares_of_punctuated (hp : ∀ c ∈ tree.preorder, Punctuated s c) (hc : c ∈ tree.preorder) :
    Spares s (fun t => s.isCloser t = false) c where
  toEnded := (hp c hc).toEnded
  begins := fun e he t ht => by
    have het := Node.mem_preorder_of_reaches hc he.reaches
    have hnamed := he.named (hp c hc).toEnded
    rcases ht with ht | ht
    · exact (hp e het).begins hnamed t ht
    · exact (hp _ (Node.mem_preorder_of_reaches het (reaches_bare e))).begins (named_bare hnamed) t ht
  operator := (hp c hc).operator
  assignment := (hp c hc).assignment
  value := (hp c hc).value
  access := (hp c hc).access

end Construct

section

open Construct

variable {s : TokenStream} {tree : Node} {c : Cursor} {P : Nat → Prop} (hs : s.Lined)
  (hn : tree.Nested) (hloose : ∀ t, s.isLoose t = true → P t)
  (hp : ∀ c ∈ tree.preorder, Spares s P c) (hc : c ∈ tree.preorder)
include hs hn hloose hp hc

namespace Sequence

omit hs hloose in
/-- What a place lists, if it is children of one node, makes a list. -/
theorem separate_of_sublist {d : Cursor} {elements : List (Option Cursor)} (hd : Reaches c d)
    (hsub : (elements.filterMap id).Sublist d.children)
    (hlisted : ∀ e ∈ elements.filterMap id, Listed c e) : Separate s P elements where
  toSuccessive := successive_of_sublist hn (fun c hc => (hp c hc).toEnded)
    (Node.mem_preorder_of_reaches hc hd) hsub fun e he => (hlisted e he).named (hp c hc).toEnded
  begins := fun e he t ht => (hp c hc).begins e (hlisted e he) t (.inl ht)

theorem marks_ofLiteral (offset : ListOffset)
    (hk : ofPlace? c = some .array ∨ ofPlace? c = some .object ∨ ofPlace? c = some .pattern) :
    ∀ w ∈ ofLiteral s offset c, w.Marks s P := by
  cases hspan : s.spanOfNode? c with
  | none =>
    rw [ofLiteral, hspan]
    exact List.forall_mem_nil _
  | some span =>
    rw [ofLiteral_of_span hspan]
    exact marks_writes hs.toOrdered hloose (separate_of_sublist hn hp hc (.refl c)
      (sublist_literalElements c) fun e he => .element hk he) offset

/-- The named ones of a kind. -/
theorem marks_writes_properOfKind {d : Cursor} {span : Span} {kind : String} (hd : Reaches c d)
    (hkind : kind = "export_specifier" ∨ kind = "import_specifier") (offset : ListOffset) :
    ∀ w ∈ writes s span ((properOfKind d kind).map some) offset,
      w.Marks s P := by
  refine marks_writes hs.toOrdered hloose (separate_of_sublist hn hp hc hd ?_ ?_) offset
  · rw [filterMap_map_some]
    exact properOfKind_sublist d kind
  · rw [filterMap_map_some]
    exact fun e he => .name hd hkind he

theorem marks_ofExport : ∀ w ∈ ofExport s c, w.Marks s P := by
  refine Write.forall_mem_getD fun ws h => ?_
  obtain ⟨clause, hclause, h⟩ := Option.bind_eq_some_iff.1 h
  obtain ⟨span, -, h⟩ := Option.bind_eq_some_iff.1 h
  obtain rfl : _ = ws := Option.some.inj h
  exact marks_writes_properOfKind hs hn hloose hp hc (reaches_of_head?_properOfKind hclause)
    (.inl rfl) _

theorem marks_ofImport : ∀ w ∈ ofImport s c, w.Marks s P := by
  refine Write.forall_mem_getD fun ws h => ?_
  obtain ⟨clause, hclause, h⟩ := Option.bind_eq_some_iff.1 h
  obtain ⟨named, hnamed, h⟩ := Option.bind_eq_some_iff.1 h
  dsimp only at h
  split at h
  · cases h
  · obtain ⟨span, -, h⟩ := Option.bind_eq_some_iff.1 h
    obtain rfl : _ = ws := Option.some.inj h
    exact marks_writes_properOfKind hs hn hloose hp hc
      ((reaches_of_head?_properOfKind hclause).trans (reaches_of_head?_properOfKind hnamed))
      (.inr rfl) _

end Sequence

namespace Callable

omit hs hn hloose hp hc in
theorem marks_exemptStarts {nodes : List Cursor}
    (h : ∀ e ∈ nodes, ∀ t, s.firstOf? e = some t → P t) :
    ∀ w ∈ exemptStarts s nodes, w.Marks s P := by
  intro w hw
  obtain ⟨node, hnode, hw⟩ := List.mem_filterMap.1 hw
  obtain ⟨t, ht, rfl⟩ := Option.map_eq_some_iff.1 hw
  exact h node hnode t ht

omit hs hloose in
theorem separate_parameters : Sequence.Separate s P ((parameters c).map some) := by
  obtain ⟨d, hd, hsub, -⟩ := parameters_sublist (c := c)
  refine Sequence.separate_of_sublist hn hp hc hd ?_ ?_
  · rwa [Sequence.filterMap_map_some]
  · rw [Sequence.filterMap_map_some]
    exact fun e he => .parameter he

theorem marks_parameterWrites (offset : Option ListOffset) :
    ∀ w ∈ parameterWrites s offset c, w.Marks s P := by
  unfold parameterWrites
  split
  · exact List.forall_mem_nil _
  · next span hspan =>
    have hsep := separate_parameters hn hp hc
    intro w hw
    rcases List.mem_cons.1 hw with rfl | hw
    · trivial
    rcases List.mem_cons.1 hw with rfl | hw
    · trivial
    rcases List.mem_append.1 hw with hw | hw
    · exact Sequence.marks_writes hs.toOrdered hloose hsep _ w hw
    · split at hw
      · refine marks_exemptStarts (fun e he => hsep.begins e ?_) w hw
        rwa [Sequence.filterMap_map_some]
      · exact absurd hw List.not_mem_nil

theorem marks_argumentWrites (offset : Option ListOffset) (field : String) :
    ∀ w ∈ argumentWrites s offset field c, w.Marks s P := by
  refine Write.forall_mem_getD fun ws h => ?_
  obtain ⟨arguments, hargs, h⟩ := Option.bind_eq_some_iff.1 h
  split at h
  · cases h
  · obtain ⟨opening, -, h⟩ := Option.bind_eq_some_iff.1 h
    obtain ⟨last, -, h⟩ := Option.bind_eq_some_iff.1 h
    obtain rfl : _ = ws := Option.some.inj h
    have hchild := mem_children_of_fieldChild hargs
    intro w hw
    rcases List.mem_cons.1 hw with rfl | hw
    · trivial
    rcases List.mem_cons.1 hw with rfl | hw
    · trivial
    rcases List.mem_append.1 hw with hw | hw
    · rcases List.mem_append.1 hw with hw | hw
      · exact (plain_openingWrite field opening w hw).marks
      · refine Sequence.marks_writes hs.toOrdered hloose
          (Sequence.separate_of_sublist hn hp hc (.child hchild) ?_ ?_) _ w hw
        · rw [Sequence.filterMap_map_some]
          exact properChildren_sublist arguments
        · rw [Sequence.filterMap_map_some]
          exact fun e he => .argument hargs he
    · split at hw
      · refine marks_exemptStarts (fun e he t ht => ?_) w hw
        obtain ⟨inner, hinner, rfl⟩ := List.mem_map.1 he
        exact (hp c hc).begins inner (.argument hargs hinner) t (.inr ht)
      · exact absurd hw List.not_mem_nil

end Callable

namespace Operation

omit hs hn hloose in
theorem marks_binaryWrites (hk : ofPlace? c = some .binary) :
    ∀ w ∈ binaryWrites s c, w.Marks s P := by
  refine Write.forall_mem_getD fun ws h => ?_
  obtain ⟨operator, hoperator, h⟩ := Option.bind_eq_some_iff.1 h
  obtain ⟨after, hafter, h⟩ := Option.bind_eq_some_iff.1 h
  obtain ⟨first, -, h⟩ := Option.bind_eq_some_iff.1 h
  obtain ⟨last, -, h⟩ := Option.bind_eq_some_iff.1 h
  obtain rfl : _ = ws := Option.some.inj h
  obtain ⟨hopen, hnext⟩ := (hp c hc).operator hk operator hoperator
  intro w hw
  rcases List.mem_cons.1 hw with rfl | hw
  · exact hopen
  rcases List.mem_cons.1 hw with rfl | hw
  · exact hnext after hafter
  rcases List.mem_cons.1 hw with rfl | hw
  · trivial
  · split at hw
    · exact Write.marks_indentAll _ _ _ w hw
    · exact absurd hw List.not_mem_nil

omit hs hn hloose in
theorem marks_assignmentWrites (hk : ofPlace? c = some .assignment) :
    ∀ w ∈ assignmentWrites s c, w.Marks s P := by
  refine Write.forall_mem_getD fun ws h => ?_
  obtain ⟨left, -, h⟩ := Option.bind_eq_some_iff.1 h
  obtain ⟨operator, hoperator, h⟩ := Option.bind_eq_some_iff.1 h
  obtain ⟨target, -, h⟩ := Option.bind_eq_some_iff.1 h
  obtain ⟨last, -, h⟩ := Option.bind_eq_some_iff.1 h
  split at h
  · cases h
  · obtain rfl : _ = ws := Option.some.inj h
    obtain ⟨hopen, hnext⟩ := (hp c hc).assignment hk operator hoperator
    intro w hw
    rcases List.mem_append.1 hw with hw | hw
    · exact Write.marks_indentAll _ _ _ w hw
    · rcases List.mem_cons.1 hw with rfl | hw
      · exact hopen
      · obtain ⟨t, ht, rfl⟩ := Option.map_eq_some_iff.1 (Option.mem_toList.1 hw)
        obtain ⟨rfl, -⟩ := Span.nth?_eq_some_iff.1 ht
        exact hnext

omit hs hn hloose in
theorem marks_memberWrites (levels : Option Nat) (hk : ofPlace? c = some .member) :
    ∀ w ∈ memberWrites s levels c, w.Marks s P := by
  refine Write.forall_mem_getD fun ws h => ?_
  obtain ⟨object, hobject, h⟩ := Option.bind_eq_some_iff.1 h
  obtain ⟨property, hproperty, h⟩ := Option.bind_eq_some_iff.1 h
  obtain ⟨objectFirst, -, h⟩ := Option.bind_eq_some_iff.1 h
  obtain ⟨last, -, h⟩ := Option.bind_eq_some_iff.1 h
  obtain ⟨access, haccess, h⟩ := Option.bind_eq_some_iff.1 h
  obtain rfl : _ = ws := Option.some.inj h
  obtain ⟨hopen, hnext⟩ := (hp c hc).access hk object property hobject hproperty access haccess
  intro w hw
  rcases List.mem_append.1 hw with hw | hw
  · exact Write.marks_indentAll _ _ _ w hw
  · obtain ⟨t, ht, hw⟩ := List.mem_flatMap.1 hw
    have hclear : P t := by
      rcases List.mem_cons.1 ht with rfl | ht
      · exact hopen
      · obtain ⟨rfl, -⟩ := Span.nth?_eq_some_iff.1 (Option.mem_toList.1 ht)
        exact hnext
    unfold leadWrites at hw
    split at hw
    · rw [List.mem_singleton.1 hw]
      trivial
    · rcases List.mem_cons.1 hw with rfl | hw
      · trivial
      · rw [List.mem_singleton.1 hw]
        exact hclear

omit hs hn hloose in
theorem marks_propertyWrites (hk : ofPlace? c = some .property) :
    ∀ w ∈ propertyWrites s c, w.Marks s P := by
  unfold propertyWrites
  split
  · exact List.forall_mem_nil _
  · intro w hw
    obtain ⟨t, ht, rfl⟩ := Option.map_eq_some_iff.1 (Option.mem_toList.1 hw)
    obtain ⟨colon, hcolon, hnext⟩ := Option.bind_eq_some_iff.1 ht
    exact (hp c hc).value hk colon hcolon t hnext

end Operation

namespace Body

omit hs hn hp hc in
/-- Only comments may stand where they are in a case. -/
theorem marks_caseWrites (labels blocks : List Nat) (label : Nat) (tokens : List Nat) :
    ∀ w ∈ caseWrites s labels blocks label tokens, w.Marks s P := by
  induction tokens generalizing label with
  | nil => exact List.forall_mem_nil _
  | cons token tokens ih =>
    intro w hw
    rw [caseWrites] at hw
    split at hw
    · exact ih token w hw
    · dsimp only at hw
      split at hw
      · next hcomment =>
        rcases List.mem_cons.1 hw with rfl | hw
        · exact hloose token (by simp [isLoose, (Bool.and_eq_true _ _ ▸ hcomment).2])
        · exact ih label w hw
      · split at hw
        · exact ih label w hw
        · rcases List.mem_cons.1 hw with rfl | hw
          · trivial
          · exact ih label w hw

omit hs hn hp hc in
theorem marks_switchWrites (o : IndentOptions) :
    ∀ w ∈ switchWrites s o c, w.Marks s P := by
  refine Write.forall_mem_getD fun ws h => ?_
  obtain ⟨body, -, h⟩ := Option.bind_eq_some_iff.1 h
  obtain ⟨span, -, h⟩ := Option.bind_eq_some_iff.1 h
  obtain rfl : _ = ws := Option.some.inj h
  intro w hw
  rcases List.mem_append.1 hw with hw | hw
  · exact Write.marks_indentAll _ _ _ w hw
  · exact marks_caseWrites hloose _ _ _ _ w hw

end Body

namespace Declaration

omit hs hn hp hc in
theorem marks_writes (o : IndentOptions) :
    ∀ w ∈ writes s o c, w.Marks s P := by
  unfold writes
  split
  · exact List.forall_mem_nil _
  · intro w hw
    rcases List.mem_append.1 hw with hw | hw
    · exact Write.marks_indentAll _ _ _ w hw
    · split at hw
      · next hsemicolon =>
        rw [List.mem_singleton.1 hw]
        exact hloose _ (by simp [isLoose, hsemicolon])
      · exact absurd hw List.not_mem_nil

omit hs hn hloose in
theorem marks_declaratorWrites :
    ∀ w ∈ declaratorWrites s c, w.Marks s P := by
  intro w hw
  obtain ⟨t, ht, rfl⟩ := Option.map_eq_some_iff.1 (Option.mem_toList.1 hw)
  obtain ⟨value, hvalue, ht⟩ := Option.bind_eq_some_iff.1 ht
  exact (hp c hc).begins value (.value hvalue) t (.inr ht)

end Declaration

namespace Construct

variable {o : IndentOptions}

/-- A construct lets only some tokens stand where they are. -/
theorem marks_enter {k : Construct} (hk : ofPlace? c = some k) :
    ∀ w ∈ enter s o c k, w.Marks s P := by
  cases k with
  | array => exact Sequence.marks_ofLiteral hs hn hloose hp hc _ (.inl hk)
  | object => exact Sequence.marks_ofLiteral hs hn hloose hp hc _ (.inr (.inl hk))
  | pattern => exact Sequence.marks_ofLiteral hs hn hloose hp hc _ (.inr (.inr hk))
  | arrow =>
    intro w hw
    rcases List.mem_append.1 hw with hw | hw
    · exact Callable.marks_parameterWrites hs hn hloose hp hc _ w hw
    · exact (Callable.plain_expressionBody w hw).marks
  | assignment => exact Operation.marks_assignmentWrites hp hc hk
  | binary => exact Operation.marks_binaryWrites hp hc hk
  | block => exact fun w hw => (Body.plain_blockWrites w hw).marks
  | call => exact Callable.marks_argumentWrites hs hn hloose hp hc _ _
  | new => exact Callable.marks_argumentWrites hs hn hloose hp hc _ _
  | classBody => exact fun w hw => (Body.plain_classWrites w hw).marks
  | conditional => exact fun w hw => (Operation.plain_conditionalWrites w hw).marks
  | loop => exact fun w hw => (Body.plain_unbracedWrites c _ w hw).marks
  | forLoop => exact fun w hw => (Body.plain_forWrites w hw).marks
  | exports => exact Sequence.marks_ofExport hs hn hloose hp hc
  | imports => exact Sequence.marks_ofImport hs hn hloose hp hc
  | functionDeclaration => exact Callable.marks_parameterWrites hs hn hloose hp hc _
  | functionExpression => exact Callable.marks_parameterWrites hs hn hloose hp hc _
  | branch => exact fun w hw => (Body.plain_branchWrites w hw).marks
  | member => exact Operation.marks_memberWrites hp hc _ hk
  | property => exact Operation.marks_propertyWrites hp hc hk
  | switch => exact Body.marks_switchWrites hloose o
  | template => exact fun w hw => (Operation.plain_templateWrites w hw).marks
  | declaration => exact Declaration.marks_writes hloose o
  | declarator => exact Declaration.marks_declaratorWrites hp hc

/-- What a walk writes at a place lets only some tokens stand where they are. -/
theorem marks_eventWrites {e : Event} (he : e.place = c) :
    ∀ w ∈ eventWrites s o e, w.Marks s P := by
  subst he
  intro w hw
  cases e with
  | enter c =>
    cases hk : ofPlace? c with
    | none =>
      simp only [eventWrites, hk] at hw
      cases hw
    | some k =>
      simp only [eventWrites, hk, Option.map_some, Option.getD_some] at hw
      exact marks_enter hs hn hloose hp hc hk w hw
  | leave c =>
    cases hk : ofPlace? c with
    | none =>
      simp only [eventWrites, hk] at hw
      cases hw
    | some k =>
      simp only [eventWrites, hk] at hw
      cases k with
      | declarator =>
        obtain ⟨-, -, -, -, -, rfl⟩ := Declaration.exists_of_mem_shiftWrites o w hw
        trivial
      | _ => cases hw

end Construct

end

end Indentation
