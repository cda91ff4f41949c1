import Indentation.Proofs.Construct.Within

/-!
# Writes to single tokens

A construct that is entered writes to its tokens one by one, and puts none into a column but that of
a token.  Most constructs only say where a token is measured from.  Spans move when a declarator is
left, and parentheses take in what they group when the walk is over.
-/

namespace Indentation

namespace Write

/-- A write to one token, in the column of some token if in any. -/
def Single (s : TokenStream) : Write → Prop
  | .place _ column => ∃ lead, column = (s.token lead).column
  | .shift _ _ | .enclose _ _ => False
  | _ => True

variable {s : TokenStream}

/-- A write that says where one token is measured from, or that it is a bracket.  It puts the token in
no column and does not let it stand where it is. -/
def Plain : Write → Prop
  | .indent _ _ _ | .align _ _ | .bracket _ => True
  | _ => False

theorem Plain.single {w : Write} (h : w.Plain) : w.Single s := by
  cases w <;> trivial

theorem plain_indentAll (tokens : List Nat) (anchor : Option Nat) (levels : Nat) :
    ∀ w ∈ indentAll tokens anchor levels, w.Plain := by
  simp [indentAll, Plain]

theorem single_indentAll (tokens : List Nat) (anchor : Option Nat) (levels : Nat) :
    ∀ w ∈ indentAll tokens anchor levels, w.Single s :=
  fun w hw => (plain_indentAll tokens anchor levels w hw).single

end Write

open Write

variable {s : TokenStream} {c : Cursor} {o : IndentOptions}

namespace Sequence

theorem single_alignWithFirst (span : Span) (elements : List (Option Cursor)) :
    ∀ w ∈ alignWithFirst s span elements, w.Single s := by
  intro w hw
  simp only [alignWithFirst] at hw
  split at hw
  · exact single_indentAll _ _ _ w hw
  · next lead _ =>
    rcases List.mem_cons.1 hw with rfl | hw
    · trivial
    · rcases List.mem_append.1 hw with hw | hw
      · exact single_indentAll _ _ _ w hw
      · obtain ⟨t, -, rfl⟩ := List.mem_map.1 hw
        exact ⟨lead, rfl⟩

theorem plain_chains (span : Span) (elements : List (Option Cursor)) :
    ∀ w ∈ chains s span elements, w.Plain := by
  intro w hw
  obtain ⟨pair, -, hchain⟩ := List.mem_filterMap.1 hw
  obtain ⟨d, e, -, -, anchor, t, -, -, rfl⟩ := chain?_some hchain
  trivial

theorem single_writes (span : Span) (elements : List (Option Cursor)) (offset : ListOffset) :
    ∀ w ∈ writes s span elements offset, w.Single s := by
  intro w hw
  rcases List.mem_append.1 hw with hw | hw
  · cases offset with
    | levels count =>
      rcases List.mem_append.1 hw with hw | hw
      · exact single_indentAll _ _ _ w hw
      · exact (plain_chains span elements w hw).single
    | first => exact single_alignWithFirst span elements w hw
  · rw [List.mem_singleton.1 hw]
    trivial

theorem single_ofLiteral (offset : ListOffset) : ∀ w ∈ ofLiteral s offset c, w.Single s := by
  unfold ofLiteral
  split
  · exact List.forall_mem_nil _
  · exact single_writes _ _ _

theorem single_ofExport : ∀ w ∈ ofExport s c, w.Single s := by
  refine forall_mem_getD fun ws h => ?_
  obtain ⟨clause, -, h⟩ := Option.bind_eq_some_iff.1 h
  obtain ⟨span, -, h⟩ := Option.bind_eq_some_iff.1 h
  obtain rfl : _ = ws := Option.some.inj h
  exact single_writes _ _ _

theorem single_ofImport : ∀ w ∈ ofImport s c, w.Single s := by
  refine forall_mem_getD fun ws h => ?_
  obtain ⟨clause, -, h⟩ := Option.bind_eq_some_iff.1 h
  obtain ⟨named, -, h⟩ := Option.bind_eq_some_iff.1 h
  dsimp only at h
  split at h
  · cases h
  · obtain ⟨span, -, h⟩ := Option.bind_eq_some_iff.1 h
    obtain rfl : _ = ws := Option.some.inj h
    exact single_writes _ _ _

end Sequence

namespace Callable

theorem single_exemptStarts (nodes : List Cursor) : ∀ w ∈ exemptStarts s nodes, w.Single s := by
  intro w hw
  obtain ⟨node, -, hw⟩ := List.mem_filterMap.1 hw
  obtain ⟨t, -, rfl⟩ := Option.map_eq_some_iff.1 hw
  trivial

/-- The parentheses of a list, what the list writes, and the starts that may stand where they are. -/
theorem single_listed {first last : Nat} {listed nodes : List Write}
    (hlisted : ∀ w ∈ listed, w.Single s) (hnodes : ∀ w ∈ nodes, w.Single s) :
    ∀ w ∈ .bracket first :: .bracket last :: (listed ++ nodes), w.Single s :=
  List.forall_mem_cons.2 ⟨trivial, List.forall_mem_cons.2 ⟨trivial,
    List.forall_mem_append.2 ⟨hlisted, hnodes⟩⟩⟩

theorem single_exempted (offset : Option ListOffset) (nodes : List Cursor) :
    ∀ w ∈ (if offset.isNone then exemptStarts s nodes else []), w.Single s := by
  split
  · exact single_exemptStarts nodes
  · exact List.forall_mem_nil _

theorem single_parameterWrites (offset : Option ListOffset) :
    ∀ w ∈ parameterWrites s offset c, w.Single s := by
  unfold parameterWrites
  split
  · exact List.forall_mem_nil _
  · exact single_listed (Sequence.single_writes _ _ _) (single_exempted _ _)

theorem plain_expressionBody : ∀ w ∈ expressionBody s c, w.Plain := by
  refine forall_mem_getD fun ws h => ?_
  obtain ⟨body, -, h⟩ := Option.bind_eq_some_iff.1 h
  split at h
  · cases h
  · obtain ⟨span, -, h⟩ := Option.bind_eq_some_iff.1 h
    obtain ⟨first, -, h⟩ := Option.bind_eq_some_iff.1 h
    obtain rfl : _ = ws := Option.some.inj h
    exact plain_indentAll _ _ _

theorem plain_openingWrite (field : String) (opening : Nat) :
    ∀ w ∈ openingWrite s field opening c, w.Plain := by
  intro w hw
  obtain ⟨last, -, rfl⟩ := Option.map_eq_some_iff.1 (Option.mem_toList.1 hw)
  trivial

theorem single_argumentWrites (offset : Option ListOffset) (field : String) :
    ∀ w ∈ argumentWrites s offset field c, w.Single s := by
  refine forall_mem_getD fun ws h => ?_
  obtain ⟨arguments, -, h⟩ := Option.bind_eq_some_iff.1 h
  split at h
  · cases h
  · obtain ⟨opening, -, h⟩ := Option.bind_eq_some_iff.1 h
    obtain ⟨last, -, h⟩ := Option.bind_eq_some_iff.1 h
    obtain rfl : _ = ws := Option.some.inj h
    refine single_listed (List.forall_mem_append.2 ⟨fun w hw => ?_, ?_⟩) (single_exempted _ _)
    · exact (plain_openingWrite field opening w hw).single
    · exact Sequence.single_writes _ _ _

end Callable

namespace Operation

theorem single_binaryWrites : ∀ w ∈ binaryWrites s c, w.Single s := by
  refine forall_mem_getD fun ws h => ?_
  obtain ⟨operator, -, h⟩ := Option.bind_eq_some_iff.1 h
  obtain ⟨after, -, h⟩ := Option.bind_eq_some_iff.1 h
  obtain ⟨first, -, h⟩ := Option.bind_eq_some_iff.1 h
  obtain ⟨last, -, h⟩ := Option.bind_eq_some_iff.1 h
  obtain rfl : _ = ws := Option.some.inj h
  refine List.forall_mem_cons.2 ⟨trivial, List.forall_mem_cons.2 ⟨trivial, List.forall_mem_cons.2
    ⟨trivial, ?_⟩⟩⟩
  split
  · exact single_indentAll _ _ _
  · exact List.forall_mem_nil _

theorem single_assignmentWrites : ∀ w ∈ assignmentWrites s c, w.Single s := by
  refine forall_mem_getD fun ws h => ?_
  obtain ⟨left, -, h⟩ := Option.bind_eq_some_iff.1 h
  obtain ⟨operator, -, h⟩ := Option.bind_eq_some_iff.1 h
  obtain ⟨target, -, h⟩ := Option.bind_eq_some_iff.1 h
  obtain ⟨last, -, h⟩ := Option.bind_eq_some_iff.1 h
  split at h
  · cases h
  · obtain rfl : _ = ws := Option.some.inj h
    refine List.forall_mem_append.2 ⟨single_indentAll _ _ _, List.forall_mem_cons.2 ⟨trivial, ?_⟩⟩
    intro w hw
    obtain ⟨t, -, rfl⟩ := Option.map_eq_some_iff.1 (Option.mem_toList.1 hw)
    trivial

theorem plain_conditionalWrites : ∀ w ∈ conditionalWrites s c, w.Plain := by
  unfold conditionalWrites
  split
  · exact List.forall_mem_nil _
  · exact plain_indentAll _ _ _

theorem single_memberWrites (levels : Option Nat) : ∀ w ∈ memberWrites s levels c, w.Single s := by
  refine forall_mem_getD fun ws h => ?_
  obtain ⟨object, -, h⟩ := Option.bind_eq_some_iff.1 h
  obtain ⟨property, -, h⟩ := Option.bind_eq_some_iff.1 h
  obtain ⟨objectFirst, -, h⟩ := Option.bind_eq_some_iff.1 h
  obtain ⟨last, -, h⟩ := Option.bind_eq_some_iff.1 h
  obtain ⟨access, -, h⟩ := Option.bind_eq_some_iff.1 h
  obtain rfl : _ = ws := Option.some.inj h
  refine List.forall_mem_append.2 ⟨single_indentAll _ _ _, fun w hw => ?_⟩
  obtain ⟨t, -, hw⟩ := List.mem_flatMap.1 hw
  cases levels <;> simp only [leadWrites, List.mem_cons, List.not_mem_nil, or_false] at hw
  · rcases hw with rfl | rfl <;> trivial
  · subst hw
    trivial

theorem single_propertyWrites : ∀ w ∈ propertyWrites s c, w.Single s := by
  unfold propertyWrites
  split
  · exact List.forall_mem_nil _
  · intro w hw
    obtain ⟨t, -, rfl⟩ := Option.map_eq_some_iff.1 (Option.mem_toList.1 hw)
    trivial

theorem plain_substitutionWrites (part : Nat) (subs : List Cursor) :
    ∀ w ∈ substitutionWrites s part subs, w.Plain := by
  induction subs generalizing part with
  | nil => exact List.forall_mem_nil _
  | cons d subs ih =>
    unfold substitutionWrites
    split
    · exact List.forall_mem_nil _
    · next next _ =>
      exact List.forall_mem_append.2 ⟨plain_indentAll _ _ _, List.forall_mem_cons.2 ⟨trivial, ih next⟩⟩

theorem plain_templateWrites : ∀ w ∈ templateWrites s c, w.Plain := by
  unfold templateWrites
  split
  · exact List.forall_mem_nil _
  · exact plain_substitutionWrites _ _

end Operation

namespace Body

theorem plain_blockWrites : ∀ w ∈ blockWrites s o c, w.Plain := by
  unfold blockWrites
  split
  · exact List.forall_mem_nil _
  · refine List.forall_mem_cons.2 ⟨trivial, List.forall_mem_append.2 ⟨plain_indentAll _ _ _, ?_⟩⟩
    exact List.forall_mem_singleton.2 trivial

theorem plain_unbracedWrites (d : Cursor) (body : Option Cursor) :
    ∀ w ∈ unbracedWrites s d body, w.Plain := by
  refine forall_mem_getD fun ws h => ?_
  obtain ⟨b, -, h⟩ := Option.bind_eq_some_iff.1 h
  split at h
  · cases h
  · obtain ⟨span, -, h⟩ := Option.bind_eq_some_iff.1 h
    obtain ⟨anchor, -, h⟩ := Option.bind_eq_some_iff.1 h
    obtain rfl : _ = ws := Option.some.inj h
    exact plain_indentAll _ _ _

theorem plain_branchWrites : ∀ w ∈ branchWrites s c, w.Plain := by
  fun_induction branchWrites s c with
  | case1 c ih =>
    refine List.forall_mem_append.2 ⟨plain_unbracedWrites c _, fun w hw => ?_⟩
    split at hw
    · exact absurd hw List.not_mem_nil
    · next d hd =>
      split at hw
      · exact ih d hd w hw
      · exact plain_unbracedWrites c _ w hw

theorem plain_forWrites : ∀ w ∈ forWrites s c, w.Plain := by
  refine List.forall_mem_append.2 ⟨fun w hw => ?_, plain_unbracedWrites c _⟩
  unfold headerWrites at hw
  split at hw
  · exact absurd hw List.not_mem_nil
  · obtain ⟨span, -, hw⟩ := List.mem_flatMap.1 hw
    exact plain_indentAll _ _ _ w hw

theorem plain_classWrites : ∀ w ∈ classWrites s c, w.Plain := by
  unfold classWrites
  split
  · exact List.forall_mem_nil _
  · exact List.forall_mem_append.2 ⟨plain_indentAll _ _ _, List.forall_mem_singleton.2 trivial⟩

theorem single_caseWrites (labels blocks : List Nat) (label : Nat) (tokens : List Nat) :
    ∀ w ∈ caseWrites s labels blocks label tokens, w.Single s := by
  induction tokens generalizing label with
  | nil => exact List.forall_mem_nil _
  | cons token tokens ih =>
    rw [caseWrites]
    split
    · exact ih token
    · dsimp only
      split
      · exact List.forall_mem_cons.2 ⟨trivial, ih label⟩
      · split
        · exact ih label
        · exact List.forall_mem_cons.2 ⟨trivial, ih label⟩

theorem single_switchWrites : ∀ w ∈ switchWrites s o c, w.Single s := by
  refine forall_mem_getD fun ws h => ?_
  obtain ⟨body, -, h⟩ := Option.bind_eq_some_iff.1 h
  obtain ⟨span, -, h⟩ := Option.bind_eq_some_iff.1 h
  obtain rfl : _ = ws := Option.some.inj h
  exact List.forall_mem_append.2 ⟨single_indentAll _ _ _, single_caseWrites _ _ _ _⟩

end Body

namespace Declaration

theorem single_writes : ∀ w ∈ writes s o c, w.Single s := by
  unfold writes
  split
  · exact List.forall_mem_nil _
  · refine List.forall_mem_append.2 ⟨single_indentAll _ _ _, fun w hw => ?_⟩
    split at hw
    · rw [List.mem_singleton.1 hw]
      trivial
    · exact absurd hw List.not_mem_nil

theorem single_declaratorWrites : ∀ w ∈ declaratorWrites s c, w.Single s := by
  intro w hw
  obtain ⟨t, -, rfl⟩ := Option.map_eq_some_iff.1 (Option.mem_toList.1 hw)
  trivial

end Declaration

namespace Construct

/-- What a construct writes when it is entered goes to single tokens. -/
theorem single_enter (k : Construct) : ∀ w ∈ enter s o c k, w.Single s := by
  cases k with
  | array => exact Sequence.single_ofLiteral _
  | object => exact Sequence.single_ofLiteral _
  | pattern => exact Sequence.single_ofLiteral _
  | arrow =>
    exact List.forall_mem_append.2
      ⟨Callable.single_parameterWrites _, fun w hw => (Callable.plain_expressionBody w hw).single⟩
  | assignment => exact Operation.single_assignmentWrites
  | binary => exact Operation.single_binaryWrites
  | block => exact fun w hw => (Body.plain_blockWrites w hw).single
  | call => exact Callable.single_argumentWrites _ _
  | new => exact Callable.single_argumentWrites _ _
  | classBody => exact fun w hw => (Body.plain_classWrites w hw).single
  | conditional => exact fun w hw => (Operation.plain_conditionalWrites w hw).single
  | loop => exact fun w hw => (Body.plain_unbracedWrites c _ w hw).single
  | forLoop => exact fun w hw => (Body.plain_forWrites w hw).single
  | exports => exact Sequence.single_ofExport
  | imports => exact Sequence.single_ofImport
  | functionDeclaration => exact Callable.single_parameterWrites _
  | functionExpression => exact Callable.single_parameterWrites _
  | branch => exact fun w hw => (Body.plain_branchWrites w hw).single
  | member => exact Operation.single_memberWrites _
  | property => exact Operation.single_propertyWrites
  | switch => exact Body.single_switchWrites
  | template => exact fun w hw => (Operation.plain_templateWrites w hw).single
  | declaration => exact Declaration.single_writes
  | declarator => exact Declaration.single_declaratorWrites

/-- What a walk writes goes to single tokens, or moves a span when a declarator is left. -/
theorem single_or_mem_shiftWrites {tree : Node} {w : Write} (hw : w ∈ writes s o tree) :
    w.Single s ∨ ∃ c ∈ tree.preorder, ofPlace? c = some .declarator ∧ w ∈ Declaration.shiftWrites s o c := by
  obtain ⟨e, he, hw⟩ := List.mem_flatMap.1 hw
  have hplace : e.place ∈ tree.preorder := Node.mem_preorder_iff.2 (Cursor.reaches_of_mem_events he)
  cases hk : ofPlace? e.place with
  | none =>
    rw [eventWrites_eq_nil hk] at hw
    cases hw
  | some k =>
    cases e with
    | enter c =>
      simp only [Event.place] at hk
      simp only [eventWrites, hk, Option.map_some, Option.getD_some] at hw
      exact .inl (single_enter k w hw)
    | leave c =>
      simp only [Event.place] at hk hplace
      simp only [eventWrites, hk, Option.map_some, Option.getD_some] at hw
      cases k with
      | declarator => exact .inr ⟨c, hplace, hk, hw⟩
      | _ => cases hw

end Construct

end Indentation
