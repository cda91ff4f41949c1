import Indentation.Construct.Basic
import Indentation.Proofs.Construct.Places
import Indentation.Proofs.Token.Tracks

/-!
# Constructs of a moved text

A construct of a moved tree writes what the construct of the tree wrote, as long as it does not look at
columns.
-/

namespace Indentation

open TokenStream Cursor

variable {f : Nat → Nat} {s s' : TokenStream} (h : s.Parallels f s')
include h

namespace Sequence

theorem beforeParens?_eq (opening id : Nat) :
    beforeParens? s' opening id = beforeParens? s opening id := by
  induction id with
  | zero => rfl
  | succ id ih => rw [beforeParens?, beforeParens?, h.isComment_eq, h.isOpening_eq, ih]

theorem elementStart?_eq (opening : Nat) (e : Cursor) :
    elementStart? s' opening (e.mapOffsets f) = elementStart? s opening e := by
  simp only [elementStart?, h.firstOf?_eq, beforeParens?_eq h, h.nextCode?_eq, h.firstCode?_eq]

theorem chain?_eq (span : Span) (previous current : Option Cursor) :
    chain? s' span (previous.map (mapOffsets f)) (current.map (mapOffsets f)) =
      chain? s span previous current := by
  cases previous with
  | none => rfl
  | some previous =>
    cases current with
    | none => rfl
    | some current =>
      simp only [chain?, Option.map_some, Option.bind_eq_bind, Option.bind_some, bare_mapOffsets,
        h.lastOf?_eq, h.endLine_eq, elementStart?_eq h]

theorem chains_eq (span : Span) (elements : List (Option Cursor)) :
    chains s' span (elements.map (Option.map (mapOffsets f))) = chains s span elements := by
  rw [chains, chains, ← List.map_drop, List.zip_map, List.filterMap_map]
  refine List.filterMap_congr fun p _ => ?_
  exact chain?_eq h span p.1 p.2

theorem bind_elementStart?_eq (opening : Nat) (element : Option Cursor) :
    (element.map (mapOffsets f)).bind (elementStart? s' opening) =
      element.bind (elementStart? s opening) := by
  cases element with
  | none => rfl
  | some e => exact elementStart?_eq h opening e

theorem lead_eq (opening : Nat) (elements : List (Option Cursor)) :
    (elements.map (Option.map (mapOffsets f))).head?.join.bind (elementStart? s' opening) =
      elements.head?.join.bind (elementStart? s opening) := by
  rw [List.head?_map, ← bind_elementStart?_eq h]
  cases elements.head? <;> rfl

theorem later_eq (opening : Nat) (elements : List (Option Cursor)) :
    ((elements.map (Option.map (mapOffsets f))).drop 1).filterMap
        (fun element => element.bind (elementStart? s' opening)) =
      (elements.drop 1).filterMap fun element => element.bind (elementStart? s opening) := by
  rw [← List.map_drop, List.filterMap_map]
  exact List.filterMap_congr fun element _ => bind_elementStart?_eq h opening element

/-- A list writes what it wrote, unless it looks at columns and these are others. -/
theorem writes_eq (span : Span) (elements : List (Option Cursor)) {offset : ListOffset}
    (ho : offset = .first → s.SameColumns s') :
    writes s' span (elements.map (Option.map (mapOffsets f))) offset = writes s span elements offset := by
  cases offset with
  | first =>
    simp only [writes, alignWithFirst, lead_eq h, later_eq h]
    cases elements.head?.join.bind (elementStart? s span.first) with
    | none => rfl
    | some lead => simp only [ho rfl lead]
  | levels count => simp only [writes, chains_eq h]

omit h in
theorem map_some_mapOffsets (xs : List Cursor) :
    (xs.map (mapOffsets f)).map some = (xs.map some).map (Option.map (mapOffsets f)) := by
  simp only [List.map_map]
  rfl

omit h in
theorem arrayElements_mapOffsets (c : Cursor) :
    arrayElements (c.mapOffsets f) = (arrayElements c).map (Option.map (mapOffsets f)) := by
  have hread : ∀ (xs : List Cursor) (slots : Slots),
      ((xs.map (mapOffsets f)).foldl Slots.read
          ⟨slots.closed.map (Option.map (mapOffsets f)), slots.waiting.map (mapOffsets f)⟩).closed =
        (xs.foldl Slots.read slots).closed.map (Option.map (mapOffsets f)) := by
    intro xs
    induction xs with
    | nil => exact fun _ => rfl
    | cons x xs ih =>
      intro slots
      rw [List.map_cons, List.foldl_cons, List.foldl_cons, ← ih]
      congr 1
      obtain ⟨closed, waiting⟩ := slots
      simp only [Slots.read, kind_mapOffsets]
      split
      · rfl
      · simp
      · cases waiting <;> simp
      · simp
  have hfilter : (c.mapOffsets f).children.filter (fun d => !d.extra) =
      (c.children.filter fun d => !d.extra).map (mapOffsets f) := by
    rw [children_mapOffsets, List.filter_map]
    congr 2
    funext d
    simp
  rw [arrayElements, arrayElements, hfilter]
  exact hread _ ⟨[], none⟩

theorem ofLiteral_eq {offset : ListOffset} (ho : offset = .first → s.SameColumns s') (c : Cursor) :
    ofLiteral s' offset (c.mapOffsets f) = ofLiteral s offset c := by
  rw [ofLiteral, ofLiteral, h.spanOfNode?_eq]
  cases s.spanOfNode? c with
  | none => rfl
  | some span =>
    simp only [kind_mapOffsets, arrayElements_mapOffsets, properChildren_mapOffsets,
      map_some_mapOffsets]
    split <;> exact writes_eq h span _ ho

omit h in
theorem properOfKind_mapOffsets (c : Cursor) (kind : String) :
    properOfKind (c.mapOffsets f) kind = (properOfKind c kind).map (mapOffsets f) := by
  rw [properOfKind, properOfKind, properChildren_mapOffsets, List.filter_map]
  congr 2
  funext d
  simp

theorem ofExport_eq (c : Cursor) : ofExport s' (c.mapOffsets f) = ofExport s c := by
  simp only [ofExport, properOfKind_mapOffsets, List.head?_map, Option.bind_eq_bind,
    Option.bind_map, Function.comp_def, h.spanOfNode?_eq, map_some_mapOffsets,
    writes_eq h _ _ (show ListOffset.levels 1 = .first → _ from nofun)]

theorem ofImport_eq (c : Cursor) : ofImport s' (c.mapOffsets f) = ofImport s c := by
  simp only [ofImport, properOfKind_mapOffsets, List.head?_map, Option.bind_eq_bind,
    Option.bind_map, Function.comp_def, h.spanOfNode?_eq, map_some_mapOffsets, List.isEmpty_map,
    writes_eq h _ _ (show ListOffset.levels 1 = .first → _ from nofun)]

end Sequence

namespace Callable

omit h in
theorem parameters_mapOffsets (c : Cursor) :
    parameters (c.mapOffsets f) = (parameters c).map (mapOffsets f) := by
  rw [parameters, parameters, fieldChild?_mapOffsets, fieldChild?_mapOffsets]
  cases c.fieldChild? "parameters" with
  | none => cases c.fieldChild? "parameter" <;> rfl
  | some list => exact properChildren_mapOffsets f list

theorem parameterSpan?_eq (c : Cursor) :
    parameterSpan? s' (c.mapOffsets f) = parameterSpan? s c := by
  simp only [parameterSpan?, fieldChild?_mapOffsets, Option.bind_eq_bind, Option.bind_map,
    Function.comp_def, bare_mapOffsets, h.firstOf?_eq, parameters_mapOffsets, List.head?_map,
    h.prevCode?_eq, h.headOf?_eq]
  congr 1
  funext body
  congr 1
  funext bodyStart
  cases (parameters c).head? with
  | none => rfl
  | some parameter => simp only [Option.map_some, h.firstOf?_eq]

theorem exemptStarts_eq (nodes : List Cursor) :
    exemptStarts s' (nodes.map (mapOffsets f)) = exemptStarts s nodes := by
  simp only [exemptStarts, List.filterMap_map, Function.comp_def, h.firstOf?_eq]

theorem parameterWrites_eq {offset : Option ListOffset} (ho : offset = some .first → s.SameColumns s')
    (c : Cursor) : parameterWrites s' offset (c.mapOffsets f) = parameterWrites s offset c := by
  have ho' : offset.getD (.levels 0) = .first → s.SameColumns s' := by
    cases offset with
    | none => exact nofun
    | some offset => exact fun heq => ho (congrArg some heq)
  simp only [parameterWrites, parameterSpan?_eq h, parameters_mapOffsets, exemptStarts_eq h,
    Sequence.map_some_mapOffsets, Sequence.writes_eq h _ _ ho']

theorem expressionBody_eq (c : Cursor) : expressionBody s' (c.mapOffsets f) = expressionBody s c := by
  simp only [expressionBody, fieldChild?_mapOffsets, Option.bind_eq_bind, Option.bind_map,
    Function.comp_def, kind_mapOffsets, bare_mapOffsets, h.spanOfNode?_eq, h.firstOf?_eq]

theorem arrowWrites_eq {offset : Option ListOffset} (ho : offset = some .first → s.SameColumns s')
    (c : Cursor) : arrowWrites s' offset (c.mapOffsets f) = arrowWrites s offset c := by
  rw [arrowWrites, arrowWrites, parameterWrites_eq h ho, expressionBody_eq h]

theorem openingWrite_eq (field : String) (opening : Nat) (c : Cursor) :
    openingWrite s' field opening (c.mapOffsets f) = openingWrite s field opening c := by
  simp only [openingWrite, fieldChild?_mapOffsets, Option.bind_map, Function.comp_def,
    bare_mapOffsets, h.lastOf?_eq]

theorem argumentWrites_eq {offset : Option ListOffset} (ho : offset = some .first → s.SameColumns s')
    (field : String) (c : Cursor) :
    argumentWrites s' offset field (c.mapOffsets f) = argumentWrites s offset field c := by
  have ho' : offset.getD (.levels 1) = .first → s.SameColumns s' := by
    cases offset with
    | none => exact nofun
    | some offset => exact fun heq => ho (congrArg some heq)
  have hbare : ∀ xs : List Cursor, (xs.map (mapOffsets f)).map bare = (xs.map bare).map (mapOffsets f) := by
    simp [Function.comp_def]
  simp only [argumentWrites, fieldChild?_mapOffsets, Option.bind_eq_bind, Option.bind_map,
    Function.comp_def, kind_mapOffsets, h.firstOf?_eq, h.lastOf?_eq, properChildren_mapOffsets,
    Sequence.map_some_mapOffsets, Sequence.writes_eq h _ _ ho', hbare, exemptStarts_eq h,
    openingWrite_eq h]

end Callable

namespace Body

omit h in
theorem levels_mapOffsets (o : IndentOptions) (owner : Option Cursor) :
    levels o (owner.map (mapOffsets f)) = levels o owner := by
  cases owner with
  | none => rfl
  | some c => simp only [levels, Option.map_some, isOuterCall_mapOffsets, kind_mapOffsets]

theorem blockWrites_eq (o : IndentOptions) (c : Cursor) :
    blockWrites s' o (c.mapOffsets f) = blockWrites s o c := by
  simp only [blockWrites, h.spanOfNode?_eq, owner?_mapOffsets, Option.bind_map, Function.comp_def,
    h.headOf?_eq, h.leads_eq, levels_mapOffsets]

theorem unbracedWrites_eq (c : Cursor) (body : Option Cursor) :
    unbracedWrites s' (c.mapOffsets f) (body.map (mapOffsets f)) = unbracedWrites s c body := by
  simp only [unbracedWrites, Option.bind_eq_bind, Option.bind_map, Function.comp_def,
    kind_mapOffsets, h.spanOfNode?_eq, h.firstOf?_eq]

theorem loopWrites_eq (c : Cursor) : loopWrites s' (c.mapOffsets f) = loopWrites s c := by
  rw [loopWrites, loopWrites, fieldChild?_mapOffsets, unbracedWrites_eq h]

omit h in
theorem alternative?_mapOffsets (c : Cursor) :
    alternative? (c.mapOffsets f) = (alternative? c).map (mapOffsets f) := by
  simp only [alternative?, fieldChild?_mapOffsets, Option.bind_eq_bind, Option.bind_map,
    Function.comp_def, properChildren_mapOffsets, List.head?_map, Option.map_bind]

theorem branchWrites_eq (c : Cursor) : branchWrites s' (c.mapOffsets f) = branchWrites s c := by
  fun_induction branchWrites s c with
  | case1 c ih =>
    rw [branchWrites, fieldChild?_mapOffsets, unbracedWrites_eq h]
    congr 1
    have halt := alternative?_mapOffsets (f := f) c
    cases hd : alternative? c with
    | none =>
      rw [hd, Option.map_none] at halt
      split
      · rfl
      · next hd' => rw [halt] at hd'; cases hd'
    | some d =>
      rw [hd, Option.map_some] at halt
      split
      · next hd' => rw [halt] at hd'; cases hd'
      · next d' hd' =>
        obtain rfl : d.mapOffsets f = d' := by simpa [halt] using hd'
        simp only [kind_mapOffsets, ih d hd]
        split
        · rfl
        · exact unbracedWrites_eq h c (some d)

theorem headerWrites_eq (c : Cursor) : headerWrites s' (c.mapOffsets f) = headerWrites s c := by
  have hparts : ["initializer", "condition", "increment"].flatMap (c.mapOffsets f).fieldChildren =
      (["initializer", "condition", "increment"].flatMap c.fieldChildren).map (mapOffsets f) := by
    simp
  simp only [headerWrites, h.firstOf?_eq, funext h.nextCode?_eq, hparts, List.filter_map,
    List.filterMap_map, Function.comp_def, h.spanOfNode?_eq, named_mapOffsets, kind_mapOffsets]

theorem forWrites_eq (c : Cursor) : forWrites s' (c.mapOffsets f) = forWrites s c := by
  rw [forWrites, forWrites, headerWrites_eq h, loopWrites_eq h]

theorem classWrites_eq (c : Cursor) : classWrites s' (c.mapOffsets f) = classWrites s c := by
  rw [classWrites, classWrites, h.spanOfNode?_eq]

omit h in
theorem holdsOneBlock_mapOffsets (c : Cursor) :
    holdsOneBlock (c.mapOffsets f) = holdsOneBlock c := by
  have hpast : (((c.mapOffsets f).children.dropWhile fun d => d.named || d.kind != ":").drop 1).filter
        (fun d => d.named && !d.extra) =
      (((c.children.dropWhile fun d => d.named || d.kind != ":").drop 1).filter
        fun d => d.named && !d.extra).map (mapOffsets f) := by
    rw [children_mapOffsets, List.dropWhile_map, ← List.map_drop, List.filter_map]
    simp [Function.comp_def]
  unfold holdsOneBlock
  dsimp only
  rw [hpast]
  generalize ((c.children.dropWhile fun d => d.named || d.kind != ":").drop 1).filter
    (fun d => d.named && !d.extra) = past
  match past with
  | [] => rfl
  | [only] => simp only [List.map_cons, List.map_nil, kind_mapOffsets]
  | _ :: _ :: _ => rfl

theorem caseWrites_eq (labels blocks : List Nat) (label : Nat) (tokens : List Nat) :
    caseWrites s' labels blocks label tokens = caseWrites s labels blocks label tokens := by
  induction tokens generalizing label with
  | nil => rfl
  | cons token tokens ih => simp only [caseWrites, ih, h.isComment_eq]

theorem switchWrites_eq (o : IndentOptions) (c : Cursor) :
    switchWrites s' o (c.mapOffsets f) = switchWrites s o c := by
  simp only [switchWrites, fieldChild?_mapOffsets, Option.bind_eq_bind, Option.bind_map,
    Function.comp_def, h.spanOfNode?_eq, properChildren_mapOffsets, List.filter_map,
    List.filterMap_map, h.firstOf?_eq, kind_mapOffsets, holdsOneBlock_mapOffsets, caseWrites_eq h]

end Body

namespace Declaration

omit h in
theorem keyword_mapOffsets (c : Cursor) : keyword (c.mapOffsets f) = keyword c := by
  rw [keyword, keyword, kind_mapOffsets, fieldChild?_mapOffsets, firstChild?_mapOffsets,
    ← Option.map_or]
  cases (c.fieldChild? "kind").or c.firstChild? with
  | none => rfl
  | some word => simp only [Option.map_some, kind_mapOffsets]

theorem writes_eq (o : IndentOptions) (c : Cursor) : writes s' o (c.mapOffsets f) = writes s o c := by
  simp only [writes, h.spanOfNode?_eq, keyword_mapOffsets, h.isSemicolon_eq]

theorem declaratorWrites_eq (c : Cursor) :
    declaratorWrites s' (c.mapOffsets f) = declaratorWrites s c := by
  simp only [declaratorWrites, fieldChild?_mapOffsets, Option.bind_map, Function.comp_def,
    bare_mapOffsets, h.firstOf?_eq]

omit h in
theorem isFirstOfSeveral_mapOffsets (d c : Cursor) :
    isFirstOfSeveral (d.mapOffsets f) (c.mapOffsets f) = isFirstOfSeveral d c := by
  have hdecl : declarators (d.mapOffsets f) = (declarators d).map (mapOffsets f) := by
    rw [declarators, declarators, properChildren_mapOffsets, List.filter_map]
    simp [Function.comp_def]
  rw [isFirstOfSeveral, isFirstOfSeveral, hdecl]
  match declarators d with
  | [] => rfl
  | [_] => rfl
  | first :: _ :: _ => exact samePlace_mapOffsets f first c

theorem shiftWrites_eq (o : IndentOptions) (c : Cursor) :
    shiftWrites s' o (c.mapOffsets f) = shiftWrites s o c := by
  simp only [shiftWrites, parent?_mapOffsets, Option.bind_eq_bind, Option.bind_map,
    Function.comp_def, isFirstOfSeveral_mapOffsets, fieldChild?_mapOffsets, bare_mapOffsets,
    h.spanOfNode?_eq, keyword_mapOffsets]

end Declaration

namespace Operation

/-- The places that are looked up by the offset at which they start. -/
def IsMark (c : Cursor) : Prop :=
  c.node.label.field = some "operator" ∨ c.kind ∈ ["=", ":", "\x7d", "template_string"]

/-- The token that starts where a place starts is the same for both texts. -/
def SameStart (s : TokenStream) (f : Nat → Nat) (s' : TokenStream) (c : Cursor) : Prop :=
  s'.startOf? (c.mapOffsets f) = s.startOf? c

omit h in
theorem bind_startOf?_eq {o : Option Cursor} (ho : ∀ d ∈ o, SameStart s f s' d) :
    (o.map (mapOffsets f)).bind s'.startOf? = o.bind s.startOf? := by
  cases o with
  | none => rfl
  | some d => exact ho d rfl

section

variable {c : Cursor} (hc : ∀ d ∈ c.children, IsMark d → SameStart s f s' d)
include hc

omit h in
theorem sameStart_of_operator {d : Cursor} (hd : c.fieldChild? "operator" = some d) :
    SameStart s f s' d :=
  hc d (mem_children_of_fieldChild hd) (.inl (by simpa using List.find?_some hd))

omit h in
theorem sameStart_of_token {text : String} (htext : text ∈ ["=", ":", "\x7d", "template_string"])
    {d : Cursor} (hd : c.tokenChild? text = some d) : SameStart s f s' d := by
  have hkind : d.kind = text := by
    have := List.find?_some hd
    simp only [Bool.and_eq_true, beq_iff_eq] at this
    exact this.2
  exact hc d (List.mem_of_find?_eq_some hd) (.inr (hkind ▸ htext))

omit h in
theorem operatorStart?_eq : operatorStart? s' (c.mapOffsets f) = operatorStart? s c := by
  rw [operatorStart?, operatorStart?, fieldChild?_mapOffsets]
  exact bind_startOf?_eq fun d hd => sameStart_of_operator hc hd

theorem binaryWrites_eq : binaryWrites s' (c.mapOffsets f) = binaryWrites s c := by
  simp only [binaryWrites, operatorStart?_eq hc, h.nextCode?_eq, h.firstOf?_eq, h.lastOf?_eq]

omit h in
theorem assignStart?_eq : assignStart? s' (c.mapOffsets f) = assignStart? s c := by
  rw [assignStart?, assignStart?, fieldChild?_mapOffsets, tokenChild?_mapOffsets, ← Option.map_or]
  refine bind_startOf?_eq fun d hd => ?_
  rcases Option.or_eq_some_iff.1 hd with hd | ⟨-, hd⟩
  · exact sameStart_of_operator hc hd
  · exact sameStart_of_token hc (by simp) hd

theorem assignmentWrites_eq : assignmentWrites s' (c.mapOffsets f) = assignmentWrites s c := by
  simp only [assignmentWrites, fieldChild?_mapOffsets, Option.bind_eq_bind, Option.bind_map,
    Function.comp_def, assignStart?_eq hc, bare_mapOffsets, h.firstOf?_eq, h.lastOf?_eq]

theorem propertyWrites_eq : propertyWrites s' (c.mapOffsets f) = propertyWrites s c := by
  have hcolon : ((c.tokenChild? ":").map (mapOffsets f)).bind s'.startOf? =
      (c.tokenChild? ":").bind s.startOf? :=
    bind_startOf?_eq fun d hd => sameStart_of_token hc (by simp) hd
  simp only [propertyWrites, fieldChild?_mapOffsets, tokenChild?_mapOffsets, Option.any_map,
    kind_mapOffsets, hcolon, funext h.nextCode?_eq]

end

theorem conditionalWrites_eq (c : Cursor) :
    conditionalWrites s' (c.mapOffsets f) = conditionalWrites s c := by
  rw [conditionalWrites, conditionalWrites, h.spanOfNode?_eq]

theorem accessStart?_eq (object property : Cursor) :
    accessStart? s' (object.mapOffsets f) (property.mapOffsets f) = accessStart? s object property := by
  simp only [accessStart?, h.lastOf?_eq, h.firstOf?_eq, h.codeBetween_eq, h.isClosing_eq]

theorem leadWrites_eq (levels : Option Nat) (objectFirst token : Nat) :
    leadWrites s' levels objectFirst token = leadWrites s levels objectFirst token := by
  simp only [leadWrites, h.leaderOf_eq]

theorem memberWrites_eq (levels : Option Nat) (c : Cursor) :
    memberWrites s' levels (c.mapOffsets f) = memberWrites s levels c := by
  simp only [memberWrites, fieldChild?_mapOffsets, ← Option.map_or, Option.bind_eq_bind,
    Option.bind_map, Function.comp_def, bare_mapOffsets, h.firstOf?_eq, h.lastOf?_eq,
    accessStart?_eq h, funext (leadWrites_eq h levels _)]

omit h in
theorem closing?_eq {d : Cursor} (hd : ∀ e ∈ d.children, IsMark e → SameStart s f s' e) :
    closing? s' (d.mapOffsets f) = closing? s d := by
  have hfilter : (d.mapOffsets f).children.filter (fun e => e.kind == "\x7d") =
      (d.children.filter fun e => e.kind == "\x7d").map (mapOffsets f) := by
    rw [children_mapOffsets, List.filter_map]
    simp only [Function.comp_def, kind_mapOffsets]
  rw [closing?, closing?, hfilter, List.getLast?_map]
  refine bind_startOf?_eq fun e he => ?_
  obtain ⟨hchild, hkind⟩ := List.mem_filter.1 (List.mem_of_getLast? he)
  exact hd e hchild (.inr (by simp [beq_iff_eq.1 hkind]))

theorem substitutionWrites_eq {subs : List Cursor}
    (hsubs : ∀ d ∈ subs, ∀ e ∈ d.children, IsMark e → SameStart s f s' e) (part : Nat) :
    substitutionWrites s' part (subs.map (mapOffsets f)) = substitutionWrites s part subs := by
  induction subs generalizing part with
  | nil => rfl
  | cons d subs ih =>
    have ih' := ih fun e he => hsubs e (List.mem_cons_of_mem d he)
    rw [List.map_cons]
    unfold substitutionWrites
    rw [closing?_eq (hsubs d List.mem_cons_self)]
    cases closing? s d with
    | none => rfl
    | some next => simp only [h.startLine_eq, h.endLine_eq, h.codeBetween_eq, ih']

theorem templateWrites_eq {c : Cursor} (hself : SameStart s f s' c)
    (hc : ∀ d ∈ c.children, ∀ e ∈ d.children, IsMark e → SameStart s f s' e) :
    templateWrites s' (c.mapOffsets f) = templateWrites s c := by
  have hfilter : (c.mapOffsets f).children.filter (fun d => d.kind == "template_substitution") =
      (c.children.filter fun d => d.kind == "template_substitution").map (mapOffsets f) := by
    rw [children_mapOffsets, List.filter_map]
    simp only [Function.comp_def, kind_mapOffsets]
  rw [templateWrites, templateWrites, hself, hfilter]
  cases s.startOf? c with
  | none => rfl
  | some part => exact substitutionWrites_eq h (fun d hd => hc d (List.mem_filter.1 hd).1) part

end Operation

namespace Construct

omit h in
theorem ofPlace?_mapOffsets (c : Cursor) : ofPlace? (c.mapOffsets f) = ofPlace? c := by
  simp only [ofPlace?, named_mapOffsets, kind_mapOffsets]

/-- No list has its elements in the column of the first one. -/
structure Columnless (o : IndentOptions) : Prop where
  array : o.array ≠ .first
  object : o.object ≠ .first
  callArguments : o.callArguments ≠ some .first
  functionDeclaration : o.functionDeclaration.parameters ≠ some .first
  functionExpression : o.functionExpression.parameters ≠ some .first

/-- Where the elements of the list of a construct stand, if it has one that may look at columns. -/
def listOffset? (o : IndentOptions) : Construct → Option ListOffset
  | .array => some o.array
  | .object => some o.object
  | .call | .new => o.callArguments
  | .arrow | .functionExpression => o.functionExpression.parameters
  | .functionDeclaration => o.functionDeclaration.parameters
  | _ => none

omit h in
theorem Columnless.listOffset?_ne {o : IndentOptions} (ho : Columnless o) (k : Construct) :
    listOffset? o k ≠ some .first := by
  cases k with
  | array => exact fun h => ho.array (Option.some.inj h)
  | object => exact fun h => ho.object (Option.some.inj h)
  | call => exact ho.callArguments
  | new => exact ho.callArguments
  | arrow => exact ho.functionExpression
  | functionExpression => exact ho.functionExpression
  | functionDeclaration => exact ho.functionDeclaration
  | _ => exact nofun

omit h in
theorem ofKind?_eq_template {kind : String} (hk : ofKind? kind = some .template) :
    kind = "template_string" := by
  unfold ofKind? at hk
  split at hk <;> first | rfl | cases hk

variable {tree : Node} {o : IndentOptions}
  (hin : ∀ c ∈ tree.preorder, Operation.IsMark c → Operation.SameStart s f s' c)

include hin

/-- A construct writes what it wrote, unless its list looks at columns and these are others. -/
theorem enter_eq {c : Cursor} (hc : c ∈ tree.preorder) {k : Construct} (hk : ofPlace? c = some k)
    (ho : listOffset? o k = some .first → s.SameColumns s') :
    enter s' o (c.mapOffsets f) k = enter s o c k := by
  have hchildren : ∀ d ∈ c.children, Operation.IsMark d → Operation.SameStart s f s' d :=
    fun d hd => hin d (Node.mem_preorder_of_child hc hd)
  cases k with
  | array => exact Sequence.ofLiteral_eq h (fun heq => ho (congrArg some heq)) c
  | object => exact Sequence.ofLiteral_eq h (fun heq => ho (congrArg some heq)) c
  | pattern => exact Sequence.ofLiteral_eq h (show ListOffset.levels 1 = .first → _ from nofun) c
  | arrow => exact Callable.arrowWrites_eq h ho c
  | assignment => exact Operation.assignmentWrites_eq h hchildren
  | binary => exact Operation.binaryWrites_eq h hchildren
  | block => exact Body.blockWrites_eq h o c
  | call => exact Callable.argumentWrites_eq h ho _ c
  | new => exact Callable.argumentWrites_eq h ho _ c
  | classBody => exact Body.classWrites_eq h c
  | conditional => exact Operation.conditionalWrites_eq h c
  | loop => exact Body.loopWrites_eq h c
  | forLoop => exact Body.forWrites_eq h c
  | exports => exact Sequence.ofExport_eq h c
  | imports => exact Sequence.ofImport_eq h c
  | functionDeclaration => exact Callable.parameterWrites_eq h ho c
  | functionExpression => exact Callable.parameterWrites_eq h ho c
  | branch => exact Body.branchWrites_eq h c
  | member => exact Operation.memberWrites_eq h _ c
  | property => exact Operation.propertyWrites_eq h hchildren
  | switch => exact Body.switchWrites_eq h o c
  | template =>
    refine Operation.templateWrites_eq h (hin c hc ?_) fun d hd e he =>
      hin e (Node.mem_preorder_of_child (Node.mem_preorder_of_child hc hd) he)
    rw [ofPlace?] at hk
    split at hk
    · exact .inr (by simp [ofKind?_eq_template hk])
    · cases hk
  | declaration => exact Declaration.writes_eq h o c
  | declarator => exact Declaration.declaratorWrites_eq h c

omit hin in
theorem leave_eq (c : Cursor) (k : Construct) :
    leave s' o (c.mapOffsets f) k = leave s o c k := by
  cases k with
  | declarator => exact Declaration.shiftWrites_eq h o c
  | _ => rfl

/-- The constructs of a moved tree write what those of the tree wrote. -/
theorem writes_eq (ho : ∀ k, listOffset? o k = some .first → s.SameColumns s') :
    writes s' o (tree.mapOffsets f) = writes s o tree := by
  rw [writes, writes, Node.events_mapOffsets, List.flatMap_map]
  refine List.flatMap_congr fun e he => ?_
  have hplace : e.place ∈ tree.preorder := Node.mem_preorder_iff.2 (reaches_of_mem_events he)
  cases e with
  | enter c =>
    simp only [Event.mapOffsets, eventWrites, ofPlace?_mapOffsets]
    cases hk : ofPlace? c with
    | none => rfl
    | some k =>
      have henter := enter_eq h hin (show c ∈ tree.preorder from hplace) hk (ho k)
      simp only [Option.map_some, henter]
  | leave c =>
    simp only [Event.mapOffsets, eventWrites, ofPlace?_mapOffsets, funext (leave_eq h c)]

end Construct

end Indentation
