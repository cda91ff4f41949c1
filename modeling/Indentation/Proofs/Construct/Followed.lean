import Indentation.Proofs.Construct.Marks
import Indentation.Proofs.Layout.Followed

/-!
# Constructs of a text whose columns have moved

The constructs of a moved tree write what those of the tree wrote, but for the columns of first
elements, and a first element comes before the elements that are put into its column.
-/

namespace Indentation

open Cursor TokenStream Construct

variable {f : Nat → Nat} {s s' : TokenStream} (h : s.Tracks f s')
include h

namespace Sequence

theorem follows_alignWithFirst {span : Span} {elements : List (Option Cursor)}
    (hsuccessive : Successive s elements) :
    List.Forall₂ (Write.Follows s s') (alignWithFirst s span elements)
      (alignWithFirst s' span (elements.map (Option.map (mapOffsets f)))) := by
  simp only [alignWithFirst, lead_eq h.toParallels, later_eq h.toParallels]
  cases hd : elements.head?.join.bind (elementStart? s span.first) with
  | none => exact Write.forall₂_follows s s' _
  | some lead =>
    obtain ⟨d, hjoin, hstart⟩ := Option.bind_eq_some_iff.1 hd
    refine .cons (.same _) (List.rel_append (Write.forall₂_follows s s' _) ?_)
    rw [List.forall₂_map_left_iff, List.forall₂_map_right_iff, List.forall₂_same]
    intro token htoken
    obtain ⟨element, he, ht⟩ := List.mem_filterMap.1 htoken
    obtain ⟨e, rfl, ht⟩ := Option.bind_eq_some_iff.1 ht
    obtain ⟨-, -, -, hcode, -⟩ := elementStart?_some hstart
    exact .place (hsuccessive.lead_lt h.ordered (Option.join_eq_some_iff.1 hjoin) he hstart ht) hcode

/-- What a list writes follows the column of its first element. -/
theorem follows_writes {span : Span} {elements : List (Option Cursor)} (offset : ListOffset)
    (hsuccessive : Successive s elements) :
    List.Forall₂ (Write.Follows s s') (writes s span elements offset)
      (writes s' span (elements.map (Option.map (mapOffsets f))) offset) := by
  cases offset with
  | levels count =>
    rw [writes_eq h.toParallels span elements (show ListOffset.levels count = .first → _ from nofun)]
    exact Write.forall₂_follows s s' _
  | first => exact List.rel_append (follows_alignWithFirst h hsuccessive) (Write.forall₂_follows s s' _)

omit h in
theorem literalElements_mapOffsets (c : Cursor) :
    literalElements (c.mapOffsets f) = (literalElements c).map (Option.map (mapOffsets f)) := by
  simp only [literalElements, kind_mapOffsets, arrayElements_mapOffsets, properChildren_mapOffsets,
    map_some_mapOffsets]
  split <;> rfl

theorem follows_ofLiteral (offset : ListOffset) {c : Cursor}
    (hsuccessive : Successive s (literalElements c)) :
    List.Forall₂ (Write.Follows s s') (ofLiteral s offset c) (ofLiteral s' offset (c.mapOffsets f)) := by
  have hspan := h.spanOfNode?_eq c
  cases hspan' : s.spanOfNode? c with
  | none =>
    rw [hspan'] at hspan
    simp only [ofLiteral, hspan, hspan']
    exact .nil
  | some span =>
    rw [hspan'] at hspan
    rw [ofLiteral_of_span hspan', ofLiteral_of_span hspan, literalElements_mapOffsets]
    exact follows_writes h offset hsuccessive

end Sequence

namespace Callable

theorem follows_parameterWrites (offset : Option ListOffset) {c : Cursor}
    (hsuccessive : Sequence.Successive s ((parameters c).map some)) :
    List.Forall₂ (Write.Follows s s') (parameterWrites s offset c)
      (parameterWrites s' offset (c.mapOffsets f)) := by
  simp only [parameterWrites, parameterSpan?_eq h.toParallels, parameters_mapOffsets, exemptStarts_eq h.toParallels,
    Sequence.map_some_mapOffsets]
  cases parameterSpan? s c with
  | none => exact .nil
  | some span =>
    refine .cons (.same _) (.cons (.same _) (List.rel_append ?_ (Write.forall₂_follows s s' _)))
    exact Sequence.follows_writes h _ hsuccessive

theorem follows_argumentWrites (offset : Option ListOffset) (field : String) {c : Cursor}
    (hsuccessive : ∀ arguments, c.fieldChild? "arguments" = some arguments →
      Sequence.Successive s (arguments.properChildren.map some)) :
    List.Forall₂ (Write.Follows s s') (argumentWrites s offset field c)
      (argumentWrites s' offset field (c.mapOffsets f)) := by
  have hbare : ∀ xs : List Cursor, (xs.map (mapOffsets f)).map bare = (xs.map bare).map (mapOffsets f) := by
    simp [Function.comp_def]
  simp only [argumentWrites, fieldChild?_mapOffsets, Option.bind_eq_bind, Option.bind_map,
    Function.comp_def, kind_mapOffsets, h.firstOf?_eq, h.lastOf?_eq, properChildren_mapOffsets,
    Sequence.map_some_mapOffsets, hbare, exemptStarts_eq h.toParallels, openingWrite_eq h.toParallels]
  cases harguments : c.fieldChild? "arguments" with
  | none => exact .nil
  | some arguments =>
    simp only [Option.bind_some]
    split
    · exact .nil
    · cases s.firstOf? arguments with
      | none => exact .nil
      | some opening =>
        cases s.lastOf? c with
        | none => exact .nil
        | some last =>
          refine .cons (.same _) (.cons (.same _) (List.rel_append (List.rel_append
            (Write.forall₂_follows s s' _) ?_) (Write.forall₂_follows s s' _)))
          exact Sequence.follows_writes h _ (hsuccessive arguments harguments)

end Callable

namespace Construct

variable {tree : Node} {o : IndentOptions} (hn : tree.Nested)
  (hended : ∀ c ∈ tree.preorder, Ended s c)
  (hin : ∀ c ∈ tree.preorder, Operation.IsMark c → s.Covers c.range.start)
include hn hended

omit h in
theorem successive_parameters {c : Cursor} (hc : c ∈ tree.preorder) :
    Sequence.Successive s ((Callable.parameters c).map some) := by
  obtain ⟨d, hd, hsub, -⟩ := Callable.parameters_sublist (c := c)
  refine Sequence.successive_of_sublist hn hended (Node.mem_preorder_of_reaches hc hd) ?_ ?_
  · rwa [Sequence.filterMap_map_some]
  · rw [Sequence.filterMap_map_some]
    exact fun e he => Callable.named_of_mem_parameters (hended c hc) he

omit h in
theorem successive_arguments {c arguments : Cursor} (hc : c ∈ tree.preorder)
    (harguments : c.fieldChild? "arguments" = some arguments) :
    Sequence.Successive s (arguments.properChildren.map some) := by
  refine Sequence.successive_of_sublist hn hended
    (Node.mem_preorder_of_child hc (mem_children_of_fieldChild harguments)) ?_ ?_
  · rw [Sequence.filterMap_map_some]
    exact properChildren_sublist arguments
  · rw [Sequence.filterMap_map_some]
    exact fun e he => Sequence.named_of_mem_properChildren he

omit h in
theorem successive_literalElements {c : Cursor} (hc : c ∈ tree.preorder)
    (hk : ofPlace? c = some .array ∨ ofPlace? c = some .object ∨ ofPlace? c = some .pattern) :
    Sequence.Successive s (Sequence.literalElements c) :=
  Sequence.successive_of_sublist hn hended hc (Sequence.sublist_literalElements c)
    (Sequence.named_of_mem_literalElements (hended c hc) hk)

include hin

/-- What a construct writes follows the columns of the elements of its list. -/
theorem follows_enter {c : Cursor} (hc : c ∈ tree.preorder) {k : Construct}
    (hk : ofPlace? c = some k) :
    List.Forall₂ (Write.Follows s s') (enter s o c k) (enter s' o (c.mapOffsets f) k) := by
  have hparameters := successive_parameters hn hended hc
  have harguments : ∀ arguments, c.fieldChild? "arguments" = some arguments →
      Sequence.Successive s (arguments.properChildren.map some) := fun _ harguments =>
    successive_arguments hn hended hc harguments
  cases k with
  | array => exact Sequence.follows_ofLiteral h _ (successive_literalElements hn hended hc (.inl hk))
  | object =>
    exact Sequence.follows_ofLiteral h _ (successive_literalElements hn hended hc (.inr (.inl hk)))
  | arrow =>
    refine List.rel_append (Callable.follows_parameterWrites h _ hparameters) ?_
    rw [Callable.expressionBody_eq h.toParallels]
    exact Write.forall₂_follows s s' _
  | functionDeclaration => exact Callable.follows_parameterWrites h _ hparameters
  | functionExpression => exact Callable.follows_parameterWrites h _ hparameters
  | call => exact Callable.follows_argumentWrites h _ _ harguments
  | new => exact Callable.follows_argumentWrites h _ _ harguments
  | _ =>
    rw [enter_eq h.toParallels (fun d hd hmark => h.startOf?_eq (hin d hd hmark)) hc hk (by exact nofun)]
    exact Write.forall₂_follows s s' _

/-- What the constructs of a moved tree write follows what those of the tree wrote. -/
theorem follows_writes :
    List.Forall₂ (Write.Follows s s') (writes s o tree) (writes s' o (tree.mapOffsets f)) := by
  rw [writes, writes, Node.events_mapOffsets]
  have hevents : List.Forall₂ (fun e e' => e ∈ tree.events ∧ e' = Event.mapOffsets f e) tree.events
      (tree.events.map (Event.mapOffsets f)) := by
    rw [List.forall₂_map_right_iff, List.forall₂_same]
    exact fun e he => ⟨he, rfl⟩
  refine List.rel_flatMap hevents ?_
  rintro e _ ⟨he, rfl⟩
  have hplace : e.place ∈ tree.preorder := Node.mem_preorder_iff.2 (reaches_of_mem_events he)
  cases e with
  | enter c =>
    simp only [Event.mapOffsets, eventWrites, ofPlace?_mapOffsets]
    cases hk : ofPlace? c with
    | none => exact .nil
    | some k => exact follows_enter h hn hended hin (show c ∈ tree.preorder from hplace) hk
  | leave c =>
    simp only [Event.mapOffsets, eventWrites, ofPlace?_mapOffsets, funext (leave_eq h.toParallels c)]
    exact Write.forall₂_follows s s' _

/-! ## The grammar of a moved tree -/

omit hn hended hin

/-- Children of a moved place are in the order in which those of the place are. -/
theorem inOrder_mapOffsets {c : Cursor} (hc : InOrder s c) : InOrder s' (c.mapOffsets f) := by
  have hstop := @Range.stop_mapOffsets f h.mono
  have hcallee : ∀ field, Callable.CalleeFirst field c →
      Callable.CalleeFirst field (c.mapOffsets f) := by
    intro field hfirst callee' hcallee' arguments' harguments'
    rw [fieldChild?_mapOffsets] at hcallee' harguments'
    obtain ⟨callee, hcallee, rfl⟩ := Option.map_eq_some_iff.1 hcallee'
    obtain ⟨arguments, harguments, rfl⟩ := Option.map_eq_some_iff.1 harguments'
    rw [range_mapOffsets, range_mapOffsets, hstop]
    exact h.mono (hfirst callee hcallee arguments harguments)
  constructor
  · intro hk left' hleft' operator' hoperator'
    rw [ofPlace?_mapOffsets] at hk
    rw [fieldChild?_mapOffsets] at hleft'
    rw [fieldChild?_mapOffsets, tokenChild?_mapOffsets, ← Option.map_or] at hoperator'
    obtain ⟨left, hleft, rfl⟩ := Option.map_eq_some_iff.1 hleft'
    obtain ⟨operator, hoperator, rfl⟩ := Option.map_eq_some_iff.1 hoperator'
    rw [range_mapOffsets, range_mapOffsets, hstop]
    exact h.mono (hc.assignment hk left hleft operator hoperator)
  · exact fun hk => hcallee _ (hc.call (by rwa [ofPlace?_mapOffsets] at hk))
  · exact fun hk => hcallee _ (hc.new (by rwa [ofPlace?_mapOffsets] at hk))
  · intro hkind parameters' hparameters' d' hd' hor
    rw [kind_mapOffsets] at hkind
    rw [fieldChild?_mapOffsets] at hparameters'
    rw [children_mapOffsets] at hd'
    obtain ⟨parameters, hparameters, rfl⟩ := Option.map_eq_some_iff.1 hparameters'
    obtain ⟨d, hd, rfl⟩ := List.mem_map.1 hd'
    rw [kind_mapOffsets] at hor
    rw [range_mapOffsets, range_mapOffsets]
    exact h.mono (hc.method hkind parameters hparameters d hd hor)
  · intro hk opening hopening part' hpart'
    rw [ofPlace?_mapOffsets] at hk
    rw [h.firstOf?_eq, funext h.nextCode?_eq] at hopening
    have hparts : Body.headerParts (c.mapOffsets f) = (Body.headerParts c).map (mapOffsets f) := by
      simp [Body.headerParts]
    rw [hparts] at hpart'
    obtain ⟨part, hpart, rfl⟩ := List.mem_map.1 hpart'
    obtain ⟨first, -, hnext⟩ := Option.bind_eq_some_iff.1 hopening
    rw [range_mapOffsets, Range.start_mapOffsets, h.stop_le _ opening (nextCode?_some hnext).2.1]
    exact hc.forLoop hk opening hopening part hpart

theorem ended_mapOffsets {c : Cursor} (hc : Ended s c) : Ended s' (c.mapOffsets f) where
  ends hnamed t ht := by
    rw [named_mapOffsets] at hnamed
    rw [h.lastOf?_eq] at ht
    rw [h.isPunctuator_eq]
    exact hc.ends hnamed t ht
  element hk e' he' := by
    rw [ofPlace?_mapOffsets] at hk
    rw [Sequence.arrayElements_mapOffsets, List.filterMap_map] at he'
    obtain ⟨element, helement, he⟩ := List.mem_filterMap.1 he'
    obtain ⟨e, rfl, rfl⟩ := Option.map_eq_some_iff.1 he
    rw [named_mapOffsets]
    exact hc.element hk e (List.mem_filterMap.2 ⟨some e, helement, rfl⟩)
  part d' hd' := by
    simp only [fieldChild?_mapOffsets, Option.map_eq_some_iff] at hd'
    obtain ⟨d, hd, rfl⟩ | ⟨d, hd, rfl⟩ := hd'
    · exact (named_mapOffsets f d).trans (hc.part d (.inl hd))
    · exact (named_mapOffsets f d).trans (hc.part d (.inr hd))

end Construct

end Indentation
