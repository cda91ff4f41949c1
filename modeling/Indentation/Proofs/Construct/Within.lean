import Indentation.Construct.Basic
import Indentation.Proofs.Construct.Bodies
import Indentation.Proofs.Construct.Operations

/-!
# What a walk writes at a place

Whatever a construct writes, at entering its place or at leaving it, is anchored forward and names
tokens of the place behind its first one.  The order in which the grammar puts children is needed for
some of this.
-/

namespace Indentation.Construct

open TokenStream

/-- The order of children that constructs rely on. -/
structure InOrder (s : TokenStream) (c : Cursor) : Prop where
  assignment : ofPlace? c = some .assignment → Operation.TargetFirst c
  call : ofPlace? c = some .call → Callable.CalleeFirst "function" c
  new : ofPlace? c = some .new → Callable.CalleeFirst "constructor" c
  method : Body.ParametersFirst c
  forLoop : ofPlace? c = some .forLoop → Body.PartsBehind s c

/-- The tokens that some constructs write without a look at where they end. -/
structure Covers (s : TokenStream) (c : Cursor) (P : Nat → Prop) : Prop where
  operand : ofPlace? c = some .binary → ∀ after,
    (Operation.operatorStart? s c).bind s.nextCode? = some after → P after
  part : ofPlace? c = some .template → ∀ part, s.startOf? c = some part →
    ∀ d ∈ Operation.substitutions c, ∀ next, Operation.closing? s d = some next →
      ∀ t, t ≤ next → part < t ∨ t = next → P t
  value : ofPlace? c = some .declarator → ∀ value, c.fieldChild? "value" = some value →
    ∀ span, s.spanOfNode? value.bare = some span →
      ∀ t, span.first ≤ t → t ≤ span.last → P t
  brace : ofPlace? c = some .block → ∀ i, s.firstOf? c = some i → s.leads i = false → P i

theorem covers_trivial (s : TokenStream) (c : Cursor) : Covers s c fun _ => True :=
  ⟨fun _ _ _ => trivial, fun _ _ _ _ _ _ _ _ _ _ => trivial, fun _ _ _ _ _ _ _ _ => trivial,
    fun _ _ _ _ => trivial⟩

theorem ofKind?_eq_block {kind : String} (h : ofKind? kind = some .block) :
    kind = "statement_block" := by
  unfold ofKind? at h
  split at h <;> first | rfl | cases h

theorem kind_of_ofPlace?_block {c : Cursor} (h : ofPlace? c = some .block) :
    c.kind = "statement_block" := by
  unfold ofPlace? at h
  split at h
  · exact ofKind?_eq_block h
  · cases h

variable {s : TokenStream} {tree : Node} {c : Cursor} {P : Nat → Prop} {o : IndentOptions}
  (hs : s.Lined) (hn : tree.Nested) (horder : ∀ c ∈ tree.preorder, InOrder s c)
  (hc : c ∈ tree.preorder) (hP : s.Tail c.range P) (hcovers : Covers s c P)
include hs hn horder hc hP hcovers

theorem within_enter {k : Construct} (hk : ofPlace? c = some k) :
    ∀ w ∈ enter s o c k, w.Within s P := by
  have hin := horder c hc
  cases k with
  | array => exact Sequence.within_ofLiteral hs hn hc hP _
  | object => exact Sequence.within_ofLiteral hs hn hc hP _
  | pattern => exact Sequence.within_ofLiteral hs hn hc hP _
  | arrow => exact Callable.within_arrowWrites hs hn hc _ hP
  | assignment => exact Operation.within_assignmentWrites hs hn hc (hin.assignment hk) hP
  | binary => exact Operation.within_binaryWrites hs hn hc hP (hcovers.operand hk)
  | block =>
    exact Body.within_blockWrites hs hn hc (fun o ho => (horder o ho).method)
      (kind_of_ofPlace?_block hk) o hP (hcovers.brace hk)
  | call => exact Callable.within_argumentWrites hs hn hc _ (hin.call hk) hP
  | new => exact Callable.within_argumentWrites hs hn hc _ (hin.new hk) hP
  | classBody => exact Body.within_classWrites hs hP
  | conditional => exact Operation.within_conditionalWrites hs hP
  | loop => exact Body.within_loopWrites hs hn hc hP
  | forLoop => exact Body.within_forWrites hs hn hc (hin.forLoop hk) hP
  | exports => exact Sequence.within_ofExport hs hn hc hP
  | imports => exact Sequence.within_ofImport hs hn hc hP
  | functionDeclaration => exact Callable.within_parameterWrites hs hn hc _ hP
  | functionExpression => exact Callable.within_parameterWrites hs hn hc _ hP
  | branch => exact Body.within_branchWrites hs hn hc hP
  | member => exact Operation.within_memberWrites hs hn hc _ hP
  | property => exact Operation.within_propertyWrites
  | switch => exact Body.within_switchWrites hs hn hc o hP
  | template => exact Operation.within_templateWrites hs hn hc (hcovers.part hk)
  | declaration => exact Declaration.within_writes hs o hP
  | declarator => exact Declaration.within_declaratorWrites hs

omit hn horder hc hP in
theorem within_leave {k : Construct} (hk : ofPlace? c = some k) :
    ∀ w ∈ leave s o c k, w.Within s P := by
  cases k with
  | declarator => exact Declaration.within_shiftWrites hs o (hcovers.value hk)
  | _ => exact List.forall_mem_nil _

omit hs hn horder hc hP hcovers in
/-- A walk writes nothing at a place that is no construct. -/
theorem eventWrites_eq_nil {e : Event} (h : ofPlace? e.place = none) : eventWrites s o e = [] := by
  cases e with
  | enter c =>
    simp only [Event.place] at h
    simp [eventWrites, h]
  | leave c =>
    simp only [Event.place] at h
    simp [eventWrites, h]

/-- All that a walk writes at a place is forward, and within the place. -/
theorem within_eventWrites {e : Event} (he : e.place = c) :
    ∀ w ∈ eventWrites s o e, w.Within s P := by
  subst he
  cases hk : ofPlace? e.place with
  | none => simp [eventWrites_eq_nil hk]
  | some k =>
    cases e with
    | enter c =>
      simp only [Event.place] at *
      simp only [eventWrites, hk, Option.map_some, Option.getD_some]
      exact within_enter hs hn horder hc hP hcovers hk
    | leave c =>
      simp only [Event.place] at *
      simp only [eventWrites, hk, Option.map_some, Option.getD_some]
      exact within_leave hs hcovers hk

end Indentation.Construct
