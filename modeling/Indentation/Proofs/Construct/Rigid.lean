import Indentation.Construct.Declaration
import Indentation.Proofs.Layout.Local
import Indentation.Proofs.Layout.Resolve
import Indentation.Proofs.Tree.Reach

/-!
# Initial values move as one piece

The initial value of the first of several declarators moves in with the names below it.  The levels are
put on those of its tokens that are anchored outside, and all others get them through their anchors.  So
a token gets them once, however many anchors are between it and the outside.
-/

namespace Indentation

namespace Width

theorem add_assoc (a b c : Nat) : add (add a b) c = add a (add b c) := by
  simp only [add]
  omega

theorem add_right_comm (a b c : Nat) : add (add a b) c = add (add a c) b := by
  simp only [add]
  omega

theorem add_ofLevels (a unit levels : Nat) :
    add a (ofLevels unit levels) = min (a + levels * unit) widthLimit := by
  simp only [add, ofLevels]
  omega

end Width

namespace Graph

/-- Following anchors from a token leads out of a span to the front.  On the way no token of the span may
stand where it is. -/
inductive Escapes (g : Graph) (span : Span) : Nat → Prop
  | out {t a : Nat} (hin : span.contains t = true) (hexempt : g.isExempt t = false)
    (hanchor : g.anchor? t = some a) (hbefore : a < span.first) : Escapes g span t
  | within {t a : Nat} (hin : span.contains t = true) (hexempt : g.isExempt t = false)
    (hanchor : g.anchor? t = some a) (ha : Escapes g span a) : Escapes g span t

variable {s : TokenStream} {c : IndentChar} {g : Graph} {unit levels t width : Nat} {span : Span}

theorem Escapes.contains (h : Escapes g span t) : span.contains t = true := by
  cases h with
  | out hin => exact hin
  | within hin => exact hin

theorem Escapes.lt_size (h : Escapes g span t) : t < g.size := by
  cases h with
  | out _ _ hanchor => exact lt_size_of_anchor? hanchor
  | within _ _ hanchor => exact lt_size_of_anchor? hanchor

theorem isExempt_shift (t : Nat) : (g.write s unit (.shift span levels)).isExempt t = g.isExempt t := by
  rw [isExempt, isExempt, exempted_shift]

/-- A token in front of a span that moves stays where it is. -/
theorem Forward.settles_shift (hg : g.Forward) (h : Settles s c g t width) (ht : t < span.first) :
    Settles s c (g.write s unit (.shift span levels)) t width := by
  have hedge {t : Nat} (ht : t < span.first) :
      (g.write s unit (.shift span levels)).edge t = g.edge t :=
    edge_shift_of (.inr fun hin => Nat.not_le_of_lt ht hin.1)
  induction h with
  | exempt hexempt => exact .exempt ((isExempt_shift _).trans hexempt)
  | free hexempt hanchor =>
    rw [← hedge ht]
    exact .free ((isExempt_shift _).trans hexempt) ((anchor?_shift span levels).trans hanchor)
  | anchored hexempt hanchor _ ih =>
    rw [← hedge ht]
    exact .anchored ((isExempt_shift _).trans hexempt) ((anchor?_shift span levels).trans hanchor)
      (ih (Nat.lt_trans (hg _ _ hanchor) ht))

theorem Settles.exists_base {a : Nat} (h : Settles s c g t width) (hexempt : g.isExempt t = false)
    (hanchor : g.anchor? t = some a) :
    ∃ base, Settles s c g a base ∧ width = Width.add base (g.edge t).offset := by
  cases h with
  | exempt hyes => exact nomatch hexempt.symm.trans hyes
  | free _ hnone => exact nomatch hanchor.symm.trans hnone
  | @anchored _ b base _ hsome hbase =>
    obtain rfl := Option.some.inj (hanchor.symm.trans hsome)
    exact ⟨base, hbase, rfl⟩

/-- A token from which anchors lead out of a span moves in as far as the span does. -/
theorem Escapes.settles_shift (hg : g.Forward) (hescapes : Escapes g span t)
    (h : Settles s c g t width) :
    Settles s c (g.write s unit (.shift span levels)) t (Width.add width (Width.ofLevels unit levels)) := by
  -- The levels are met on the one edge of the chain that leads out, and are then carried along.
  induction hescapes generalizing width with
  | @out t a hin hexempt hanchor hbefore =>
    obtain ⟨base, hbase, rfl⟩ := h.exists_base hexempt hanchor
    have hedge : (g.write s unit (.shift span levels)).edge t =
        ⟨some a, Width.add (g.edge t).offset (Width.ofLevels unit levels)⟩ := by
      have hout : ¬((some a).any span.contains = true ∨ g.size ≤ t) := by
        rintro (hcontains | hsize)
        · exact Nat.not_le_of_lt hbefore (Span.contains_iff.1 hcontains).1
        · exact Nat.not_le_of_lt (lt_size_of_anchor? hanchor) hsize
      rw [edge_shift, if_pos (Span.contains_iff.1 hin), edge_shiftToken, hanchor, if_neg hout]
    have hmoved := Settles.anchored ((isExempt_shift t).trans hexempt) (congrArg Edge.anchor hedge)
      (hg.settles_shift hbase hbefore)
    rwa [hedge, ← Width.add_assoc] at hmoved
  | @within t a hin hexempt hanchor ha ih =>
    obtain ⟨base, hbase, rfl⟩ := h.exists_base hexempt hanchor
    have hedge : (g.write s unit (.shift span levels)).edge t = g.edge t :=
      edge_shift_of (.inl (by rw [hanchor]; exact ha.contains))
    rw [Width.add_right_comm, ← hedge]
    exact .anchored ((isExempt_shift t).trans hexempt) ((anchor?_shift span levels).trans hanchor)
      (ih hbase)

/-- When a span moves, what is in front of it stays, and what is measured from there moves with it. -/
theorem exists_resolve_shift (hg : g.Forward) (hsize : g.size = s.size) (c : IndentChar)
    (unit levels : Nat) (span : Span) :
    ∃ widths widths', g.resolve s c = .ok widths ∧
      (g.write s unit (.shift span levels)).resolve s c = .ok widths' ∧
      (∀ t < s.size, t < span.first → widths'.getD t 0 = widths.getD t 0) ∧
      ∀ t, Escapes g span t → widths'.getD t 0 = min (widths.getD t 0 + levels * unit) widthLimit := by
  have hg' : (g.write s unit (.shift span levels)).Forward := fun t a ha =>
    hg t a ((anchor?_shift span levels).symm.trans ha)
  obtain ⟨widths, hwidths, hsettles⟩ := exists_resolve_settles hg s c
  obtain ⟨widths', hwidths', hsettles'⟩ := exists_resolve_settles hg' s c
  refine ⟨widths, widths', hwidths, hwidths', ?_, ?_⟩
  · intro t ht hbefore
    exact (hsettles' t ht).unique (hg.settles_shift (hsettles t ht) hbefore)
  · intro t hescapes
    have ht : t < s.size := hsize ▸ hescapes.lt_size
    rw [← Width.add_ofLevels]
    exact (hsettles' t ht).unique (hescapes.settles_shift hg (hsettles t ht))

end Graph

namespace Declaration

variable {s : TokenStream} {declaration c second value : Cursor} {rest : List Cursor} {span : Span}

theorem mem_children_of_declarators (h : c ∈ declarators declaration) : c ∈ declaration.children :=
  Cursor.mem_children_of_mem_properChildren (List.mem_filter.1 h).1

theorem isFirstOfSeveral_iff (hc : c ∈ declaration.children) :
    isFirstOfSeveral declaration c = true ↔
      ∃ second rest, declarators declaration = c :: second :: rest := by
  rw [isFirstOfSeveral]
  split
  · next first second rest heq =>
    have hfirst : first ∈ declaration.children :=
      mem_children_of_declarators (heq ▸ List.mem_cons_self)
    rw [Cursor.samePlace_iff_of_children hfirst hc]
    constructor
    · rintro rfl
      exact ⟨second, rest, heq⟩
    · rintro ⟨_, _, h⟩
      exact (List.cons.inj (heq.symm.trans h)).1
  · next hnot =>
    constructor
    · intro h
      cases h
    · rintro ⟨second, rest, h⟩
      exact absurd h (hnot c second rest)

theorem shiftWrites_of_not_first (o : IndentOptions) (hc : c ∈ declaration.children)
    (h : ∀ second rest, declarators declaration ≠ c :: second :: rest) : shiftWrites s o c = [] := by
  have hfirst : ¬isFirstOfSeveral declaration c = true := by
    intro hfirst
    obtain ⟨second, rest, heq⟩ := (isFirstOfSeveral_iff hc).1 hfirst
    exact h second rest heq
  simp only [shiftWrites, Cursor.parent?_of_mem_children hc, Option.bind_eq_bind, Option.bind_some,
    if_neg hfirst, Option.getD_none]

theorem shiftWrites_of_first (o : IndentOptions) (h : declarators declaration = c :: second :: rest)
    (hvalue : c.fieldChild? "value" = some value) (hspan : s.spanOfNode? value.bare = some span) :
    shiftWrites s o c = [.shift span (o.declarators.of (keyword declaration))] := by
  have hc : c ∈ declaration.children := mem_children_of_declarators (h ▸ List.mem_cons_self)
  simp only [shiftWrites, Cursor.parent?_of_mem_children hc, Option.bind_eq_bind, Option.bind_some,
    if_pos ((isFirstOfSeveral_iff hc).2 ⟨second, rest, h⟩), hvalue, hspan, Option.pure_def,
    Option.getD_some]

/-- Leaving a declarator changes nothing if it is not the first of several.  Leaving the first of several
moves its initial value.  In a forward graph every token from which anchors lead out of the value to the
front, without coming to a token of it that may stand where it is, then stands in by the levels of the
declaration, as far as the limit of widths allows.  Two such tokens that do not come to the limit are as
far apart as before, and what is in front of the value stays. -/
theorem moves_as_one_piece {g : Graph} (hg : g.Forward) (hsize : g.size = s.size)
    (hc : c ∈ declaration.children) (o : IndentOptions) :
    ((∀ second rest, declarators declaration ≠ c :: second :: rest) →
      g.writeAll s o.unit (shiftWrites s o c) = g) ∧
    ∀ second rest, declarators declaration = c :: second :: rest →
      ∀ value, c.fieldChild? "value" = some value → ∀ span, s.spanOfNode? value.bare = some span →
        ∀ levels, o.declarators.of (keyword declaration) = levels →
        ∃ widths widths', g.resolve s o.indentChar = .ok widths ∧
          (g.writeAll s o.unit (shiftWrites s o c)).resolve s o.indentChar = .ok widths' ∧
          (∀ t, g.Escapes span t →
            widths'.getD t 0 = min (widths.getD t 0 + levels * o.unit) widthLimit) ∧
          (∀ t u, g.Escapes span t → g.Escapes span u → widths.getD t 0 + levels * o.unit ≤ widthLimit →
            widths.getD u 0 + levels * o.unit ≤ widthLimit →
              widths'.getD t 0 + widths.getD u 0 = widths.getD t 0 + widths'.getD u 0) ∧
          ∀ t < s.size, t < span.first → widths'.getD t 0 = widths.getD t 0 := by
  constructor
  · intro h
    rw [shiftWrites_of_not_first o hc h]
    rfl
  · intro second rest h value hvalue span hspan levels hlevels
    obtain ⟨widths, widths', hwidths, hwidths', hbefore, hescapes⟩ :=
      Graph.exists_resolve_shift hg hsize o.indentChar o.unit levels span
    rw [shiftWrites_of_first o h hvalue hspan, hlevels]
    refine ⟨widths, widths', hwidths, hwidths', hescapes, ?_, hbefore⟩
    intro t u ht hu hle hle'
    rw [hescapes t ht, hescapes u hu, Nat.min_eq_left hle, Nat.min_eq_left hle']
    omega

/-! ## An object that moves with its lines -/

/-- The bytes from one offset up to another. -/
def through (start stop : Nat) : Range := (Range.point start).cover (.point stop)

/-- Two declarators.  The initial value of the first one goes over three lines. -/
def objectTree : Node :=
  .mk ⟨"variable_declaration", through 0 13, true, false, false, false, false, none⟩
    [.mk ⟨"var", through 0 3, false, false, false, false, false, none⟩ [],
     .mk ⟨"variable_declarator", through 4 11, true, false, false, false, false, none⟩
      [.mk ⟨"identifier", through 4 5, true, false, false, false, false, some "name"⟩ [],
       .mk ⟨"=", through 5 6, false, false, false, false, false, none⟩ [],
       .mk ⟨"object", through 6 11, true, false, false, false, false, some "value"⟩
        [.mk ⟨"\x7b", through 6 7, false, false, false, false, false, none⟩ [],
         .mk ⟨"shorthand_property_identifier", through 8 9, true, false, false, false, false, none⟩ [],
         .mk ⟨"\x7d", through 10 11, false, false, false, false, false, none⟩ []]],
     .mk ⟨",", through 11 12, false, false, false, false, false, none⟩ [],
     .mk ⟨"variable_declarator", through 12 13, true, false, false, false, false, none⟩
      [.mk ⟨"identifier", through 12 13, true, false, false, false, false, some "name"⟩ []]]

def objectStream : TokenStream where
  source := "var a=\x7b\nb\n\x7d,c".toList
  tokens := #[
    ⟨.keyword, through 0 3, "var".toList, [], 1, 1, 0⟩,
    ⟨.identifier, through 4 5, ['a'], "var ".toList, 1, 1, 4⟩,
    ⟨.punctuator, through 5 6, ['='], "var a".toList, 1, 1, 5⟩,
    ⟨.punctuator, through 6 7, ['\x7b'], "var a=".toList, 1, 1, 6⟩,
    ⟨.identifier, through 8 9, ['b'], [], 2, 2, 0⟩,
    ⟨.punctuator, through 10 11, ['\x7d'], [], 3, 3, 0⟩,
    ⟨.punctuator, through 11 12, [','], ['\x7d'], 3, 3, 1⟩,
    ⟨.identifier, through 12 13, ['c'], "\x7d,".toList, 3, 3, 2⟩]
  leaders := #[none, some 0, some 4, some 5]

/-- The lines of the object are anchored to its first brace. -/
def objectGraph : Graph where
  edges := #[.margin, ⟨some 0, 0⟩, ⟨some 0, 0⟩, ⟨some 0, 0⟩, ⟨some 3, 4⟩, ⟨some 3, 0⟩, ⟨some 0, 4⟩, ⟨some 0, 4⟩]
  exempted := Array.replicate 8 false
  brackets := Array.replicate 8 false

/-- The first declarator of the two. -/
def objectDeclarator : Cursor := (declarators (.root objectTree)).headD (.root objectTree)

theorem moves_as_one_piece_objectTree : objectGraph.Forward ∧
    objectGraph.Escapes ⟨3, 5⟩ 4 ∧ objectGraph.Escapes ⟨3, 5⟩ 5 ∧
    objectGraph.resolve objectStream .space = .ok #[0, 0, 0, 0, 4, 0, 4, 4] ∧
    ∃ widths, (objectGraph.writeAll objectStream 4 (shiftWrites objectStream .standard objectDeclarator)).resolve
        objectStream .space = .ok widths ∧
      widths.getD 4 0 = 8 ∧ widths.getD 5 0 = 4 ∧ widths.getD 2 0 = 0 := by
  have hforward : objectGraph.Forward := fun t a ha =>
    match t with
    | 0 | 1 | 2 | 3 | 4 | 5 | 6 | 7 => by cases ha <;> decide
    | _ + 8 => by cases ha
  have hbrace : objectGraph.Escapes ⟨3, 5⟩ 3 := .out rfl rfl rfl (by decide)
  have hname : objectGraph.Escapes ⟨3, 5⟩ 4 := .within rfl rfl rfl hbrace
  have hlast : objectGraph.Escapes ⟨3, 5⟩ 5 := .within rfl rfl rfl hbrace
  obtain ⟨second, rest, hfirst⟩ : ∃ second rest,
      declarators (.root objectTree) = objectDeclarator :: second :: rest := ⟨_, _, rfl⟩
  obtain ⟨value, hvalue, hspan⟩ : ∃ value, objectDeclarator.fieldChild? "value" = some value ∧
      objectStream.spanOfNode? value.bare = some ⟨3, 5⟩ := by
    refine ⟨_, rfl, ?_⟩
    rw [Cursor.bare, if_neg (by decide)]
    decide +kernel
  have hwidths : objectGraph.resolve objectStream .space = .ok #[0, 0, 0, 0, 4, 0, 4, 4] := rfl
  have hchild : objectDeclarator ∈ (Cursor.root objectTree).children :=
    mem_children_of_declarators (hfirst ▸ List.mem_cons_self)
  obtain ⟨-, hmoves⟩ := moves_as_one_piece (s := objectStream) hforward rfl hchild .standard
  obtain ⟨widths, widths', hwas, hwidths', hescapes, -, hbefore⟩ :=
    hmoves second rest hfirst value hvalue ⟨3, 5⟩ hspan 1 rfl
  obtain rfl := Except.ok.inj (hwas.symm.trans hwidths)
  exact ⟨hforward, hname, hlast, hwidths, widths', hwidths', hescapes 4 hname, hescapes 5 hlast,
    hbefore 2 (by decide) (by decide)⟩

end Declaration

end Indentation
