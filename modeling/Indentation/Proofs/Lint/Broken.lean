import Indentation.Lint.Linter
import Indentation.Proofs.Lint.Acyclic
import Indentation.Proofs.Text.Places
import Indentation.Proofs.Tree.Walks

/-!
# Where a text is broken

The search for a flaw passes over every subtree that is not tainted.  In a tree whose taints are right it
still comes to the first flaw in preorder, and to nothing if there is none.  A tree that is tainted
hence has a first flaw, and that is where a text is said to be broken.
-/

namespace Indentation

/-- Nodes are tainted exactly if there is a flaw at them or below. -/
def Node.Marked (tree : Node) : Prop :=
  ∀ c ∈ tree.preorder, (c.node.tainted = true ↔ ∃ d ∈ c.preorder, d.node.isFlaw = true)

namespace Cursor

def isFlaw (c : Cursor) : Bool := c.node.isFlaw

/-- Where a search for a flaw goes on: into a tainted subtree and past any other. -/
def seek? (c : Cursor) : Option Cursor :=
  if c.isFlaw then none else if c.node.tainted then c.next? else skip? c.trail

variable {tree : Node} {c d f : Cursor}

/-! ## What a search finds -/

theorem firstFlaw?_of_seek? (h : c.isFlaw = false) : c.firstFlaw? = c.seek?.bind firstFlaw? := by
  have hflaw : c.node.isFlaw = false := h
  rw [firstFlaw?, hflaw, if_neg Bool.false_ne_true, seek?, h, if_neg Bool.false_ne_true]
  split
  · next hnone => rw [hnone]; rfl
  · next hsome => rw [hsome]; rfl

/-- A search that ends finds the last place that it looks at, if that is a flaw. -/
theorem firstFlaw?_of_traverses {places : List Cursor} (h : Traverses seek? c places none) :
    c.firstFlaw? = places.getLast?.filter isFlaw := by
  generalize hout : none = out at h
  induction h with
  | last c =>
    rw [List.getLast?_singleton, Option.filter_some]
    cases hflaw : c.isFlaw with
    | true =>
      have hnode : c.node.isFlaw = true := hflaw
      rw [firstFlaw?, if_pos hnode, if_pos rfl]
    | false =>
      rw [firstFlaw?_of_seek? hflaw, ← hout, if_neg Bool.false_ne_true]
      rfl
  | @next c d places out hstep hrest ih =>
    have hflaw : c.isFlaw = false := by
      by_contra hflaw
      rw [Bool.not_eq_false] at hflaw
      rw [seek?, if_pos hflaw] at hstep
      cases hstep
    rw [firstFlaw?_of_seek? hflaw, hstep, Option.bind_some, ih hout]
    cases hrest <;> rfl

/-! ## What a search looks at -/

/-- A subtree without a flaw is passed over. -/
theorem seek?_of_clean (h : tree.Marked) (hc : c ∈ tree.preorder)
    (hclean : c.preorder.find? isFlaw = none) : c.seek? = skip? c.trail := by
  have hnone := List.find?_eq_none.1 hclean
  have hself : c ∈ c.preorder := mem_preorder_iff.2 (.refl c)
  have htainted : ¬c.node.tainted = true := fun htainted => by
    obtain ⟨d, hd, hflaw⟩ := (h c hc).1 htainted
    exact hnone d hd hflaw
  rw [seek?, if_neg (hnone c hself), if_neg htainted]

/-- A search from a place ends at another one, after looking at some places of a list. -/
def SeeksTo (c f : Cursor) (among : List Cursor) : Prop :=
  ∃ places, Traverses seek? c places none ∧ places.Sublist among ∧ places.getLast? = some f

theorem SeeksTo.cons {among : List Cursor} (hstep : c.seek? = some d) (h : SeeksTo d f among) :
    SeeksTo c f (c :: among) := by
  obtain ⟨places, hplaces, hsub, hlast⟩ := h
  refine ⟨c :: places, .next hstep hplaces, hsub.cons_cons c, ?_⟩
  rw [List.getLast?_cons, hlast]
  rfl

theorem SeeksTo.mono {among among' : List Cursor} (h : SeeksTo c f among) (hsub : among.Sublist among') :
    SeeksTo c f among' := by
  obtain ⟨places, hplaces, hplaces', hlast⟩ := h
  exact ⟨places, hplaces, hplaces'.trans hsub, hlast⟩

/-- Children without a flaw are passed over one after the other, up to the first one that has one. -/
theorem seeksTo_of_suffix (h : tree.Marked) (hc : c ∈ tree.preorder)
    (ih : ∀ d ∈ c.children, d.preorder.find? isFlaw = some f → SeeksTo d f d.preorder)
    {rest : List Cursor} (hsuffix : d :: rest <:+ c.children)
    (hf : ((d :: rest).flatMap preorder).find? isFlaw = some f) :
    SeeksTo d f ((d :: rest).flatMap preorder) := by
  induction rest generalizing d with
  | nil =>
    simp only [List.flatMap_singleton] at hf ⊢
    exact ih d (hsuffix.subset List.mem_cons_self) hf
  | cons e rest ihrest =>
    have hd := hsuffix.subset List.mem_cons_self
    rw [List.flatMap_cons, List.find?_append] at hf
    rw [List.flatMap_cons]
    cases hclean : d.preorder.find? isFlaw with
    | some g =>
      rw [hclean] at hf
      obtain rfl : g = f := Option.some.inj hf
      exact (ih d hd hclean).mono (List.sublist_append_left _ _)
    | none =>
      rw [hclean] at hf
      have hstep : d.seek? = some e := by
        rw [seek?_of_clean h (Node.mem_preorder_of_child hc hd) hclean, skip?_of_suffix hsuffix]
        rfl
      have hself : [d].Sublist d.preorder := List.singleton_sublist.2 (mem_preorder_iff.2 (.refl d))
      have hlater := ihrest ((List.suffix_cons d (e :: rest)).trans hsuffix) hf
      exact (hlater.cons hstep).mono (hself.append (List.Sublist.refl _))

/-- A search from a place with a flaw at it or below ends at the first of them. -/
theorem seeksTo_of_find? (h : tree.Marked) (hc : c ∈ tree.preorder)
    (hf : c.preorder.find? isFlaw = some f) : SeeksTo c f c.preorder := by
  induction c using induction_children with
  | h c ih =>
    have hmem := List.mem_of_find?_eq_some hf
    have hflaw := List.find?_some hf
    rw [preorder_eq] at hf
    cases hself : c.isFlaw with
    | true =>
      rw [List.find?_cons_of_pos hself] at hf
      obtain rfl : c = f := Option.some.inj hf
      have hstop : c.seek? = none := by rw [seek?, if_pos hself]
      exact ⟨[c], hstop ▸ .last c, List.singleton_sublist.2 hmem, rfl⟩
    | false =>
      rw [List.find?_cons_of_neg (by simp [hself])] at hf
      have htainted : c.node.tainted = true := (h c hc).2 ⟨f, hmem, hflaw⟩
      rw [preorder_eq]
      cases hcs : c.children with
      | nil => simp [hcs] at hf
      | cons d rest =>
        have hstep : c.seek? = some d := by
          rw [seek?, hself, if_neg Bool.false_ne_true, if_pos htainted, next?, firstChild?_eq, hcs]
          rfl
        refine .cons hstep (seeksTo_of_suffix h hc (fun e he hfe => ?_) (hcs ▸ List.suffix_rfl) (hcs ▸ hf))
        exact ih e he (Node.mem_preorder_of_child hc he) hfe

end Cursor

namespace Node

variable {tree : Node}

/-- A search through a whole tree ends.  It looks at no place twice, and finds the first flaw in preorder. -/
theorem Marked.exists_traverses (h : tree.Marked) :
    ∃ places, Traverses Cursor.seek? (.root tree) places none ∧ places.Sublist tree.preorder ∧
      places.getLast?.filter Cursor.isFlaw = tree.preorder.find? Cursor.isFlaw := by
  have hroot : Cursor.root tree ∈ tree.preorder := mem_preorder_iff.2 (.refl _)
  cases hf : tree.preorder.find? Cursor.isFlaw with
  | some f =>
    obtain ⟨places, hplaces, hsub, hlast⟩ := Cursor.seeksTo_of_find? h hroot hf
    refine ⟨places, hplaces, hsub, ?_⟩
    rw [hlast, Option.filter_some, if_pos (List.find?_some hf)]
  | none =>
    have hstop : (Cursor.root tree).seek? = none := Cursor.seek?_of_clean h hroot hf
    refine ⟨[.root tree], hstop ▸ .last _, List.singleton_sublist.2 hroot, ?_⟩
    rw [List.getLast?_singleton, Option.filter_some, if_neg (List.find?_eq_none.1 hf _ hroot)]

theorem Marked.firstFlaw?_eq (h : tree.Marked) :
    tree.firstFlaw? = (tree.preorder.find? Cursor.isFlaw).map fun c => c.range.start := by
  obtain ⟨places, hplaces, -, hlast⟩ := h.exists_traverses
  rw [firstFlaw?, Cursor.firstFlaw?_of_traverses hplaces, hlast]

/-- A tainted tree has a first flaw. -/
theorem Marked.exists_first (h : tree.Marked) (htainted : tree.tainted = true) :
    ∃ before c after, tree.preorder = before ++ c :: after ∧ (∀ b ∈ before, b.isFlaw = false) ∧
      c.isFlaw = true ∧ tree.firstFlaw? = some c.range.start := by
  obtain ⟨d, hd, hflaw⟩ := (h _ (Node.mem_preorder_iff.2 (.refl (.root tree)))).1 htainted
  obtain ⟨c, hc⟩ : ∃ c, tree.preorder.find? Cursor.isFlaw = some c :=
    Option.isSome_iff_exists.1 (List.find?_isSome.2 ⟨d, hd, hflaw⟩)
  obtain ⟨hself, before, after, hsplit, hbefore⟩ := List.find?_eq_some_iff_append.1 hc
  refine ⟨before, c, after, hsplit, ?_, hself, ?_⟩
  · intro b hb
    simpa using hbefore b hb
  · rw [h.firstFlaw?_eq, hc]
    rfl

end Node

/-- The text of a tainted tree is refused at its first flaw. -/
theorem Linter.lint_eq_badText_iff {tree : Node} (htainted : tree.tainted = true) {start : Nat}
    (hfirst : tree.firstFlaw? = some start) {parse : Parser} {round : Nat} {source : Text}
    (hparse : parse round source = some tree) (l : Linter) (place : LineColumn) :
    l.lint parse round source = .error (.badText place) ↔
      (Lines.of source).lineColumn source start = .ok place := by
  have hlint : l.lint parse round source = .error (brokenAt source tree) := by
    rw [lint, hparse]
    simp only [lintTree, htainted, if_true]
  rw [hlint, brokenAt, hfirst, Option.getD_some]
  cases (Lines.of source).lineColumn source start <;> simp

/-- The search for a flaw ends after looking at some of the places of the tree in preorder.  What it finds
is the start of the first flaw among all places in preorder, and it finds nothing exactly if there is no
flaw.  So a tainted tree has a first flaw.  Whichever rules run, the text of such a tree is refused as
broken at that flaw, as long as this is between two characters of the text. -/
theorem Linter.broken_at_first_flaw {tree : Node} (h : tree.Marked) :
    (∃ places, Traverses Cursor.seek? (.root tree) places none ∧ places.Sublist tree.preorder) ∧
    tree.firstFlaw? = (tree.preorder.find? Cursor.isFlaw).map (fun c => c.range.start) ∧
    (tree.firstFlaw? = none ↔ ∀ c ∈ tree.preorder, c.isFlaw = false) ∧
    (tree.tainted = true → ∃ before c after, tree.preorder = before ++ c :: after ∧
      (∀ b ∈ before, b.isFlaw = false) ∧ c.isFlaw = true ∧ tree.firstFlaw? = some c.range.start ∧
      ∀ (l : Linter) (parse : Parser) (round : Nat) (source : Text), parse round source = some tree →
        (∀ place, l.lint parse round source = .error (.badText place) ↔
          (Lines.of source).lineColumn source c.range.start = .ok place) ∧
        (source.Cuts c.range.start → ∃ place, l.lint parse round source = .error (.badText place) ∧
          (Lines.of source).offset source place = .ok c.range.start)) := by
  obtain ⟨places, hplaces, hsub, -⟩ := h.exists_traverses
  refine ⟨⟨places, hplaces, hsub⟩, h.firstFlaw?_eq, ?_, ?_⟩
  · rw [h.firstFlaw?_eq, Option.map_eq_none_iff, List.find?_eq_none]
    simp only [Bool.not_eq_true]
  · intro htainted
    obtain ⟨before, c, after, hsplit, hbefore, hself, hfirst⟩ := h.exists_first htainted
    refine ⟨before, c, after, hsplit, hbefore, hself, hfirst, ?_⟩
    intro l parse round source hparse
    have hiff := lint_eq_badText_iff htainted hfirst hparse l
    constructor
    · exact hiff
    · intro hcut
      obtain ⟨above, lead, behind, haround⟩ := Lines.exists_around hcut
      exact ⟨_, (hiff _).2 haround.lineColumn_eq, haround.offset_eq⟩

open IndentRule (bytes)

/-- A statement, and a block in which two names stand without the semicolon between them. -/
def brokenText : Text := "a;\n{b c}".toList

/-- The semicolon is put in behind the first name of the block. -/
def brokenTree : Node :=
  .mk ⟨"program", bytes 0 8, true, false, false, false, true, none⟩
    [.mk ⟨"expression_statement", bytes 0 2, true, false, false, false, false, none⟩
      [.mk ⟨"identifier", bytes 0 1, true, false, false, false, false, none⟩ [],
       .mk ⟨";", bytes 1 1, false, false, false, false, false, none⟩ []],
     .mk ⟨"statement_block", bytes 3 5, true, false, false, false, true, none⟩
      [.mk ⟨"\x7b", bytes 3 1, false, false, false, false, false, none⟩ [],
       .mk ⟨"expression_statement", bytes 4 1, true, false, false, false, true, none⟩
        [.mk ⟨"identifier", bytes 4 1, true, false, false, false, false, none⟩ [],
         .mk ⟨";", bytes 5 0, false, false, true, false, true, none⟩ []],
       .mk ⟨"expression_statement", bytes 6 1, true, false, false, false, false, none⟩
        [.mk ⟨"identifier", bytes 6 1, true, false, false, false, false, none⟩ []],
       .mk ⟨"\x7d", bytes 7 1, false, false, false, false, false, none⟩ []]]

theorem Linter.broken_at_first_flaw_brokenTree : brokenTree.Marked ∧ brokenTree.firstFlaw? = some 5 ∧
    (⟨[]⟩ : Linter).lint (fun _ _ => some brokenTree) 0 brokenText = .error (.badText ⟨2, 3⟩) := by
  have hmarked : brokenTree.Marked := by unfold Node.Marked; decide
  obtain ⟨-, hfind, -, hbroken⟩ := broken_at_first_flaw hmarked
  obtain ⟨_, c, _, -, -, -, hfirst, hlint⟩ := hbroken rfl
  have hfive : brokenTree.firstFlaw? = some 5 := hfind.trans (by decide)
  have hplace : (Lines.of brokenText).lineColumn brokenText 5 = .ok ⟨2, 3⟩ := by
    with_unfolding_all decide
  rw [← Option.some.inj (hfirst.symm.trans hfive)] at hplace
  exact ⟨hmarked, hfive, ((hlint ⟨[]⟩ _ 0 brokenText rfl).1 _).2 hplace⟩

end Indentation
